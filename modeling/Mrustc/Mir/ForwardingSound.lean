import Mrustc.Mir.Changes
import Mrustc.Mir.Recorded

/-! # Copy forwarding keeps the meaning of a block

The rewritten block runs beside the original one. Its memory holds at least as much, except in locals
whose assignment will be deleted, and every source that will be put in place still holds the value of
its local.
-/

namespace Mrustc.Mir

open Memory Forwarding

variable {T P B K π E : Type} [Contents K π]

namespace Forwarding

section Live

variable (uses : Set (ℕ × ℕ)) (F : Frame T P B) (s : Forwarding T P) (k : ℕ)

/-- The local is recorded, and its source is put in place at a statement from `k` on. -/
def Live (n i : ℕ) (src : LValue P) : Prop := s.Recorded n i src ∧ ∃ j, k ≤ j ∧ (i, j) ∈ uses

/-- The base of a local whose assignment is deleted and that is still to be moved. -/
def Pending (b : B) : Prop :=
  ∃ n i src, s.Live uses k n i src ∧ F.lvalueIsCopy (.newLocal n) = false ∧ b = F.base (.local_ n)

/-- A base that no live record depends on. -/
def Spares (b : B) : Prop := ∀ n i src, s.Live uses k n i src →
  b ≠ F.base (.local_ n) ∧ b ≠ F.base src.root ∧ ∀ l ∈ src.indexLocals, b ≠ F.base (.local_ l)

end Live

variable {uses : Set (ℕ × ℕ)} {F : Frame T P B} {s s' : Forwarding T P} {k k' n i : ℕ}
  {src lv : LValue P} {b : B}

theorem Live.mono (h : s'.Live uses k' n i src) (hk : k ≤ k') : s'.Live uses k n i src := by
  obtain ⟨hr, j, hj, hu⟩ := h
  exact ⟨hr, j, hk.trans hj, hu⟩

theorem Live.evolves (he : Evolves s s') (h : s'.Live uses k n i src) : s.Live uses k n i src := by
  obtain ⟨⟨hr, hsrc⟩, hu⟩ := h
  refine ⟨⟨he.records hr, ?_⟩, hu⟩
  rw [← hsrc, source, source, he.statements]

theorem Pending.evolves (he : Evolves s s') (h : Pending uses F s' k b) : Pending uses F s k b := by
  obtain ⟨n, i, src, hl, hn, rfl⟩ := h
  exact ⟨n, i, src, hl.evolves he, hn, rfl⟩

theorem Pending.mono (h : Pending uses F s k' b) (hk : k ≤ k') : Pending uses F s k b := by
  obtain ⟨n, i, src, hl, hn, rfl⟩ := h
  exact ⟨n, i, src, hl.mono hk, hn, rfl⟩

theorem Spares.evolves (he : Evolves s s') (h : Spares uses F s k b) : Spares uses F s' k b :=
  fun n i src hl => h n i src (hl.evolves he)

theorem Spares.mono (h : Spares uses F s k b) (hk : k ≤ k') : Spares uses F s k' b :=
  fun n i src hl => h n i src (hl.mono hk)

theorem Spares.not_pending (h : Spares uses F s k b) : ¬ Pending uses F s k b := by
  intro ⟨n, i, src, hl, _, hb⟩
  exact (h n i src hl).1 hb

theorem not_pending_of_copy (h : F.lvalueIsCopy (.newLocal n) = true) :
    ¬ Pending uses F s k (F.base (.local_ n)) := by
  intro ⟨n', i, src, _, hn, hb⟩
  have he := F.base_injective hb
  cases he
  rw [h] at hn
  cases hn

theorem not_pending_of_none {r : Storage P} (h : ∀ n, r = .local_ n → s.localAssignments n = none) :
    ¬ Pending uses F s k (F.base r) := by
  intro ⟨n, i, src, hl, _, hb⟩
  have hn := h n (F.base_injective hb)
  rw [hl.1.1] at hn
  cases hn

end Forwarding

/-- How the memory `m` of the original block and the memory `m'` of the rewritten one compare before the
statement `k`. -/
structure Tracks (I : Interp T P B K π E) (F : Frame T P B) (uses : Set (ℕ × ℕ)) (s : Forwarding T P)
    (k : ℕ) (m m' : B → K) : Prop where
  le {b : B} (h : ¬ Pending uses F s k b) : m b ≤ m' b
  source {n i : ℕ} {src : LValue P} (h : s.Live uses k n i src) :
    ∃ p, I.place F m' src = some ⟨F.base src.root, p⟩ ∧
      m (F.base (.local_ n)) ≤ Contents.get p (m' (F.base src.root)) ∧
      (F.lvalueIsCopy (.newLocal n) = false →
        m (F.base src.root) ≤ Contents.put p ⊥ (m' (F.base src.root)))

variable {I : Interp T P B K π E} {F : Frame T P B} {uses : Set (ℕ × ℕ)} {s s' : Forwarding T P}
  {k k' n i : ℕ} {m m' m₁ m₁' : B → K} {lv lv' src : LValue P} {u : ValUsage} {pl : Place B π} {v : K}

namespace Tracks

theorem weaken (h : Tracks I F uses s k m m')
    (hl : ∀ n i src, s'.Live uses k' n i src → s.Live uses k n i src)
    (hp : ∀ n i src, s.Live uses k n i src → F.lvalueIsCopy (.newLocal n) = false →
      s'.Live uses k' n i src) : Tracks I F uses s' k' m m' where
  le hb := h.le fun ⟨n, i, src, hlive, hn, he⟩ => hb ⟨n, i, src, hp n i src hlive hn, hn, he⟩
  source hlive := h.source (hl _ _ _ hlive)

/-- A change of both memories where no live record depends on it. -/
theorem change (h : Tracks I F uses s k m m') (hs : s.Wf F)
    (hc : ∀ b, (m₁ b = m b ∧ m₁' b = m' b) ∨ (Spares uses F s k b ∧ m₁ b ≤ m₁' b)) :
    Tracks I F uses s k m₁ m₁' where
  le {b} hb := by
    rcases hc b with ⟨hm, hm'⟩ | ⟨-, hle⟩
    · rw [hm, hm']
      exact h.le hb
    · exact hle
  source {n i src} hl := by
    obtain ⟨p, hp, hle, hv⟩ := h.source hl
    have hkept {b : B} (hb : b = F.base (.local_ n) ∨ b = F.base src.root ∨
        ∃ l ∈ src.indexLocals, b = F.base (.local_ l)) : m₁ b = m b ∧ m₁' b = m' b := by
      rcases hc b with hb' | ⟨hsp, -⟩
      · exact hb'
      · obtain ⟨h1, h2, h3⟩ := hsp n i src hl
        rcases hb with hb | hb | ⟨l, hl, hb⟩
        · exact absurd hb h1
        · exact absurd hb h2
        · exact absurd hb (h3 l hl)
    have hplace : I.place F m₁' src = I.place F m' src :=
      Interp.unwraps_congr (LValue.hasDeref_eq_false.mp (hs.noDeref hl.1)) fun l hl =>
        (hkept (.inr (.inr ⟨l, LValue.mem_indexLocals.mpr hl, rfl⟩))).2
    refine ⟨p, hplace.trans hp, ?_, fun hn => ?_⟩
    · rw [(hkept (.inl rfl)).1, (hkept (.inr (.inl rfl))).2]
      exact hle
    · rw [(hkept (.inr (.inl rfl))).1, (hkept (.inr (.inl rfl))).2]
      exact hv hn

theorem store [DecidableEq B] (h : Tracks I F uses s k m m') (hs : s.Wf F)
    (hp : Spares uses F s k pl.base) : Tracks I F uses s k (store m pl v) (store m' pl v) := by
  refine h.change hs fun b => ?_
  by_cases hb : b = pl.base
  · subst hb
    exact .inr ⟨hp, store_mono (h.le hp.not_pending)⟩
  · exact .inl ⟨store_of_ne hb, store_of_ne hb⟩

theorem index_le (h : Tracks I F uses s k m m') {l : ℕ} (hl : F.lvalueIsCopy (.newLocal l) = true) :
    m (F.base (.local_ l)) ≤ m' (F.base (.local_ l)) := h.le (not_pending_of_copy hl)

/-- An lvalue has the same place in both memories where nothing on its way is pending. -/
theorem place (h : Tracks I F uses s k m m')
    (hidx : ∀ l ∈ lv.indexLocals, F.lvalueIsCopy (.newLocal l) = true)
    (hroot : ¬ Pending uses F s k (F.base lv.root))
    (hr : ∀ b ∈ I.throughPointers F m lv, ¬ Pending uses F s k b) (hpl : I.place F m lv = some pl) :
    I.place F m' lv = some pl ∧ m pl.base ≤ m' pl.base := by
  have hu := Interp.unwraps_mono (h.le hroot)
    (fun l hl => h.index_le (hidx l (LValue.mem_indexLocals.mpr hl))) (fun b hb => h.le (hr b hb)) hpl
  refine ⟨hu.1, ?_⟩
  by_cases hd : .deref ∈ lv.wrappers
  · exact h.le (hr _ (Interp.unwraps_mem_reached hd hpl))
  · rw [Interp.unwraps_base hd hpl]
    exact h.le hroot

end Tracks

/-- What is recorded for a local that is not Copy is not part of a Copy local. -/
theorem root_ne_of_copy (hs : s.Wf F) (hr : s.Recorded n i src)
    (hn : F.lvalueIsCopy (.newLocal n) = false) {l : ℕ} (hl : F.lvalueIsCopy (.newLocal l) = true) :
    src.root ≠ .local_ l := by
  intro hroot
  have hsrc : src = (LValue.newLocal l).cloneWrapped src.wrappers := by
    rw [LValue.newLocal_cloneWrapped, ← hroot]
  have htype := hs.typed hr
  have hsome : (F.lvalueType src).isSome = true := by
    rw [htype]
    rfl
  have hc : F.lvalueIsCopy src = true := by
    rw [hsrc] at hsome ⊢
    have hd : .deref ∉ src.wrappers := LValue.hasDeref_eq_false.mp (hs.noDeref hr)
    exact Frame.lvalueIsCopy_part hl hd hsome
  rw [Frame.lvalueIsCopy, htype] at hc
  rw [Frame.lvalueIsCopy, hc] at hn
  cases hn

section Operands

variable [DecidableEq B]

/-- Nothing pending is reached through a pointer, and no live record depends on what is moved from
behind one. -/
structure Undisturbed (I : Interp T P B K π E) (F : Frame T P B) (uses : Set (ℕ × ℕ))
    (s : Forwarding T P) (k : ℕ) (m : B → K) (lv : LValue P) (u : ValUsage) : Prop where
  reached {b : B} (hb : b ∈ I.throughPointers F m lv) : ¬ Pending uses F s k b
  moved {pl : Place B π} (hu : u = .move) (hc : F.lvalueIsCopy lv = false) (hd : .deref ∈ lv.wrappers)
    (hpl : I.place F m lv = some pl) : Spares uses F s k pl.base

namespace Tracks

/-- An operand whose root is not recorded stays as it is. -/
theorem operand_kept (h : Tracks I F uses s k m m') (hs : s.Wf F)
    (hidx : ∀ l ∈ lv.indexLocals, F.lvalueIsCopy (.newLocal l) = true)
    (htyped : (F.lvalueType lv).isSome = true)
    (hno : ∀ n, lv.root = .local_ n → s.localAssignments n = none)
    (hinv : u = .move → ∀ n i src, s.Recorded n i src → src.root ≠ lv.root)
    (hu : Undisturbed I F uses s k m lv u) (he : I.operand F m lv u = some (v, m₁)) :
    ∃ m₁', I.operand F m' lv u = some (v, m₁') ∧ Tracks I F uses s k m₁ m₁' := by
  obtain ⟨⟨pl, hpl⟩, -⟩ := Interp.operand_place he
  obtain ⟨hpl', hle⟩ := h.place hidx (not_pending_of_none hno) (fun b => hu.reached) hpl
  cases u with
  | write => cases he
  | read =>
    obtain ⟨pl', hpl₁, hv, rfl⟩ := Interp.operand_read_eq_some.mp he
    cases hpl.symm.trans hpl₁
    exact ⟨m', Interp.operand_read_eq_some.mpr ⟨pl, hpl', load_mono hle hv, rfl⟩, h⟩
  | borrow =>
    obtain ⟨pl', hpl₁, hv, rfl⟩ := Interp.operand_borrow_eq_some.mp he
    cases hpl.symm.trans hpl₁
    exact ⟨m', Interp.operand_borrow_eq_some.mpr ⟨pl, hpl', hv, rfl⟩, h⟩
  | move =>
    obtain ⟨pl', hpl₁, hv, hm⟩ := Interp.operand_move_eq_some.mp he
    cases hpl.symm.trans hpl₁
    refine ⟨_, Interp.operand_move_eq_some.mpr ⟨pl, hpl', load_mono hle hv, rfl⟩, ?_⟩
    rw [← hm]
    by_cases hc : F.lvalueIsCopy lv = true
    · rwa [if_pos hc, if_pos hc]
    · rw [if_neg hc, if_neg hc]
      refine h.store hs ?_
      by_cases hd : .deref ∈ lv.wrappers
      · exact hu.moved rfl (by simpa using hc) hd hpl
      · -- Without a pointer the moved place is in the root, which no record is about: a local that
        -- indexes a source is Copy, and so are its parts.
        rw [Interp.unwraps_base hd hpl]
        intro n i src hl
        refine ⟨?_, F.base_ne ?_, fun l hidx' => ?_⟩
        · intro hb
          have hn := hno n (F.base_injective hb)
          rw [hl.1.1] at hn
          cases hn
        · exact (hinv rfl n i src hl.1).symm
        · intro hb
          have hroot : lv.root = .local_ l := F.base_injective hb
          have hlv : lv = (LValue.newLocal l).cloneWrapped lv.wrappers := by
            rw [LValue.newLocal_cloneWrapped, ← hroot]
          refine hc ?_
          rw [hlv] at htyped ⊢
          exact Frame.lvalueIsCopy_part (hs.indexCopy hl.1 hidx') hd htyped

/-- A use of a recorded Copy local can be replaced by its source. -/
theorem operand_copied (h : Tracks I F uses s k m m') (hs : s.Wf F)
    (hidx : ∀ l ∈ lv.indexLocals, F.lvalueIsCopy (.newLocal l) = true)
    (htyped : (F.lvalueType lv).isSome = true) (hroot : lv.root = .local_ n)
    (hl : s.Live uses k n i src) (hn : F.lvalueIsCopy (.newLocal n) = true) (hb : u ≠ .borrow)
    (hu : Undisturbed I F uses s k m lv u) (he : I.operand F m lv u = some (v, m₁)) :
    ∃ m₁', I.operand F m' (src.cloneWrapped lv.wrappers) u = some (v, m₁') ∧
      Tracks I F uses s k m₁ m₁' := by
  obtain ⟨p, hp, hle, -⟩ := h.source hl
  obtain ⟨⟨pl, hpl⟩, -⟩ := Interp.operand_place he
  have hlv : lv = (LValue.newLocal n).cloneWrapped lv.wrappers := by
    rw [LValue.newLocal_cloneWrapped, ← hroot]
  have hcopy : F.lvalueIsCopy (src.cloneWrapped lv.wrappers) = F.lvalueIsCopy lv := by
    conv_rhs => rw [hlv]
    exact Frame.lvalueIsCopy_congr (hs.typed hl.1)
  -- The place of the source is that of the local, with the path of the source before it.
  have hplace : ∃ pl', I.place F m' (src.cloneWrapped lv.wrappers) = some pl' ∧
      (∀ v, load m pl = some v → load m' pl' = some v) ∧ (.deref ∈ lv.wrappers → pl' = pl) := by
    have hr : ∀ b ∈ I.throughPointers F m lv, m b ≤ m' b := fun b hb => h.le (hu.reached hb)
    have hpl₀ : I.unwraps F m lv.wrappers ⟨F.base (.local_ n), []⟩ = some pl := hroot ▸ hpl
    have hr₀ : ∀ b ∈ I.reached F m lv.wrappers ⟨F.base (.local_ n), []⟩, m b ≤ m' b := by
      rw [Interp.throughPointers, hroot] at hr
      exact hr
    have heq : I.place F m' (src.cloneWrapped lv.wrappers) =
        I.unwraps F m' lv.wrappers ⟨F.base src.root, p ++ []⟩ := by
      have hp' : I.unwraps F m' src.wrappers ⟨F.base src.root, []⟩ = some ⟨F.base src.root, p⟩ := hp
      rw [Interp.place, LValue.cloneWrapped, Interp.unwraps_append, hp', List.append_nil]
      rfl
    rcases Interp.unwraps_copied hle (fun l hl => h.index_le (hidx l (LValue.mem_indexLocals.mpr hl)))
      hr₀ hpl₀ with ⟨hd, q, rfl, hq⟩ | ⟨hd, hq⟩
    · refine ⟨_, heq.trans hq, fun v hv => ?_, fun hd' => absurd hd' hd⟩
      obtain ⟨hi, hv⟩ := load_eq_some.mp hv
      have hv' : v ≤ Contents.get (p ++ q) (m' (F.base src.root)) := by
        rw [Contents.get_append, ← hv]
        exact Contents.get_mono q hle
      exact load_eq_some.mpr ⟨hi, (Contents.eq_of_init hi hv').symm⟩
    · refine ⟨pl, heq.trans hq, fun v hv => load_mono ?_ hv, fun _ => rfl⟩
      exact hr₀ _ (Interp.unwraps_mem_reached hd hpl₀)
  obtain ⟨pl', hpl', hload, hsame⟩ := hplace
  cases u with
  | write => cases he
  | borrow => exact absurd rfl hb
  | read =>
    obtain ⟨pl₁, hpl₁, hv, rfl⟩ := Interp.operand_read_eq_some.mp he
    cases hpl.symm.trans hpl₁
    exact ⟨m', Interp.operand_read_eq_some.mpr ⟨pl', hpl', hload v hv, rfl⟩, h⟩
  | move =>
    obtain ⟨pl₁, hpl₁, hv, hm⟩ := Interp.operand_move_eq_some.mp he
    cases hpl.symm.trans hpl₁
    refine ⟨_, Interp.operand_move_eq_some.mpr ⟨pl', hpl', hload v hv, rfl⟩, ?_⟩
    rw [← hm, hcopy]
    by_cases hc : F.lvalueIsCopy lv = true
    · rwa [if_pos hc, if_pos hc]
    · rw [if_neg hc, if_neg hc]
      have hd : .deref ∈ lv.wrappers := by
        by_contra hd
        refine hc ?_
        rw [hlv] at htyped ⊢
        exact Frame.lvalueIsCopy_part hn hd htyped
      rw [hsame hd]
      exact h.store hs (hu.moved rfl (by simpa using hc) hd hpl)

end Tracks

namespace Tracks

/-- Moving a recorded local out moves its source out in the rewritten block. -/
theorem operand_moved (h : Tracks I F uses s k m m') (hs : s.Wf F) (hl : s.Live uses k n i src)
    (hn : F.lvalueIsCopy (.newLocal n) = false) (hinv : ∀ n' i' src', s.Recorded n' i' src' →
      n' ≠ n → src'.root ≠ .local_ n)
    (he : I.operand F m (.newLocal n) .move = some (v, m₁)) :
    ∃ m₁', I.operand F m' src .move = some (v, m₁') ∧ Tracks I F uses (s.erase n) k m₁ m₁' := by
  obtain ⟨p, hp, hle, hv⟩ := h.source hl
  obtain ⟨pl, hpl, hload, hm⟩ := Interp.operand_move_eq_some.mp he
  have hpl₀ : pl = ⟨F.base (.local_ n), []⟩ := (Option.some.inj hpl).symm
  subst hpl₀
  rw [if_neg (by simp [hn])] at hm
  obtain ⟨hi, hget⟩ := load_eq_some.mp hload
  have hload' : load m' ⟨F.base src.root, p⟩ = some v := by
    rw [Contents.get_nil] at hget
    have hle' : v ≤ Contents.get p (m' (F.base src.root)) := hget ▸ hle
    exact load_eq_some.mpr ⟨hi, (Contents.eq_of_init hi hle').symm⟩
  have hcopy : F.lvalueIsCopy src = false := by
    rw [Frame.lvalueIsCopy, hs.typed hl.1]
    exact hn
  refine ⟨vacate m' ⟨F.base src.root, p⟩,
    Interp.operand_move_eq_some.mpr ⟨_, hp, hload', by rw [if_neg (by simp [hcopy])]⟩, ?_⟩
  have hlive {n' i' : ℕ} {src' : LValue P} (hl' : (s.erase n).Live uses k n' i' src') :
      n' ≠ n ∧ s.Live uses k n' i' src' := by
    refine ⟨fun hnn => ?_, hl'.evolves (shrinks_erase s n).evolves⟩
    have h1 := hl'.1.1
    rw [hnn, erase_self] at h1
    cases h1
  have hrn : F.base src.root ≠ F.base (.local_ n) := F.base_ne (hs.root_ne hl.1)
  subst hm
  exact {
    le := by
      intro b hb
      by_cases hbn : b = F.base (.local_ n)
      · subst hbn
        rw [vacate_whole]
        exact bot_le
      · rw [vacate_of_ne hbn]
        by_cases hbr : b = F.base src.root
        · subst hbr
          have hself : vacate m' ⟨F.base src.root, p⟩ (F.base src.root) =
              Contents.put p ⊥ (m' (F.base src.root)) := store_self
          rw [hself]
          exact hv hn
        · rw [vacate_of_ne hbr]
          apply h.le
          rintro ⟨n', i', src', hl', hn', he'⟩
          refine hb ⟨n', i', src', ?_, hn', he'⟩
          have hnn : n' ≠ n := fun h => hbn (h ▸ he')
          exact ⟨⟨(erase_of_ne hnn).trans hl'.1.1, hl'.1.2⟩, hl'.2⟩
    source := by
      intro n' i' src' hl'
      obtain ⟨hnn, hl'⟩ := hlive hl'
      obtain ⟨q, hq, hle', hv'⟩ := h.source hl'
      have hroots : F.base src'.root ≠ F.base src.root := F.base_ne (hs.alone hl.1 hn hl'.1 hnn)
      have hrn' : F.base src'.root ≠ F.base (.local_ n) := F.base_ne (hinv n' i' src' hl'.1 hnn)
      have hplace : I.place F (vacate m' ⟨F.base src.root, p⟩) src' = I.place F m' src' := by
        refine Interp.unwraps_congr (LValue.hasDeref_eq_false.mp (hs.noDeref hl'.1)) fun l hidx => ?_
        have hidxCopy := hs.indexCopy hl'.1 (LValue.mem_indexLocals.mpr hidx)
        exact vacate_of_ne (F.base_ne (root_ne_of_copy hs hl.1 hn hidxCopy).symm)
      have hkept : vacate m' ⟨F.base src.root, p⟩ (F.base src'.root) = m' (F.base src'.root) :=
        vacate_of_ne hroots
      have hn' : vacate m ⟨F.base (.local_ n), []⟩ (F.base (.local_ n')) = m (F.base (.local_ n')) := by
        refine vacate_of_ne (F.base_ne fun h => hnn ?_)
        cases h
        rfl
      have hroot' : vacate m ⟨F.base (.local_ n), []⟩ (F.base src'.root) = m (F.base src'.root) :=
        vacate_of_ne hrn'
      rw [hn', hroot', hkept]
      exact ⟨q, hplace.trans hq, hle', hv'⟩ }

/-- One operand, and what `cb_apply_replacements` makes of it. -/
theorem operand (h : Tracks I F uses s k m m') (hs : s.Wf F) (hk : s.statements.length = k)
    (hfut : (applyReplacements F.lvalueIsCopy s lv u).2.LeadsTo uses)
    (hidx : ∀ l ∈ lv.indexLocals, F.lvalueIsCopy (.newLocal l) = true)
    (htyped : (F.lvalueType lv).isSome = true)
    (hmove : u = .move → ∀ n i src, s.Recorded n i src → lv.root ≠ .local_ n → src.root ≠ lv.root)
    (hborrow : u = .borrow → ∀ n i src, s.Recorded n i src → lv.root ≠ .local_ n)
    (hu : Undisturbed I F uses s k m lv u) (he : I.operand F m lv u = some (v, m₁)) :
    ∃ m₁', I.operand F m' (applyReplacements F.lvalueIsCopy s lv u).1 u = some (v, m₁') ∧
      Tracks I F uses (applyReplacements F.lvalueIsCopy s lv u).2 k m₁ m₁' := by
  rcases applyReplacements_cases hs lv u with ⟨hno, happ⟩ | ⟨n, i, src, hroot, hr, hcase⟩
  · rw [happ]
    refine h.operand_kept hs hidx htyped hno (fun hum n i src hr => ?_) hu he
    refine hmove hum n i src hr fun hn => ?_
    exact absurd (hr.1.symm.trans (hno n hn)) (by simp)
  · rcases hcase with ⟨hn, happ⟩ | ⟨hn, rfl, rfl, happ⟩ | ⟨hn, happ⟩
    · rw [happ] at hfut ⊢
      have hl : s.Live uses k n i src := by
        refine ⟨hr, k, le_rfl, hfut.sub ?_⟩
        exact List.mem_append_right _ (List.mem_singleton.mpr (by rw [hk]))
      obtain ⟨m₁', he', h'⟩ := h.operand_copied hs hidx htyped hroot hl hn
        (fun hb => hborrow hb n i src hr hroot) hu he
      exact ⟨m₁', he', h'.weaken (fun _ _ _ hl => hl) fun _ _ _ hl _ => hl⟩
    · rw [happ] at hfut ⊢
      have hl : s.Live uses k n i src := by
        refine ⟨hr, k, le_rfl, hfut.sub ?_⟩
        exact List.mem_append_right _ (List.mem_singleton.mpr (by rw [hk]))
      obtain ⟨m₁', he', h'⟩ := h.operand_moved hs hl hn (fun n' i' src' hr' hne =>
        hmove rfl n' i' src' hr' fun heq => hne (by cases heq; rfl)) he
      exact ⟨m₁', he', h'.weaken (fun _ _ _ hl => hl) fun _ _ _ hl _ => hl⟩
    · rw [happ] at hfut ⊢
      have hnot : ∀ i' src', ¬ s.Live uses k n i' src' := by
        intro i' src' ⟨hr', j, _, hj⟩
        obtain ⟨rfl, rfl⟩ := hr.inj hr'
        rcases hfut.rest hj with hx | ⟨⟨n', hn'⟩ | hlt, -⟩
        · exact hs.unlogged hr.1 hn j hx
        · have hrec := (shrinks_erase s n).records hn'
          have hnn := hs.injective hr.1 hrec
          rw [hnn, erase_self] at hn'
          cases hn'
        · exact absurd (hs.assigns hr).lt (Nat.not_lt.mpr hlt)
      have hev := (shrinks_erase s n).evolves
      have h' : Tracks I F uses (s.erase n) k m m' := by
        refine h.weaken (fun _ _ _ hl => hl.evolves hev) fun n' i' src' hl _ => ?_
        have hnn : n' ≠ n := fun hnn => hnot i' src' (hnn ▸ hl)
        exact ⟨⟨(erase_of_ne hnn).trans hl.1.1, hl.1.2⟩, hl.2⟩
      have hne {n' i' : ℕ} {src' : LValue P} (hr' : (s.erase n).Recorded n' i' src') : n' ≠ n :=
        fun hnn => by
          have h1 := hr'.1
          rw [hnn, erase_self] at h1
          cases h1
      refine h'.operand_kept (hs.shrink (shrinks_erase s n)) hidx htyped (fun n' hn' => ?_)
        (fun hum n' i' src' hr' => ?_) ?_ he
      · rw [hroot, Storage.local_.injEq] at hn'
        rw [← hn', erase_self]
      · refine hmove hum n' i' src' ((shrinks_erase s n).recorded hr') fun hn' => hne hr' ?_
        rw [hroot, Storage.local_.injEq] at hn'
        exact hn'.symm
      · exact ⟨fun hb hp => hu.reached hb (hp.evolves hev),
          fun hum hc hd hpl => (hu.moved hum hc hd hpl).evolves hev⟩

end Tracks

end Operands

theorem Undisturbed.later (hu : Undisturbed I F uses s k m lv u) (he : Evolves s s')
    (hm : ∀ b, m₁ b ≤ m b) (hpl : I.place F m₁ lv = some pl) :
    Undisturbed I F uses s' k m₁ lv u := by
  obtain ⟨hplace, hreached⟩ := Interp.unwraps_mono (hm _) (fun l _ => hm _) (fun b _ => hm b) hpl
  refine ⟨fun hb hp => hu.reached ?_ (hp.evolves he), fun hum hc hd hpl' => ?_⟩
  · rw [Interp.throughPointers, hreached]
    exact hb
  · cases hpl.symm.trans hpl'
    exact (hu.moved hum hc hd hplace).evolves he

/-- What the lvalues of a statement and its borrowed parameters meet in the memory before it. -/
structure Calm (I : Interp T P B K π E) (F : Frame T P B) (uses : Set (ℕ × ℕ))
    (s : Forwarding T P) (k : ℕ) (m : B → K) (lvs : List (LValue P × ValUsage))
    (bs : List (LValue P)) : Prop where
  operand {lv : LValue P} {u : ValUsage} (h : (lv, u) ∈ lvs) : Undisturbed I F uses s k m lv u
  borrowed {lv : LValue P} (h : lv ∈ bs) : Undisturbed I F uses s k m lv .borrow ∧
    ¬ Pending uses F s k (F.base lv.root)

section Visits

variable [DecidableEq B]

/-- The original block reads what the rewritten one reads, operand by operand. -/
theorem replacer_simulates [DecidableEq P] {lvs : List (LValue P × ValUsage)} {bs : List (LValue P)}
    (hk : s.statements.length = k)
    (hidx : ∀ lv ∈ lvs.map Prod.fst ++ bs, ∀ l ∈ lv.indexLocals, F.lvalueIsCopy (.newLocal l) = true)
    (htyped : ∀ lv ∈ lvs.map Prod.fst ++ bs, (F.lvalueType lv).isSome = true)
    (hinv : ∀ lv u, (lv, u) ∈ lvs → ∀ n i src, s.Recorded n i src → invalidates n src lv u = false)
    (hcalm : Calm I F uses s k m lvs bs) :
    (replacer F.lvalueIsCopy).Simulates (I.operands F)
      (fun s' t t' => s'.Wf F ∧ Evolves s s' ∧ (∀ b, t b ≤ m b) ∧ Tracks I F uses s' k t t')
      (fun s' => s'.Wf F → s'.LeadsTo uses) lvs bs where
  back lv u h hs := (evolves_applyReplacements hs lv u).leadsTo (h (hs.applyReplacements lv u))
  backBorrow _ h := h
  lvalue {s₁ t t₁ t' lv u x} hlv hQ hfut he := by
    obtain ⟨hs₁, hev, hle, htr⟩ := hQ
    have hmem : lv ∈ lvs.map Prod.fst ++ bs :=
      List.mem_append_left _ (List.mem_map.mpr ⟨(lv, u), hlv, rfl⟩)
    obtain ⟨⟨pl, hpl⟩, hle₁⟩ := Interp.operand_place he
    have hrec {n i : ℕ} {src : LValue P} (hr : s₁.Recorded n i src) : s.Recorded n i src := by
      refine ⟨hev.records hr.1, ?_⟩
      rw [← hr.2, source, source, hev.statements]
    obtain ⟨t₁', he', htr'⟩ := htr.operand hs₁ (by rw [hev.statements, hk])
      (hfut (hs₁.applyReplacements lv u)) (hidx lv hmem) (htyped lv hmem)
      (fun hu n i src hr hn => invalidates_move (hu ▸ hinv lv u hlv n i src (hrec hr)) hn)
      (fun hu n i src hr => invalidates_borrow (hu ▸ hinv lv u hlv n i src (hrec hr)))
      ((hcalm.operand hlv).later hev hle hpl) he
    exact ⟨t₁', he', hs₁.applyReplacements lv u, hev.trans (evolves_applyReplacements hs₁ lv u),
      fun b => (hle₁ b).trans (hle b), htr'⟩
  paramBorrow {s₁ t t₁ t' lv x} hlv hQ _ he := by
    obtain ⟨hs₁, hev, hle, htr⟩ := hQ
    have hmem : lv ∈ lvs.map Prod.fst ++ bs := List.mem_append_right _ hlv
    obtain ⟨pl, hpl, hx, rfl⟩ := Interp.operand_borrow_eq_some.mp he
    obtain ⟨hu, hroot⟩ := hcalm.borrowed hlv
    obtain ⟨hpl', -⟩ := htr.place (hidx lv hmem) (fun hp => hroot (hp.evolves hev))
      (fun b => (hu.later hev hle hpl).reached) hpl
    exact ⟨t', Interp.operand_borrow_eq_some.mpr ⟨pl, hpl', hx, rfl⟩, hs₁, hev, hle, htr⟩

end Visits

namespace Forwarding

/-- A record that will be used and whose assignment will be deleted does not go away before. -/
theorem Live.kept (hs : s.Wf F) (he : Shrinks s s') (hf : s'.LeadsTo uses)
    (hl : s.Live uses k n i src) (hn : F.lvalueIsCopy (.newLocal n) = false) :
    s'.Live uses k n i src := by
  obtain ⟨hr, j, hj, hu⟩ := hl
  rcases hf.rest hu with hx | ⟨⟨n', hn'⟩ | hlt, -⟩
  · exact absurd (he.replaced ▸ hx) (hs.unlogged hr.1 hn j)
  · have hnn := hs.injective hr.1 (he.records hn')
    subst hnn
    exact ⟨⟨hn', (he.source i).trans hr.2⟩, j, hj, hu⟩
  · exact absurd (hs.assigns hr).lt (Nat.not_lt.mpr (he.statements ▸ hlt))

/-- A use of a record whose assignment will be deleted is not in the statement just visited. -/
theorem Live.next (hs : s.Wf F) (hf : s'.LeadsTo uses) (hrep : s'.replaced = s.replaced)
    (hlen : s'.statements.length = k + 1) (hl : s.Live uses k n i src)
    (hn : F.lvalueIsCopy (.newLocal n) = false) : s.Live uses (k + 1) n i src := by
  obtain ⟨hr, j, hj, hu⟩ := hl
  rcases hf.rest hu with hx | ⟨-, hlt⟩
  · exact absurd (hrep ▸ hx) (hs.unlogged hr.1 hn j)
  · exact ⟨hr, j, hlen ▸ hlt, hu⟩

end Forwarding

namespace Tracks

theorem shrink (h : Tracks I F uses s k m m') (hs : s.Wf F) (he : Shrinks s s')
    (hf : s'.LeadsTo uses) : Tracks I F uses s' k m m' :=
  h.weaken (fun _ _ _ hl => hl.evolves he.evolves) fun _ _ _ hl hn => hl.kept hs he hf hn

theorem next (h : Tracks I F uses s k m m') (hs : s.Wf F) (hf : s'.LeadsTo uses)
    (hrep : s'.replaced = s.replaced) (hlen : s'.statements.length = k + 1) :
    Tracks I F uses s (k + 1) m m' :=
  h.weaken (fun _ _ _ hl => hl.mono (Nat.le_succ k)) fun _ _ _ hl hn => hl.next hs hf hrep hlen hn

theorem push (h : Tracks I F uses s k m m') (hs : s.Wf F) (st : Statement T P (LValue P)) :
    Tracks I F uses (s.push st) k m m' :=
  h.weaken (fun _ _ _ hl => ⟨hs.recorded_push.mp hl.1, hl.2⟩)
    fun _ _ _ hl _ => ⟨hs.recorded_push.mpr hl.1, hl.2⟩

/-- A new record whose source holds the value of its local, if it will be used. -/
theorem insert {d : ℕ} (h : Tracks I F uses s k m m') (hd : s.localAssignments d = none)
    (hsrc : s.source i = some src)
    (hnew : (∃ j, k ≤ j ∧ (i, j) ∈ uses) → ∃ p, I.place F m' src = some ⟨F.base src.root, p⟩ ∧
      m (F.base (.local_ d)) ≤ Contents.get p (m' (F.base src.root)) ∧
      (F.lvalueIsCopy (.newLocal d) = false →
        m (F.base src.root) ≤ Contents.put p ⊥ (m' (F.base src.root)))) :
    Tracks I F uses (s.insert d i) k m m' where
  le {b} hb := by
    apply h.le
    rintro ⟨n, i', src', hl, hn, he⟩
    refine hb ⟨n, i', src', ⟨⟨?_, hl.1.2⟩, hl.2⟩, hn, he⟩
    rw [insert_of_ne]
    · exact hl.1.1
    · rintro rfl
      rw [hl.1.1] at hd
      cases hd
  source {n i' src'} hl := by
    by_cases hn : n = d
    · subst hn
      have hi := Option.some.inj (hl.1.1.symm.trans (insert_self hd))
      subst hi
      have hs := Option.some.inj (hl.1.2.symm.trans hsrc)
      subst hs
      exact hnew hl.2
    · exact h.source ⟨hl.1.of_insert hn, hl.2⟩

end Tracks

namespace Tracks

/-- Drop glue and inline assembly do the same in both memories. -/
theorem action {α : Type} {x : Action B K α} {a : α} (h : Tracks I F uses s k m m') (hs : s.Wf F)
    (ht : ∀ b ∈ x.touched m, ¬ Pending uses F s k b) (hw : ∀ b ∈ x.written m, Spares uses F s k b)
    (he : x.run m = some (a, m₁)) :
    ∃ m₁', x.run m' = some (a, m₁') ∧ Tracks I F uses s k m₁ m₁' := by
  obtain ⟨m₁', he', hwritten, hle⟩ := x.mono he fun b hb => h.le (ht b hb)
  refine ⟨m₁', he', h.change hs fun b => ?_⟩
  by_cases hb : b ∈ x.written m
  · exact .inr ⟨hw b hb, hle b hb⟩
  · exact .inl ⟨x.frame he hb, x.frame he' (hwritten ▸ hb)⟩

end Tracks

section Steps

variable [DecidableEq B]

/-- The statement `k` leaves alone what the records depend on that are used from there on: it does not
write there, and drop glue and inline assembly do not change it either. -/
structure CalmStep (I : Interp T P B K π E) (F : Frame T P B) (uses : Set (ℕ × ℕ))
    (s : Forwarding T P) (k : ℕ) (m : B → K) (st : Statement T P (LValue P))
    (ev : Event T P B K π E) : Prop where
  calm : Calm I F uses s k m st.lvalues st.paramBorrows
  written {pl : Place B π} (h : pl ∈ ev.places) : Spares uses F s (k + 1) pl.base
  touched {b : B} (h : b ∈ I.touched m st ev) : ¬ Pending uses F s k b
  changed {b : B} (h : b ∈ I.changed m st ev) : Spares uses F s (k + 1) b

namespace Tracks

theorem storeAll {pls : List (Place B π)} {vs : List K} (h : Tracks I F uses s k m m') (hs : s.Wf F)
    (hp : ∀ pl ∈ pls, Spares uses F s k pl.base) (he : Interp.storeAll m pls vs = some m₁) :
    ∃ m₁', Interp.storeAll m' pls vs = some m₁' ∧ Tracks I F uses s k m₁ m₁' := by
  induction pls generalizing m m' vs with
  | nil =>
    cases vs with
    | nil =>
      cases he
      exact ⟨m', rfl, h⟩
    | cons v vs => cases he
  | cons pl pls ih =>
    cases vs with
    | nil => cases he
    | cons v vs =>
      exact ih (h.store hs (hp pl List.mem_cons_self)) (fun pl hpl => hp pl (List.mem_cons_of_mem _ hpl))
        he

end Tracks

section Kept

variable {st : Statement T P (LValue P)} {ev : Event T P B K π E} {fl fl₁ : ℕ → Bool}

/-- The inputs of `asm!` have the same values in both memories, and the outputs stay. -/
theorem asmParam_simulates {lvs : List (LValue P × ValUsage)} {bs : List (LValue P)}
    {Q : Forwarding T P → (B → K) → (B → K) → Prop} {Fut : Forwarding T P → Prop}
    (hv : (replacer F.lvalueIsCopy).Simulates (I.operands F) Q Fut lvs bs)
    {p : AsmParam P (LValue P) (LValue P)} {x : AsmParam P K Unit}
    (hl : p.lvalues ⊆ lvs) (hb : p.borrows ⊆ bs) (hQ : Q s m m')
    (hw : ∀ lv ∈ Interp.asmOutput p, ∀ s m m', Q s m m' →
      applyReplacements F.lvalueIsCopy s lv .write = (lv, s))
    (hfut : Fut (Id.run (p.visit (replacer F.lvalueIsCopy) s)).2)
    (he : I.asmInput F m p = some x) :
    I.asmInput F m' (Id.run (p.visit (replacer F.lvalueIsCopy) s)).1 = some x ∧
      Interp.asmOutput (Id.run (p.visit (replacer F.lvalueIsCopy) s)).1 = Interp.asmOutput p ∧
      Q (Id.run (p.visit (replacer F.lvalueIsCopy) s)).2 m m' := by
  cases p with
  | const c => exact ⟨he, rfl, hQ⟩
  | sym p => exact ⟨he, rfl, hQ⟩
  | reg dir spec input output =>
    cases input with
    | none =>
      cases output with
      | none => exact ⟨he, rfl, hQ⟩
      | some lv =>
        have hlv := hw lv rfl s m m' hQ
        have hvis : Id.run ((AsmParam.reg (P := P) dir spec none (some lv)).visit
            (replacer F.lvalueIsCopy) s) = (.reg dir spec none (some (applyReplacements F.lvalueIsCopy s lv .write).1),
              (applyReplacements F.lvalueIsCopy s lv .write).2) := rfl
        rw [hvis, hlv]
        exact ⟨he, rfl, hQ⟩
    | some p =>
      simp only [Interp.asmInput, bind, pure, Option.bind_eq_some_iff, Option.some.injEq] at he
      obtain ⟨⟨y, m₁⟩, hy, rfl⟩ := he
      obtain rfl := Interp.visitParam_read hy
      have hl' : p.lvalues .read ⊆ lvs := fun z hz => hl (List.mem_append_left _ hz)
      have hfut' : Fut (Id.run (p.visit (replacer F.lvalueIsCopy) .read s)).2 := by
        cases output with
        | none => exact hfut
        | some lv => exact hv.back lv .write hfut
      obtain ⟨m₁', hy', hQ'⟩ := hv.param hl' hb hQ hfut' hy
      obtain rfl := Interp.visitParam_read hy'
      cases output with
      | none =>
        refine ⟨?_, rfl, hQ'⟩
        change ((Id.run (p.visit (replacer F.lvalueIsCopy) .read s)).1.visit (I.operands F) .read
          m₁').bind _ = _
        rw [hy']
        rfl
      | some lv =>
        have hlv := hw lv rfl _ _ _ hQ'
        have hvis : Id.run ((AsmParam.reg dir spec (some p) (some lv)).visit (replacer F.lvalueIsCopy)
            s) = (.reg dir spec (some (Id.run (p.visit (replacer F.lvalueIsCopy) .read s)).1)
              (some (applyReplacements F.lvalueIsCopy
                (Id.run (p.visit (replacer F.lvalueIsCopy) .read s)).2 lv .write).1),
              (applyReplacements F.lvalueIsCopy
                (Id.run (p.visit (replacer F.lvalueIsCopy) .read s)).2 lv .write).2) := rfl
        rw [hvis, hlv]
        refine ⟨?_, rfl, hQ'⟩
        change ((Id.run (p.visit (replacer F.lvalueIsCopy) .read s)).1.visit (I.operands F) .read
          m₁').bind _ = _
        rw [hy']
        rfl

theorem asmParams_simulates {lvs : List (LValue P × ValUsage)} {bs : List (LValue P)}
    {Q : Forwarding T P → (B → K) → (B → K) → Prop} {Fut : Forwarding T P → Prop}
    (hv : (replacer F.lvalueIsCopy).Simulates (I.operands F) Q Fut lvs bs)
    {ps : List (AsmParam P (LValue P) (LValue P))} {xs : List (AsmParam P K Unit)}
    (hl : ps.flatMap AsmParam.lvalues ⊆ lvs) (hb : ps.flatMap AsmParam.borrows ⊆ bs) (hQ : Q s m m')
    (hw : ∀ p ∈ ps, ∀ lv ∈ Interp.asmOutput p, ∀ s m m', Q s m m' →
      applyReplacements F.lvalueIsCopy s lv .write = (lv, s))
    (hfut : Fut (Id.run (visitAsmParams (replacer F.lvalueIsCopy) s ps)).2)
    (he : ps.mapM (I.asmInput F m) = some xs) :
    (Id.run (visitAsmParams (replacer F.lvalueIsCopy) s ps)).1.mapM (I.asmInput F m') = some xs ∧
      (Id.run (visitAsmParams (replacer F.lvalueIsCopy) s ps)).1.filterMap Interp.asmOutput =
        ps.filterMap Interp.asmOutput ∧
      Q (Id.run (visitAsmParams (replacer F.lvalueIsCopy) s ps)).2 m m' := by
  induction ps generalizing s xs with
  | nil => exact ⟨he, rfl, hQ⟩
  | cons p ps ih =>
    simp only [List.mapM_cons, bind, pure, Option.bind_eq_some_iff, Option.some.injEq] at he
    obtain ⟨y, hy, ys, hys, rfl⟩ := he
    rw [List.flatMap_cons, List.append_subset] at hl hb
    obtain ⟨hy', hout, hQ'⟩ := asmParam_simulates hv hl.1 hb.1 hQ (hw p List.mem_cons_self)
      (hv.backAsmParams ps hfut) hy
    obtain ⟨hys', houts, hQ''⟩ := ih hl.2 hb.2 hQ' (fun p hp => hw p (List.mem_cons_of_mem _ hp)) hfut
      hys
    have hvis : Id.run (visitAsmParams (replacer F.lvalueIsCopy) s (p :: ps)) =
        ((Id.run (p.visit (replacer F.lvalueIsCopy) s)).1 ::
          (Id.run (visitAsmParams (replacer F.lvalueIsCopy)
            (Id.run (p.visit (replacer F.lvalueIsCopy) s)).2 ps)).1,
          (Id.run (visitAsmParams (replacer F.lvalueIsCopy)
            (Id.run (p.visit (replacer F.lvalueIsCopy) s)).2 ps)).2) := rfl
    rw [hvis]
    refine ⟨?_, ?_, hQ''⟩
    · simp only [List.mapM_cons, bind, pure, Option.bind_eq_some_iff, Option.some.injEq]
      exact ⟨y, hy', ys, hys', rfl⟩
    · simp only [List.filterMap_cons, hout, houts]

variable [DecidableEq P]

/-- The visitor of a statement simulates the original one. -/
theorem visitor_simulates (hk : s.statements.length = k) (ht : st.WellTyped F)
    (hcalm : Calm I F uses (s.checkAll st.lvalues) k m st.lvalues st.paramBorrows) :
    (replacer F.lvalueIsCopy).Simulates (I.operands F)
      (fun s' t t' => s'.Wf F ∧ Evolves (s.checkAll st.lvalues) s' ∧ (∀ b, t b ≤ m b) ∧
        Tracks I F uses s' k t t')
      (fun s' => s'.Wf F → s'.LeadsTo uses) st.lvalues st.paramBorrows :=
  replacer_simulates (by rw [(shrinks_checkAll s st.lvalues).statements, hk])
    (fun _ h _ => ht.index h) (fun _ => ht.typed)
    (fun _ _ h _ _ _ hr => invalidates_of_checkAll hr h) hcalm

omit [DecidableEq B] in
/-- What a statement writes to is at the same place in both memories. -/
theorem Tracks.write_place {lvs : List (LValue P × ValUsage)} {bs : List (LValue P)}
    (h : Tracks I F uses s' k m₁ m₁') (hs : s.Wf F)
    (hidx : ∀ l ∈ lv.indexLocals, F.lvalueIsCopy (.newLocal l) = true)
    (hcalm : Calm I F uses (s.checkAll lvs) k m lvs bs) (he : Evolves (s.checkAll lvs) s')
    (hm : ∀ b, m₁ b ≤ m b) (hlv : (lv, .write) ∈ lvs) (hpl : I.place F m₁ lv = some pl) :
    I.place F m₁' lv = some pl := by
  refine (h.place hidx (not_pending_of_none fun n hn => ?_)
    (fun b => ((hcalm.operand hlv).later he hm hpl).reached) hpl).1
  cases hr : s'.localAssignments n with
  | none => rfl
  | some i => exact absurd ((he.records hr).symm.trans (checkAll_write hs hlv hn)) (by simp)

theorem step_assign {dst : LValue P} {src : RValue T P (LValue P)} (hst : st = .assign dst src)
    (hs : s.Wf F) (hk : s.statements.length = k) (ht : st.WellTyped F)
    (hf : (s.statement F.lvalueIsCopy st).LeadsTo uses)
    (h : Tracks I F uses (s.checkAll st.lvalues) k m m')
    (hcalm : CalmStep I F uses (s.checkAll st.lvalues) k m st ev)
    (he : I.step F ⟨m, fl⟩ st = some (ev, ⟨m₁, fl₁⟩)) :
    ∃ m₁', I.step F ⟨m', fl⟩ (s.visited F.lvalueIsCopy st).1 = some (ev, ⟨m₁', fl₁⟩) ∧
      Tracks I F uses (s.visited F.lvalueIsCopy st).2 (k + 1) m₁ m₁' := by
  have hs₀ := hs.shrink (shrinks_checkAll s st.lvalues)
  have hv := hs.visited st
  have hvis := visited_assign hs hst
  have hfut := hf.visited hs ht
  have hlvs : src.lvalues ⊆ st.lvalues := by
    rw [hst]
    exact List.subset_append_left _ _
  have hbs : src.paramBorrows ⊆ st.paramBorrows := by
    rw [hst]
    exact List.Subset.refl _
  have hdst : (dst, .write) ∈ st.lvalues := by simp [hst, Statement.lvalues]
  rw [hvis] at hv hfut ⊢
  rw [hst] at he
  simp only [Interp.step, bind, pure, Option.bind_eq_some_iff, Option.some.injEq] at he
  obtain ⟨⟨rv, mr⟩, hrv, v, hval, pl, hpl, he⟩ := he
  obtain ⟨mr', hrv', -, hev, hle, htr⟩ := (visitor_simulates hk ht hcalm.calm).rvalue hlvs hbs
    ⟨hs₀, Evolves.refl _, fun b => le_rfl, h⟩ (fun _ => hfut) hrv
  have hpl' := htr.write_place hs (ht.visited hdst) hcalm.calm hev hle hdst hpl
  simp only [Prod.mk.injEq, State.mk.injEq] at he
  obtain ⟨rfl, rfl, rfl⟩ := he
  refine ⟨store mr' pl v, ?_, ?_⟩
  · simp only [Interp.step, bind, pure, Option.bind_eq_some_iff, Option.some.injEq]
    exact ⟨(rv, mr'), hrv', v, hval, pl, hpl', rfl⟩
  · have hsp := (hcalm.written List.mem_cons_self).evolves hev
    have hnext : Tracks I F uses _ (k + 1) mr mr' := htr.next hv.1 hf
      ((statement_replaced hs ht).trans (by rw [hvis])) ((statement_length hs ht).trans (by rw [hk]))
    exact hnext.store hv.1 hsp

theorem step_drop {kind : DropKind} {slot : LValue P} {flagIdx : Option ℕ}
    (hst : st = .drop kind slot flagIdx)
    (hs : s.Wf F) (hk : s.statements.length = k) (ht : st.WellTyped F)
    (hf : (s.statement F.lvalueIsCopy st).LeadsTo uses)
    (h : Tracks I F uses (s.checkAll st.lvalues) k m m')
    (hcalm : CalmStep I F uses (s.checkAll st.lvalues) k m st ev)
    (he : I.step F ⟨m, fl⟩ st = some (ev, ⟨m₁, fl₁⟩)) :
    ∃ m₁', I.step F ⟨m', fl⟩ (s.visited F.lvalueIsCopy st).1 = some (ev, ⟨m₁', fl₁⟩) ∧
      Tracks I F uses (s.visited F.lvalueIsCopy st).2 (k + 1) m₁ m₁' := by
  have hs₀ := hs.shrink (shrinks_checkAll s st.lvalues)
  have hslot : (slot, .write) ∈ st.lvalues := by simp [hst, Statement.lvalues]
  have hvis : s.visited F.lvalueIsCopy st = (st, s.checkAll st.lvalues) := by
    have hw := write_visited hs hslot (Evolves.refl _)
    have hvis : s.visited F.lvalueIsCopy st = (.drop kind
        (applyReplacements F.lvalueIsCopy (s.checkAll st.lvalues) slot .write).1 flagIdx,
        (applyReplacements F.lvalueIsCopy (s.checkAll st.lvalues) slot .write).2) := by
      conv_lhs => rw [visited, hst]
      rw [hst]
      rfl
    rw [hvis, hw, ← hst]
  have hnext : Tracks I F uses (s.checkAll st.lvalues) (k + 1) m m' := h.next hs₀ hf
    ((statement_replaced hs ht).trans (by rw [hvis])) ((statement_length hs ht).trans (by rw [hk]))
  rw [hvis]
  rw [hst] at he ⊢
  rw [hst] at hcalm hnext hs₀
  simp only [Interp.step] at he ⊢
  by_cases hflag : flagIdx.elim true fl = true
  · rw [if_pos hflag] at he ⊢
    simp only [bind, pure, Option.bind_eq_some_iff, Option.some.injEq] at he ⊢
    obtain ⟨pl, hpl, ⟨e, mr⟩, hrun, he⟩ := he
    simp only [Prod.mk.injEq, State.mk.injEq] at he
    obtain ⟨rfl, rfl, rfl⟩ := he
    have hpl' := h.write_place hs (ht.visited hslot) (hst ▸ hcalm.calm) (Evolves.refl _)
      (fun b => le_rfl) hslot hpl
    have hsp := hcalm.written List.mem_cons_self
    obtain ⟨mr', hrun', htr⟩ := hnext.action hs₀
      (fun b hb hp => hcalm.touched hb (by
        obtain ⟨n, i, src, hl, hn, hb⟩ := hp
        exact ⟨n, i, src, hl.mono (Nat.le_succ k), hn, hb⟩))
      (fun b hb => hcalm.changed hb) hrun
    exact ⟨vacate mr' pl, ⟨pl, hpl', ⟨e, mr'⟩, hrun', rfl⟩, htr.store hs₀ hsp⟩
  · rw [if_neg hflag] at he ⊢
    simp only [pure, Option.some.injEq, Prod.mk.injEq, State.mk.injEq] at he
    obtain ⟨rfl, rfl, rfl⟩ := he
    exact ⟨m', rfl, hnext⟩

theorem step_asm {tpl : Hir.RcString} {outputs inputs : List (Hir.RcString × LValue P)}
    {clobbers flags : List Hir.RcString} (hst : st = .asm tpl outputs inputs clobbers flags)
    (hs : s.Wf F) (hk : s.statements.length = k) (ht : st.WellTyped F)
    (hf : (s.statement F.lvalueIsCopy st).LeadsTo uses)
    (h : Tracks I F uses (s.checkAll st.lvalues) k m m')
    (hcalm : CalmStep I F uses (s.checkAll st.lvalues) k m st ev)
    (he : I.step F ⟨m, fl⟩ st = some (ev, ⟨m₁, fl₁⟩)) :
    ∃ m₁', I.step F ⟨m', fl⟩ (s.visited F.lvalueIsCopy st).1 = some (ev, ⟨m₁', fl₁⟩) ∧
      Tracks I F uses (s.visited F.lvalueIsCopy st).2 (k + 1) m₁ m₁' := by
  have hs₀ := hs.shrink (shrinks_checkAll s st.lvalues)
  have hlvs : inputs.map (fun p => (p.2, ValUsage.read)) ⊆ st.lvalues := by
    rw [hst]
    exact List.subset_append_left _ _
  have hout : ∀ o ∈ outputs, (o.2, ValUsage.write) ∈ st.lvalues := by
    intro o ho
    rw [hst]
    exact List.mem_append_right _ (List.mem_map.mpr ⟨o, ho, rfl⟩)
  have hins := visitNamed_preserves (replacer_preserves (s.checkAll st.lvalues)
    (inputs.map fun x => (x.2, .read))) ⟨hs₀, Evolves.refl _⟩
  have hvis : s.visited F.lvalueIsCopy st = (.asm tpl outputs (Id.run (visitNamed
      (replacer F.lvalueIsCopy) .read (s.checkAll st.lvalues) inputs)).1 clobbers flags,
      (Id.run (visitNamed (replacer F.lvalueIsCopy) .read (s.checkAll st.lvalues) inputs)).2) := by
    have hno : ∀ o ∈ outputs, ∀ n, o.2.root = .local_ n → (Id.run (visitNamed
        (replacer F.lvalueIsCopy) .read (s.checkAll st.lvalues) inputs)).2.localAssignments n = none := by
      intro o ho n hn
      cases hr : (Id.run (visitNamed (replacer F.lvalueIsCopy) .read (s.checkAll st.lvalues)
          inputs)).2.localAssignments n with
      | none => rfl
      | some i =>
        exact absurd ((hins.2.records hr).symm.trans (checkAll_write hs (hout o ho) hn)) (by simp)
    have hw : Id.run (visitNamed (replacer F.lvalueIsCopy) .write (Id.run (visitNamed
        (replacer F.lvalueIsCopy) .read (s.checkAll st.lvalues) inputs)).2 outputs) =
        (outputs, (Id.run (visitNamed
          (replacer F.lvalueIsCopy) .read (s.checkAll st.lvalues) inputs)).2) := visitNamed_write hno
    have hvis : s.visited F.lvalueIsCopy st = (.asm tpl (Id.run (visitNamed (replacer F.lvalueIsCopy)
        .write (Id.run (visitNamed (replacer F.lvalueIsCopy) .read (s.checkAll st.lvalues)
          inputs)).2 outputs)).1 (Id.run (visitNamed
        (replacer F.lvalueIsCopy) .read (s.checkAll st.lvalues) inputs)).1 clobbers flags,
        (Id.run (visitNamed (replacer F.lvalueIsCopy) .write (Id.run (visitNamed
          (replacer F.lvalueIsCopy) .read (s.checkAll st.lvalues) inputs)).2 outputs)).2) := by
      conv_lhs => rw [visited, hst]
      rw [hst]
      rfl
    rw [hvis, hw]
  have hfut := hf.visited hs ht
  rw [hvis] at hfut ⊢
  rw [hst] at he
  simp only [Interp.step, bind, pure, Option.bind_eq_some_iff, Option.some.injEq] at he
  obtain ⟨⟨ins, mr⟩, hread, pls, hpls, ⟨⟨e, vs⟩, ma⟩, hrun, mo, hstore, he⟩ := he
  simp only [Prod.mk.injEq, State.mk.injEq] at he
  obtain ⟨rfl, rfl, rfl⟩ := he
  obtain ⟨mr', hread', -, hev, hle, htr⟩ := (visitor_simulates hk ht hcalm.calm).named hlvs
    ⟨hs₀, Evolves.refl _, fun b => le_rfl, h⟩ (fun _ => hfut) hread
  obtain rfl := Interp.visitNamed_read hread
  have hpls' := mapM_eq_some (fun o ho pl hpl =>
    htr.write_place hs (ht.visited (hout o ho)) hcalm.calm hev hle (hout o ho) hpl) hpls
  have hnext := htr.next hins.1 hf
    ((statement_replaced hs ht).trans (by rw [hvis])) ((statement_length hs ht).trans (by rw [hk]))
  have htouched : ∀ b ∈ (I.asm tpl ins (outputs.map Prod.fst) clobbers flags).touched mr,
      ¬ Pending uses F (s.checkAll st.lvalues) k b := fun b hb =>
    hcalm.touched (by rw [hst]; exact hb)
  have hchanged : ∀ b ∈ (I.asm tpl ins (outputs.map Prod.fst) clobbers flags).written mr,
      Spares uses F (s.checkAll st.lvalues) (k + 1) b := fun b hb =>
    hcalm.changed (by rw [hst]; exact hb)
  obtain ⟨ma', hrun', htr'⟩ := hnext.action hins.1
    (fun b hb hp => htouched b hb ((hp.evolves hev).mono (Nat.le_succ k)))
    (fun b hb => (hchanged b hb).evolves hev) hrun
  have hwritten : ∀ pl ∈ pls, Spares uses F (s.checkAll st.lvalues) (k + 1) pl.base := by
    intro pl hpl
    refine hcalm.written ?_
    rw [Event.places, Interp.storeAll_zip hstore]
    exact hpl
  obtain ⟨mo', hstore', htr''⟩ := htr'.storeAll hins.1 (fun pl hpl => (hwritten pl hpl).evolves hev)
    hstore
  refine ⟨mo', ?_, htr''⟩
  simp only [Interp.step, bind, pure, Option.bind_eq_some_iff, Option.some.injEq]
  exact ⟨(ins, mr'), hread', pls, hpls', ((e, vs), ma'), hrun', mo', hstore', rfl⟩

theorem step_asm2 {options lines : List Hir.RcString}
    {params : List (AsmParam P (LValue P) (LValue P))} (hst : st = .asm2 options lines params)
    (hs : s.Wf F) (hk : s.statements.length = k) (ht : st.WellTyped F)
    (hf : (s.statement F.lvalueIsCopy st).LeadsTo uses)
    (h : Tracks I F uses (s.checkAll st.lvalues) k m m')
    (hcalm : CalmStep I F uses (s.checkAll st.lvalues) k m st ev)
    (he : I.step F ⟨m, fl⟩ st = some (ev, ⟨m₁, fl₁⟩)) :
    ∃ m₁', I.step F ⟨m', fl⟩ (s.visited F.lvalueIsCopy st).1 = some (ev, ⟨m₁', fl₁⟩) ∧
      Tracks I F uses (s.visited F.lvalueIsCopy st).2 (k + 1) m₁ m₁' := by
  have hs₀ := hs.shrink (shrinks_checkAll s st.lvalues)
  have hlvs : params.flatMap AsmParam.lvalues ⊆ st.lvalues := by
    rw [hst]
    exact List.Subset.refl _
  have hbs : params.flatMap AsmParam.borrows ⊆ st.paramBorrows := by
    rw [hst]
    exact List.Subset.refl _
  have hout : ∀ p ∈ params, ∀ lv ∈ Interp.asmOutput p, (lv, ValUsage.write) ∈ st.lvalues := by
    intro p hp lv hlv
    refine hlvs (List.mem_flatMap.mpr ⟨p, hp, ?_⟩)
    cases p with
    | const c => cases hlv
    | sym p => cases hlv
    | reg dir spec input output =>
      cases hlv
      exact List.mem_append_right _ List.mem_cons_self
  have hvis : s.visited F.lvalueIsCopy st = (.asm2 options lines (Id.run (visitAsmParams
      (replacer F.lvalueIsCopy) (s.checkAll st.lvalues) params)).1,
      (Id.run (visitAsmParams (replacer F.lvalueIsCopy) (s.checkAll st.lvalues) params)).2) := by
    conv_lhs => rw [visited, hst]
    rw [hst]
    rfl
  have hfut := hf.visited hs ht
  have hv := hs.visited st
  rw [hvis] at hfut hv ⊢
  rw [hst] at he
  simp only [Interp.step, bind, pure, Option.bind_eq_some_iff, Option.some.injEq] at he
  obtain ⟨ins, hread, pls, hpls, ⟨⟨e, vs⟩, ma⟩, hrun, mo, hstore, he⟩ := he
  simp only [Prod.mk.injEq, State.mk.injEq] at he
  obtain ⟨rfl, rfl, rfl⟩ := he
  obtain ⟨hread', houts, -, hev, hle, htr⟩ := asmParams_simulates
    (visitor_simulates hk ht hcalm.calm) hlvs hbs ⟨hs₀, Evolves.refl _, fun b => le_rfl, h⟩
    (fun p hp lv hlv s' _ _ hQ => write_visited hs (hout p hp lv hlv) hQ.2.1) (fun _ => hfut) hread
  have hpls' : (params.filterMap Interp.asmOutput).mapM (I.place F m') = some pls := by
    refine mapM_eq_some (fun lv hlv pl hpl => ?_) hpls
    obtain ⟨p, hp, hplv⟩ := List.mem_filterMap.mp hlv
    exact htr.write_place hs (ht.visited (hout p hp lv hplv)) hcalm.calm hev hle (hout p hp lv hplv) hpl
  have hnext := htr.next hv.1 hf
    ((statement_replaced hs ht).trans (by rw [hvis])) ((statement_length hs ht).trans (by rw [hk]))
  have htouched : ∀ b ∈ (I.asm2 options lines ins).touched m,
      ¬ Pending uses F (s.checkAll st.lvalues) k b := fun b hb =>
    hcalm.touched (by rw [hst]; exact hb)
  have hchanged : ∀ b ∈ (I.asm2 options lines ins).written m,
      Spares uses F (s.checkAll st.lvalues) (k + 1) b := fun b hb =>
    hcalm.changed (by rw [hst]; exact hb)
  obtain ⟨ma', hrun', htr'⟩ := hnext.action hv.1
    (fun b hb hp => htouched b hb ((hp.evolves hev).mono (Nat.le_succ k)))
    (fun b hb => (hchanged b hb).evolves hev) hrun
  have hwritten : ∀ pl ∈ pls, Spares uses F (s.checkAll st.lvalues) (k + 1) pl.base := by
    intro pl hpl
    refine hcalm.written ?_
    rw [Event.places, Interp.storeAll_zip hstore]
    exact hpl
  obtain ⟨mo', hstore', htr''⟩ := htr'.storeAll hv.1 (fun pl hpl => (hwritten pl hpl).evolves hev)
    hstore
  refine ⟨mo', ?_, htr''⟩
  simp only [Interp.step, bind, pure, Option.bind_eq_some_iff, Option.some.injEq, houts]
  exact ⟨ins, hread', pls, hpls', ((e, vs), ma'), hrun', mo', hstore', rfl⟩

/-- One statement, when its assignment is not deleted. -/
theorem step_visited (hs : s.Wf F) (hk : s.statements.length = k) (ht : st.WellTyped F)
    (hf : (s.statement F.lvalueIsCopy st).LeadsTo uses)
    (h : Tracks I F uses (s.checkAll st.lvalues) k m m')
    (hcalm : CalmStep I F uses (s.checkAll st.lvalues) k m st ev)
    (he : I.step F ⟨m, fl⟩ st = some (ev, ⟨m₁, fl₁⟩)) :
    ∃ m₁', I.step F ⟨m', fl⟩ (s.visited F.lvalueIsCopy st).1 = some (ev, ⟨m₁', fl₁⟩) ∧
      Tracks I F uses (s.visited F.lvalueIsCopy st).2 (k + 1) m₁ m₁' := by
  cases hst : st with
  | assign dst src => exact hst ▸ step_assign hst hs hk ht hf h hcalm he
  | asm tpl outputs inputs clobbers flags => exact hst ▸ step_asm hst hs hk ht hf h hcalm he
  | asm2 options lines params => exact hst ▸ step_asm2 hst hs hk ht hf h hcalm he
  | drop kind slot flagIdx => exact hst ▸ step_drop hst hs hk ht hf h hcalm he
  | setDropFlag idx newVal other =>
    subst hst
    have hnext := h.next (hs.shrink (shrinks_checkAll s _)) hf (statement_replaced hs ht)
      ((statement_length hs ht).trans (by rw [hk]))
    cases he
    exact ⟨m', rfl, hnext⟩
  | scopeEnd slots =>
    subst hst
    have hnext := h.next (hs.shrink (shrinks_checkAll s _)) hf (statement_replaced hs ht)
      ((statement_length hs ht).trans (by rw [hk]))
    cases he
    exact ⟨m', rfl, hnext⟩

end Kept

section Removed

variable {d : ℕ}

namespace Tracks

omit [DecidableEq B] in
/-- The original memory may hold less. -/
theorem lower (h : Tracks I F uses s k m m') (hm : ∀ b, m₁ b ≤ m b) : Tracks I F uses s k m₁ m' where
  le hb := (hm _).trans (h.le hb)
  source hl := by
    obtain ⟨p, hp, hle, hv⟩ := h.source hl
    exact ⟨p, hp, (hm _).trans hle, fun hn => (hm _).trans (hv hn)⟩

/-- A record whose assignment the rewritten block leaves out. -/
theorem insertPending (h : Tracks I F uses s k m m') (hd : s.localAssignments d = none)
    (hno : ∀ n i src, s.Recorded n i src → src.root ≠ .local_ d) (hroot : src.root ≠ .local_ d)
    (hsrc : s.source i = some src) (huse : ∃ j, k ≤ j ∧ (i, j) ∈ uses)
    (hcopy : F.lvalueIsCopy (.newLocal d) = false) (hnew : ∃ p,
      I.place F m' src = some ⟨F.base src.root, p⟩ ∧ v ≤ Contents.get p (m' (F.base src.root)) ∧
      m (F.base src.root) ≤ Contents.put p ⊥ (m' (F.base src.root))) :
    Tracks I F uses (s.insert d i) k (Memory.store m ⟨F.base (.local_ d), []⟩ v) m' where
  le {b} hb := by
    by_cases hbd : b = F.base (.local_ d)
    · exact absurd ⟨d, i, src, ⟨⟨insert_self hd, hsrc⟩, huse⟩, hcopy, hbd⟩ hb
    · rw [store_of_ne hbd]
      apply h.le
      rintro ⟨n, i', src', hl, hn, he⟩
      refine hb ⟨n, i', src', ⟨⟨?_, hl.1.2⟩, hl.2⟩, hn, he⟩
      rw [insert_of_ne (fun hnd : n = d => hbd (hnd ▸ he))]
      exact hl.1.1
  source {n i' src'} hl := by
    have hkept {r : Storage P} (hr : r ≠ .local_ d) :
        Memory.store m ⟨F.base (.local_ d), []⟩ v (F.base r) = m (F.base r) :=
      store_of_ne (F.base_ne hr)
    by_cases hn : n = d
    · subst hn
      have hi := Option.some.inj (hl.1.1.symm.trans (insert_self hd))
      subst hi
      have hs := Option.some.inj (hl.1.2.symm.trans hsrc)
      subst hs
      obtain ⟨p, hp, hle, hv⟩ := hnew
      rw [store_whole, hkept hroot]
      exact ⟨p, hp, hle, fun _ => hv⟩
    · have hl' : s.Live uses k n i' src' := ⟨hl.1.of_insert hn, hl.2⟩
      rw [hkept (hno n i' src' hl'.1), hkept (fun h => hn (by cases h; rfl))]
      exact h.source hl'

end Tracks

variable [DecidableEq P] {st : Statement T P (LValue P)} {ev : Event T P B K π E} {fl fl₁ : ℕ → Bool}

/-- The assignment at `k` is one of those that are deleted. -/
def Forwarding.Removed (uses : Set (ℕ × ℕ)) (F : Frame T P B) (s : Forwarding T P) (k : ℕ) : Prop :=
  ∃ n src, s.Assigns k n src ∧ F.lvalueIsCopy (.newLocal n) = false ∧ ∃ j, (k, j) ∈ uses

omit [DecidableEq B] in
theorem Forwarding.Removed.records (hs : s.Wf F) (hk : s.statements.length = k) (ht : st.WellTyped F)
    (hf : (s.statement F.lvalueIsCopy st).LeadsTo uses)
    (h : (s.statement F.lvalueIsCopy st).Removed uses F k) :
    ∃ d lv src, Records F s st d lv src ∧ F.lvalueIsCopy (.newLocal d) = false ∧
      ∃ j, k + 1 ≤ j ∧ (k, j) ∈ uses := by
  obtain ⟨n, src, hassign, hn, j, hj⟩ := h
  have hlen := statement_length hs ht
  have hvlen : (s.visited F.lvalueIsCopy st).2.statements.length = k := by
    rw [(hs.visited st).2.statements, (shrinks_checkAll s st.lvalues).statements, hk]
  have hs' := hs.statement ht
  rcases hf.rest hj with hx | ⟨⟨n', hn'⟩ | hlt, hle⟩
  · rw [statement_replaced hs ht] at hx
    exact absurd ((hs.visited st).1.logged hx) (by simp [hvlen])
  · obtain ⟨src', hsrc'⟩ := hs'.assigned hn'
    obtain ⟨rfl, rfl⟩ := hassign.unique hsrc'
    rcases statement_cases hs ht with he | ⟨d, lv, src, hrec⟩
    · rw [he] at hn'
      obtain ⟨src₁, hsrc₁⟩ := (hs.visited st).1.assigned hn'
      exact absurd hsrc₁.lt (by simp [hvlen])
    · have hd : n' = d := by
        by_contra hne
        have hn₁ : (s.visited F.lvalueIsCopy st).2.localAssignments n' = some k := by
          rw [hrec.after, insert_of_ne hne] at hn'
          exact hn'
        obtain ⟨src₁, hsrc₁⟩ := (hs.visited st).1.assigned hn₁
        exact absurd hsrc₁.lt (by simp [hvlen])
      subst hd
      exact ⟨n', lv, src, hrec, hn, j, by rwa [hlen, hk] at hle, hj⟩
  · rw [hlen, hk] at hlt
    exact absurd hlt (by simp)

/-- A statement whose assignment is deleted: the rewritten block stays where it is. -/
theorem step_removed (hs : s.Wf F) (hk : s.statements.length = k) (ht : st.WellTyped F)
    (hf : (s.statement F.lvalueIsCopy st).LeadsTo uses)
    (h : Tracks I F uses (s.checkAll st.lvalues) k m m')
    (he : I.step F ⟨m, fl⟩ st = some (ev, ⟨m₁, fl₁⟩))
    (hrem : (s.statement F.lvalueIsCopy st).Removed uses F k) :
    fl₁ = fl ∧ Tracks I F uses (s.statement F.lvalueIsCopy st) (k + 1) m₁ m' := by
  obtain ⟨d, lv, src, hrec, hd, huse⟩ := hrem.records hs hk ht hf
  have hs₀ := hs.shrink (shrinks_checkAll s st.lvalues)
  have hv := hs.visited st
  have hfut := hf.visited hs ht
  have hvlen : (s.visited F.lvalueIsCopy st).2.statements.length = k := by
    rw [hv.2.statements, (shrinks_checkAll s st.lvalues).statements, hk]
  have hmem : lv ∈ st.mentioned := by
    rw [hrec.assigns]
    exact List.mem_cons_self
  have htype : F.lvalueType lv = F.lvalueType (.newLocal d) := ht.assign hrec.assigns
  have hcopy : F.lvalueIsCopy lv = false := by
    rw [Frame.lvalueIsCopy, htype]
    exact hd
  -- The original statement moves the value at `pl` into the local.
  rw [hrec.assigns] at he
  simp only [Interp.step, RValue.visit, bind, pure, Option.bind_eq_some_iff, Option.some.injEq] at he
  obtain ⟨⟨rv, mr⟩, ⟨⟨v, mr₀⟩, hop, hrv⟩, v', hval, pl', hpl', he⟩ := he
  cases hrv
  cases hval
  cases hpl'
  simp only [Prod.mk.injEq, State.mk.injEq] at he
  obtain ⟨-, rfl, rfl⟩ := he
  obtain ⟨pl, hpl, hload, rfl⟩ := Interp.operand_move_eq_some.mp hop
  rw [if_neg (by simp [hcopy])]
  obtain ⟨hinit, hget⟩ := load_eq_some.mp hload
  have hlow : ∀ b, vacate m pl b ≤ m b := vacate_le m pl
  have happ := hrec.applied
  have hmain : Tracks I F uses (s.visited F.lvalueIsCopy st).2 k (vacate m pl) m' ∧ ∃ p,
      I.place F m' src = some ⟨F.base src.root, p⟩ ∧ v ≤ Contents.get p (m' (F.base src.root)) ∧
      vacate m pl (F.base src.root) ≤ Contents.put p ⊥ (m' (F.base src.root)) := by
    have hkeep (hT : Tracks I F uses (s.visited F.lvalueIsCopy st).2 k m m') (hsrc : src = lv)
        (hno : ∀ n, lv.root = .local_ n →
          (s.visited F.lvalueIsCopy st).2.localAssignments n = none) :
        Tracks I F uses (s.visited F.lvalueIsCopy st).2 k (vacate m pl) m' ∧ ∃ p,
          I.place F m' src = some ⟨F.base src.root, p⟩ ∧
          v ≤ Contents.get p (m' (F.base src.root)) ∧
          vacate m pl (F.base src.root) ≤ Contents.put p ⊥ (m' (F.base src.root)) := by
      subst hsrc
      have hnd := LValue.hasDeref_eq_false.mp hrec.noDeref
      have hbase : pl.base = F.base src.root := Interp.unwraps_base hnd hpl
      have hplace : I.place F m' src = some pl := by
        have hroot : ¬ Pending uses F (s.visited F.lvalueIsCopy st).2 k (F.base src.root) :=
          not_pending_of_none hno
        have hnil : I.throughPointers F m src = [] := Interp.reached_eq_nil hnd
        exact (hT.place (fun l hl => ht.index hmem hl) hroot
          (fun b hb => absurd (hnil ▸ hb) List.not_mem_nil) hpl).1
      have hle : m (F.base src.root) ≤ m' (F.base src.root) := hT.le (not_pending_of_none hno)
      refine ⟨hT.lower hlow, pl.path, ?_, ?_, ?_⟩
      · rw [← hbase]
        exact hplace
      · rw [← hget, hbase]
        exact Contents.get_mono _ hle
      · rw [← hbase, vacate_self, hbase]
        exact Contents.put_mono _ _ hle
    rcases applyReplacements_cases hs₀ lv .move with ⟨hno, he⟩ | ⟨n, i, src', hroot, hr, hcase⟩
    · rw [happ] at he
      obtain ⟨hsrc, hvis⟩ := Prod.mk.inj he
      rw [hvis] at hkeep ⊢
      exact hkeep h hsrc hno
    · rcases hcase with ⟨hn, he⟩ | ⟨hn, rfl, -, he⟩ | ⟨hn, he⟩
      · -- A Copy local has no parts that are not Copy.
        exfalso
        rw [happ] at he
        have hws : .deref ∉ lv.wrappers := by
          have hnd := LValue.hasDeref_eq_false.mp hrec.noDeref
          rw [(Prod.mk.inj he).1] at hnd
          exact fun h => hnd (List.mem_append_right _ h)
        have hlv : lv = (LValue.newLocal n).cloneWrapped lv.wrappers := by
          rw [LValue.newLocal_cloneWrapped, ← hroot]
        have htyped := ht.typed hmem
        rw [hlv] at htyped hcopy
        rw [Frame.lvalueIsCopy_part hn hws htyped] at hcopy
        cases hcopy
      · rw [happ] at he
        obtain ⟨hsrc, hvis⟩ := Prod.mk.inj he
        subst hsrc
        have hl : (s.checkAll st.lvalues).Live uses k n i src := by
          refine ⟨hr, k, le_rfl, hfut.sub ?_⟩
          rw [hvis]
          refine List.mem_append_right _ (List.mem_singleton.mpr ?_)
          rw [(shrinks_checkAll s st.lvalues).statements, hk]
        obtain ⟨p, hp, hle, hvac⟩ := h.source hl
        have hpl₀ : pl = ⟨F.base (.local_ n), []⟩ := (Option.some.inj hpl).symm
        subst hpl₀
        refine ⟨?_, p, hp, ?_, (hlow _).trans (hvac hn)⟩
        · have hlower := h.lower hlow
          exact {
            le := by
              intro b hb
              by_cases hbn : b = F.base (.local_ n)
              · subst hbn
                rw [vacate_whole]
                exact bot_le
              · apply hlower.le
                rintro ⟨n', i', src', hl', hn', he'⟩
                refine hb ⟨n', i', src', ?_, hn', he'⟩
                have hnn : n' ≠ n := by
                  rintro rfl
                  exact hbn he'
                rw [hvis]
                exact ⟨⟨(erase_of_ne hnn).trans hl'.1.1, hl'.1.2⟩, hl'.2⟩
            source := fun hl' => hlower.source (hl'.evolves hv.2) }
        · rw [← hget]
          exact (Contents.get_nil _).le.trans hle
      · rw [happ] at he
        obtain ⟨hsrc, hvis⟩ := Prod.mk.inj he
        have hT : Tracks I F uses (s.visited F.lvalueIsCopy st).2 k m m' := by
          have hsh : Shrinks (s.checkAll st.lvalues) (s.visited F.lvalueIsCopy st).2 := by
            rw [hvis]
            exact shrinks_erase _ n
          exact h.shrink hs₀ hsh hfut
        refine hkeep hT hsrc fun n' hn' => ?_
        rw [hroot, Storage.local_.injEq] at hn'
        rw [hvis, ← hn', erase_self]
  obtain ⟨hT, hp⟩ := hmain
  refine ⟨rfl, ?_⟩
  have hnext : Tracks I F uses (s.visited F.lvalueIsCopy st).2 (k + 1) (vacate m pl) m' :=
    hT.next hv.1 hf (statement_replaced hs ht) ((statement_length hs ht).trans (by rw [hk]))
  rw [hrec.after, hvlen]
  have hins := hrec.insertable hs
  refine (hnext.push hv.1 _).insertPending hins.notRecorded (fun n i src' hr => hins.noRoot hr)
    hrec.root_ne ?_ huse hd hp
  rw [← hvlen]
  exact hrec.assigns_push.source

end Removed

end Steps

end Mrustc.Mir
