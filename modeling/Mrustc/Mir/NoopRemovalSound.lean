import Mrustc.Mir.Changes
import Mrustc.Mir.NoopRemoval
import Mrustc.Mir.Words

/-! # What removing no-ops keeps

The rewritten block stores the same values in every run that leaves the pointer and what it was made from
alone up to the cast back. Moves copy, as the generated code does.
-/

namespace Mrustc.Mir

open Memory NoopRemoval

variable {T P B K π E : Type} [Contents K π]

/-- What the values of the types are, and what casts and reborrows do to a value of a type. Inline
assembly without operands and clobbers does nothing to memory, and neither does dropping a Copy value. -/
structure Casts (I : Interp T P B K π E) (F : Frame T P B) (isPointer : T → Bool) where
  HasType : T → K → Prop
  FitsPointer : K → Prop
  put_get {p : List π} {v k : K} (hi : Contents.init v = true) (h : Contents.get p k = v) :
    Contents.put p v k = k
  reborrow_back {t : T} {k v u : K} {pl : Place B π} {type : Hir.BorrowType} (hk : HasType t k)
    (hpl : I.asPlace k = some pl) (hv : I.rvalue (.borrow type (I.address pl)) = some v)
    (hu : I.rvalue (.cast v t) = some u) : u = k
  reborrow {t : T} {k v : K} {pl : Place B π} {type : Hir.BorrowType} (hk : HasType t k)
    (hpl : I.asPlace k = some pl) (hv : I.rvalue (.borrow type (I.address pl)) = some v)
    (ht : HasType t v) : v = k
  cast_self {t : T} {k u : K} (hk : HasType t k) (hu : I.rvalue (.cast k t) = some u) : u = k
  pointer_back {t p : T} {k v u : K} (hk : HasType t k) (hfits : FitsPointer k)
    (hp : isPointer p = true) (hv : I.rvalue (.cast k p) = some v) (hu : I.rvalue (.cast v t) = some u) :
    u = k
  asm_nothing {tpl : Hir.RcString} {m m₁ : B → K} {r : E × List K}
    (h : (I.asm tpl [] [] [] []).run m = some (r, m₁)) : m₁ = m
  drop_copy {lv : LValue P} {kind : DropKind} {pl : Place B π} {m m₁ : B → K} {e : E}
    (hc : F.lvalueIsCopy lv = true) (hpl : I.place F.copying m lv = some pl)
    (h : (I.drop kind pl).run m = some (e, m₁)) : m₁ = m

section Conditions

variable (I : Interp T P B K π E) (F : Frame T P B)

/-- A statement between a pointer `dst` made from `src` and the cast back leaves the pointer alone, and
what it does through pointers, by drop glue or by inline assembly leaves alone what `src` is read from.
What `src` reaches through pointers is not written to at all. -/
structure Leaves (m : B → K) (dst src : LValue P) (st : Statement T P (LValue P))
    (ev : Event T P B K π E) : Prop where
  pointer {pl : Place B π} (h : pl ∈ ev.places) : F.base dst.root ≠ pl.base
  aliased {lv : LValue P} {pl : Place B π} (h : (lv, .write) ∈ st.lvalues)
    (hpl : I.place F m lv = some pl) (hd : .deref ∈ lv.wrappers) : pl.base ∉ I.readFrom F m src
  reached {pl : Place B π} (h : pl ∈ ev.places) : pl.base ∉ I.throughPointers F m src
  changed {b : B} (h : b ∈ I.changed m st ev) : b ≠ F.base dst.root ∧ b ∉ I.readFrom F m src

variable [DecidableEq B] [DecidableEq T] [DecidableEq P] {isPointer : T → Bool} (V : Casts I F isPointer)

/-- Every statement up to the one that casts `dst` back leaves the two alone. `curs` is what the pass has
made of the statements. -/
def LeavesUntilCast (dst src : LValue P) :
    State B K → List (Statement T P (LValue P)) → List (Statement T P (LValue P)) → Prop
  | s, st :: sts, cur :: curs => castsBack F.lvalueType dst src cur = false →
      ∀ ev s₁, I.step F s st = some (ev, s₁) →
        Leaves I F s.mem dst src st ev ∧ LeavesUntilCast dst src s₁ sts curs
  | _, _, _ => True

variable {I F}

/-- The values that a statement meets have the types of their lvalues. -/
structure Casts.TypedStep (m : B → K) (st : Statement T P (LValue P)) (ev : Event T P B K π E) :
    Prop where
  loaded {lv : LValue P} {t : T} {pl : Place B π} {v : K} (ht : F.lvalueType lv = some t)
    (hpl : I.place F.copying m lv = some pl) (hv : load m pl = some v) : V.HasType t v
  assigned {dst : LValue P} {src : RValue T P (LValue P)} {pl : Place B π} {rv : RValue T P K} {v : K}
    {t : T} (hst : st = .assign dst src) (hev : ev = .assign pl rv v) (ht : F.lvalueType dst = some t) :
    V.HasType t v

def Casts.TypedRun : State B K → List (Statement T P (LValue P)) → Prop
  | _, [] => True
  | s, st :: sts => ∀ ev s₁, I.step F.copying s st = some (ev, s₁) →
      V.TypedStep s.mem st ev ∧ TypedRun s₁ sts

/-- The pointer made by the statement can be replaced up to the cast back. Where the pass finds one, the
pointer is not part of what it was made from, a value that becomes a pointer fits one, and the statements
in between leave both alone. -/
structure Casts.Undisturbed (s s₁ : State B K) (cur : Statement T P (LValue P))
    (sts curs : List (Statement T P (LValue P))) : Prop where
  apart {dst src : LValue P} (h : pointed isPointer cur = some (dst, src))
    (hr : (replaceCast F.lvalueType dst src curs).isSome = true) :
    F.base dst.root ∉ I.readFrom F.copying s.mem src
  fits {dst src : LValue P} {type : T} {pl : Place B π} {v : K} (h : cur = .assign dst (.cast src type))
    (hp : pointed isPointer cur = some (dst, src))
    (hr : (replaceCast F.lvalueType dst src curs).isSome = true)
    (hpl : I.place F.copying s.mem src = some pl) (hv : load s.mem pl = some v) : V.FitsPointer v
  leaves {dst src : LValue P} (h : pointed isPointer cur = some (dst, src))
    (hr : (replaceCast F.lvalueType dst src curs).isSome = true) :
    LeavesUntilCast I F.copying dst src s₁ sts curs

/-- The run from `s` leaves every pointer alone whose cast back is replaced in the next `n` searches. -/
def Casts.UndisturbedRun :
    ℕ → State B K → List (Statement T P (LValue P)) → List (Statement T P (LValue P)) → Prop
  | n + 1, s, st :: sts, cur :: curs => ∀ ev s₁, I.step F.copying s st = some (ev, s₁) →
      V.Undisturbed s s₁ cur sts curs ∧
        UndisturbedRun n s₁ sts (replaced F.lvalueType isPointer cur curs)
  | _, _, _, _ => True

end Conditions

variable {I : Interp T P B K π E} {F : Frame T P B} {isPointer : T → Bool} {V : Casts I F isPointer}
  {m m' m₁ : B → K} {lv dst src val : LValue P} {pl : Place B π} {v : K} {s s₁ : State B K}
  {st st' cur : Statement T P (LValue P)} {sts curs : List (Statement T P (LValue P))}
  {ev ev' : Event T P B K π E} {evs : List (Event T P B K π E)} {type t : T} {n : ℕ}

/-- The place behind a pointer is the one that its value points to. -/
theorem place_deref (h : I.place F m (lv.cloneWrapped [.deref]) = some pl) :
    ∃ pl' k, I.place F m lv = some pl' ∧ load m pl' = some k ∧ I.asPlace k = some pl := by
  rw [Interp.place, LValue.cloneWrapped, Interp.unwraps_append] at h
  obtain ⟨pl', hpl', h⟩ := Option.bind_eq_some_iff.mp h
  simp only [Interp.unwraps, Interp.unwrap, Option.bind_eq_some_iff, Option.some.injEq] at h
  obtain ⟨pl, ⟨k, hk, hpl⟩, rfl⟩ := h
  exact ⟨pl', k, hpl', hk, hpl⟩

section Assignments

variable [DecidableEq B]

/-- Storing a value where it is changes nothing. -/
theorem store_loaded (V : Casts I F isPointer) (h : load m pl = some v) : store m pl v = m := by
  obtain ⟨hi, hv⟩ := load_eq_some.mp h
  rw [store, V.put_get hi hv, Function.update_eq_self]

end Assignments

section CastBack

variable [DecidableEq B] [DecidableEq T] [DecidableEq P]

/-- Casting what `dst` holds to the type of `src` gives what `src` holds. -/
def Recasts (I : Interp T P B K π E) (F : Frame T P B) (dst src : LValue P) (m : B → K) : Prop :=
  ∃ pl w, I.place F m src = some pl ∧ load m pl = some w ∧
    ∀ t v u, F.lvalueType src = some t → load m ⟨F.base dst.root, []⟩ = some v →
      I.rvalue (.cast v t) = some u → u = w

omit [DecidableEq B] [DecidableEq T] [DecidableEq P] in
theorem Recasts.congr (h : Recasts I F dst src m) (hdst : m (F.base dst.root) = m₁ (F.base dst.root))
    (hsrc : ∀ b ∈ I.readFrom F m src, m b = m₁ b) : Recasts I F dst src m₁ := by
  obtain ⟨pl, w, hpl, hw, hcast⟩ := h
  obtain ⟨hpl', hbase, -⟩ := Interp.place_congr hsrc hpl
  refine ⟨pl, w, hpl', (load_congr hbase).symm.trans hw, fun t v u ht hv => hcast t v u ht ?_⟩
  exact (load_congr hdst).trans hv

omit [DecidableEq T] [DecidableEq P] in
/-- What a pointer was just made from is what casting it back gives. -/
theorem recasts_of_pointed (hp : pointed isPointer st = some (dst, src))
    (htyped : V.TypedStep s.mem st ev) (hapart : F.base dst.root ∉ I.readFrom F.copying s.mem src)
    (hfits : ∀ type pl v, st = .assign dst (.cast src type) → I.place F.copying s.mem src = some pl →
      load s.mem pl = some v → V.FitsPointer v)
    (h : I.step F.copying s st = some (ev, s₁)) : Recasts I F.copying dst src s₁.mem := by
  -- The store into the local keeps what `src` is read from.
  have hkept {pl pl' : Place B π} {w v : K} (hdst : dst.isLocal = true)
      (hpl' : I.place F.copying s.mem src = some pl') (hw : load s.mem pl' = some w)
      (hpl : I.place F.copying s.mem dst = some pl) (hs₁ : s₁ = { s with mem := store s.mem pl v })
      (hcast : ∀ t u, F.lvalueType src = some t → I.rvalue (.cast v t) = some u → u = w) :
      Recasts I F.copying dst src s₁.mem := by
    obtain ⟨n, rfl⟩ := LValue.isLocal_iff.mp hdst
    cases hpl
    subst hs₁
    have hsrc : ∀ b ∈ I.readFrom F.copying s.mem src,
        s.mem b = store (π := π) s.mem ⟨F.base (.local_ n), []⟩ v b := by
      intro b hb
      exact (store_of_ne fun he => hapart (by simpa [LValue.newLocal, he] using hb)).symm
    obtain ⟨hpl₁, hbase, -⟩ := Interp.place_congr hsrc hpl'
    refine ⟨pl', w, hpl₁, ?_, fun t v' u ht hv' hu => ?_⟩
    · exact (load_congr hbase).symm.trans hw
    · obtain ⟨-, hv'⟩ := load_eq_some.mp hv'
      obtain rfl : v = v' := by
        rw [← hv', Contents.get_nil]
        exact store_whole.symm
      exact hcast t u ht hu
  cases st with
  | assign d rv =>
    cases rv with
    | borrow bt val =>
      rw [pointed, Option.ite_none_right_eq_some] at hp
      obtain ⟨⟨hdst, hderef⟩, hp⟩ := hp
      cases hp
      rw [LValue.isDeref_iff] at hderef
      obtain ⟨plv, v, pl, hplv, hv, hpl, rfl, hs₁⟩ := Interp.step_borrow h
      rw [hderef] at hplv
      obtain ⟨pl', k, hpl', hk, hplace⟩ := place_deref hplv
      exact hkept hdst hpl' hk hpl hs₁ fun t u ht hu =>
        V.reborrow_back (htyped.loaded ht hpl' hk) hplace hv hu
    | cast val type =>
      rw [pointed, Option.ite_none_right_eq_some] at hp
      obtain ⟨⟨hdst, hptr⟩, hp⟩ := hp
      cases hp
      obtain ⟨pl', k, v, pl, hpl', hk, hv, hpl, rfl, hs₁⟩ := Interp.step_cast h
      exact hkept hdst hpl' hk hpl hs₁ fun t u ht hu =>
        V.pointer_back (htyped.loaded ht hpl' hk) (hfits type pl' k rfl hpl' hk) hptr hv hu
    | _ => cases hp
  | _ => cases hp

/-- What the pass has made of a statement on the run. -/
inductive Rewritten (F : Frame T P B) : Statement T P (LValue P) → Event T P B K π E →
    Statement T P (LValue P) → Event T P B K π E → Prop
  | same (st : Statement T P (LValue P)) (ev : Event T P B K π E) : Rewritten F st ev st ev
  | used {dst val : LValue P} {src : RValue T P (LValue P)} {pl : Place B π} {rv : RValue T P K} {v : K}
    (hval : (F.lvalueType val).isSome = true) :
    Rewritten F (.assign dst src) (.assign pl rv v) (.assign dst (.use val)) (.assign pl (.use v) v)

/-- The rewritten statements take every state on the run to the same next state. -/
def Follows (I : Interp T P B K π E) (F : Frame T P B) :
    State B K → List (Statement T P (LValue P)) → List (Statement T P (LValue P)) → Prop
  | s, st :: sts, cur :: curs => ∀ ev s₁, I.step F.copying s st = some (ev, s₁) →
      (∃ ev', I.step F.copying s cur = some (ev', s₁) ∧ Rewritten F st ev cur ev') ∧
        Follows I F s₁ sts curs
  | _, [], [] => True
  | _, _, _ => False

omit [DecidableEq T] [DecidableEq P] in
theorem Follows.refl (s : State B K) (sts : List (Statement T P (LValue P))) : Follows I F s sts sts := by
  induction sts generalizing s with
  | nil => trivial
  | cons st sts ih =>
    intro ev s₁ h
    exact ⟨⟨ev, h, .same st ev⟩, ih s₁⟩

omit [Contents K π] [DecidableEq B] [DecidableEq T] [DecidableEq P] in
theorem Rewritten.written (h : Rewritten F st ev cur ev') (hlv : (lv, .write) ∈ st.lvalues) :
    (lv, .write) ∈ cur.lvalues := by
  cases h with
  | same => exact hlv
  | used =>
    rcases List.mem_append.mp hlv with hlv | hlv
    · exact absurd hlv RValue.write_notMem_lvalues
    · exact List.mem_append_right _ hlv

omit [DecidableEq T] in
/-- The statements between the pointer and its cast back keep what the cast gives. -/
theorem Recasts.step (ht : F.Types st.mentioned) (hr : Rewritten F st ev cur ev')
    (hinv : cur.invalidates src false = false) (hl : Leaves I F.copying s.mem dst src st ev)
    (h : I.step F.copying s st = some (ev, s₁)) (hc : Recasts I F.copying dst src s.mem) :
    Recasts I F.copying dst src s₁.mem := by
  have hframe {b : B} (hb : ∀ pl ∈ ev.places, b ≠ pl.base) (hch : b ∉ I.changed s.mem st ev) :
      s.mem b = s₁.mem b := (Interp.step_frame F.copying_copies ht h hb hch).symm
  refine hc.congr (hframe (fun pl hpl => hl.pointer hpl) fun hb => (hl.changed hb).1 rfl) fun b hb => ?_
  refine hframe (fun pl hpl he => ?_) fun hb' => (hl.changed hb').2 hb
  subst he
  obtain ⟨lv, hlv, hplace⟩ := Interp.step_places F.copying_copies ht h hpl
  by_cases hd : .deref ∈ lv.wrappers
  · exact hl.aliased hlv hplace hd hb
  · -- A place of a slot is seen by the search: it is neither the root of the source nor an index of it.
    have hbase : pl.base = F.base lv.root := Interp.unwraps_base hd hplace
    obtain ⟨hroot, hindex⟩ := Statement.root_ne_of_not_invalidates hinv (hr.written hlv)
    simp only [Interp.readFrom, List.cons_append, List.mem_cons, List.mem_append, List.mem_map] at hb
    rcases hb with hb | ⟨l, hl', hb⟩ | hb
    · exact hroot (F.base_injective (hbase.symm.trans hb))
    · exact hindex l hl' (F.base_injective (hbase.symm.trans hb.symm))
    · exact hl.reached hpl hb

/-- A cast back on the run can be made a use of the source. -/
theorem Recasts.use (hdst : dst.isLocal = true) (hc : Recasts I F.copying dst src s.mem)
    (hback : castsBack F.lvalueType dst src st = true) (h : I.step F.copying s st = some (ev, s₁)) :
    ∃ ev', I.step F.copying s (useOf src st) = some (ev', s₁) ∧ Rewritten F st ev (useOf src st) ev' := by
  cases st with
  | assign d rv =>
    cases rv with
    | cast val type =>
      simp only [castsBack, Bool.and_eq_true, decide_eq_true_eq] at hback
      obtain ⟨rfl, htype⟩ := hback
      have hsome : (F.lvalueType src).isSome = true := by
        rw [htype]
        rfl
      obtain ⟨n, rfl⟩ := LValue.isLocal_iff.mp hdst
      obtain ⟨pl', k, v, pl, hpl', hk, hv, hpl, rfl, rfl⟩ := Interp.step_cast h
      obtain ⟨plw, w, hplw, hw, hcast⟩ := hc
      cases hpl'
      obtain rfl : v = w := hcast type k v htype hk hv
      exact ⟨_, (Interp.step_use hsome).mpr ⟨plw, v, pl, hplw, hw, hpl, rfl, rfl⟩, .used hsome⟩
    | _ => cases hback
  | _ => cases hback

theorem Follows.replaceCast (ht : ∀ st ∈ sts, F.Types st.mentioned) (hdst : dst.isLocal = true)
    (hf : Follows I F s sts curs) (hc : Recasts I F.copying dst src s.mem)
    (hl : LeavesUntilCast I F.copying dst src s sts curs) {curs' : List (Statement T P (LValue P))}
    (hr : replaceCast F.lvalueType dst src curs = some curs') : Follows I F s sts curs' := by
  induction curs generalizing s sts curs' with
  | nil => cases hr
  | cons cur curs ih =>
    cases sts with
    | nil => cases hf
    | cons st sts =>
      rw [NoopRemoval.replaceCast] at hr
      by_cases hback : castsBack F.lvalueType dst src cur = true
      · rw [if_pos hback] at hr
        cases hr
        intro ev s₁ h
        obtain ⟨⟨ev', hcur, hrw⟩, hrest⟩ := hf ev s₁ h
        obtain ⟨ev'', huse, hrw'⟩ := hc.use hdst hback hcur
        cases hrw with
        | same => exact ⟨⟨ev'', huse, hrw'⟩, hrest⟩
        | used => cases hback
      · rw [if_neg hback, Option.ite_none_left_eq_some] at hr
        obtain ⟨hinv, hr⟩ := hr
        obtain ⟨curs', hcurs, rfl⟩ := Option.map_eq_some_iff.mp hr
        intro ev s₁ h
        obtain ⟨⟨ev', hcur, hrw⟩, hrest⟩ := hf ev s₁ h
        obtain ⟨hleaves, hl⟩ := hl (Bool.eq_false_iff.mpr hback) ev s₁ h
        have hc₁ := hc.step (ht st List.mem_cons_self) hrw (by simpa using hinv) hleaves h
        exact ⟨⟨ev', hcur, hrw⟩,
          ih (fun st hst => ht st (List.mem_cons_of_mem _ hst)) hrest hc₁ hl hcurs⟩

omit [DecidableEq T] [DecidableEq P] in
theorem pointed_isLocal {isPointer : T → Bool} (h : pointed isPointer st = some (dst, src)) :
    dst.isLocal = true := by
  cases st with
  | assign d rv =>
    cases rv with
    | borrow bt val | cast val type =>
      rw [pointed, Option.ite_none_right_eq_some] at h
      obtain ⟨⟨hdst, -⟩, h⟩ := h
      cases h
      exact hdst
    | _ => cases h
  | _ => cases h

/-- One search keeps that the rewritten statements follow the original ones. -/
theorem Follows.replaced (ht : ∀ st ∈ sts, F.Types st.mentioned) (hf : Follows I F s₁ sts curs)
    (hrw : Rewritten F st ev cur ev') (htyped : V.TypedStep s.mem st ev)
    (hu : V.Undisturbed s s₁ cur sts curs) (h : I.step F.copying s st = some (ev, s₁)) :
    Follows I F s₁ sts (replaced F.lvalueType isPointer cur curs) := by
  rw [NoopRemoval.replaced]
  cases hp : pointed isPointer cur with
  | none => exact hf
  | some r =>
    obtain ⟨dst, src⟩ := r
    cases hr : NoopRemoval.replaceCast F.lvalueType dst src curs with
    | none =>
      simp only [hr]
      exact hf
    | some curs' =>
      have hsome : (NoopRemoval.replaceCast F.lvalueType dst src curs).isSome = true := by
        rw [hr]
        rfl
      simp only [hr]
      cases hrw with
      | used => cases hp
      | same =>
        have hc : Recasts I F.copying dst src s₁.mem := recasts_of_pointed hp htyped (hu.apart hp hsome)
          (fun type pl v hst hpl hv => hu.fits hst hp hsome hpl hv) h
        exact hf.replaceCast ht (pointed_isLocal hp) hc (hu.leaves hp hsome) hr

theorem Follows.replaceCasts (ht : ∀ st ∈ sts, F.Types st.mentioned) (htyped : V.TypedRun s sts)
    (hu : V.UndisturbedRun n s sts curs) (hf : Follows I F s sts curs) :
    Follows I F s sts (replaceCasts F.lvalueType isPointer n curs) := by
  induction n generalizing s sts curs with
  | zero => exact hf
  | succ n ih =>
    cases curs with
    | nil => exact hf
    | cons cur curs =>
      cases sts with
      | nil => cases hf
      | cons st sts =>
        intro ev s₁ h
        obtain ⟨⟨ev', hcur, hrw⟩, hrest⟩ := hf ev s₁ h
        obtain ⟨hstep, hrun⟩ := htyped ev s₁ h
        obtain ⟨hnow, hlater⟩ := hu ev s₁ h
        have ht' : ∀ st ∈ sts, F.Types st.mentioned := fun st hst => ht st (List.mem_cons_of_mem _ hst)
        exact ⟨⟨ev', hcur, hrw⟩, ih ht' hrun hlater (hrest.replaced ht' hrw hstep hnow h)⟩

end CastBack

section Simplify

variable [DecidableEq T] [DecidableEq P] {lvalueIsCopy : LValue P → Bool}

theorem simplify_eq_none (h : simplify F.lvalueType lvalueIsCopy st = none) :
    (∃ tpl, st = .asm tpl [] [] [] []) ∨ (∃ dst, st = .assign dst (.use dst)) ∨
      (∃ dst type, st = .assign dst (.borrow type (dst.cloneWrapped [.deref]))) ∨
      ∃ kind slot flagIdx, st = .drop kind slot flagIdx ∧ lvalueIsCopy slot = true := by
  unfold simplify at h
  split at h
  · exact .inl ⟨_, rfl⟩
  · split_ifs at h with heq
    exact .inr (.inl ⟨_, by rw [heq]⟩)
  · split_ifs at h with heq
    obtain ⟨hderef, rfl⟩ := heq
    exact .inr (.inr (.inl ⟨_, _, by rw [← LValue.isDeref_iff.mp hderef]⟩))
  · split_ifs at h
  · split_ifs at h with hcopy
    exact .inr (.inr (.inr ⟨_, _, _, rfl, hcopy⟩))
  · cases h

theorem simplify_eq_some (h : simplify F.lvalueType lvalueIsCopy st = some st') :
    st' = st ∨ ∃ dst val type, st = .assign dst (.cast val type) ∧ st' = .assign dst (.use val) ∧
      F.lvalueType val = some type := by
  unfold simplify at h
  split at h
  · cases h
  · split_ifs at h
    exact .inl (Option.some.inj h).symm
  · split_ifs at h
    exact .inl (Option.some.inj h).symm
  · split_ifs at h with htype
    · cases h
      exact .inr ⟨_, _, _, rfl, rfl, htype⟩
    · exact .inl (Option.some.inj h).symm
  · split_ifs at h
    exact .inl (Option.some.inj h).symm
  · exact .inl (Option.some.inj h).symm

variable [DecidableEq B]

/-- What is erased changes nothing, but that a dropped Copy value is left. -/
theorem simplify_erased (ht : F.Types st.mentioned) (htyped : V.TypedStep s.mem st ev)
    (hs : simplify F.lvalueType F.lvalueIsCopy st = none)
    (h : I.step F.copying s st = some (ev, s₁)) : s₁.mem ≤ s.mem ∧ s₁.flags = s.flags := by
  rcases simplify_eq_none hs with ⟨tpl, rfl⟩ | ⟨dst, rfl⟩ | ⟨dst, type, rfl⟩ | ⟨kind, slot, flagIdx, rfl, hc⟩
  · simp only [Interp.step, visitNamed, List.map_nil, List.mapM_nil, bind, pure, Option.bind_some,
      Option.bind_eq_some_iff, Option.some.injEq, Prod.mk.injEq] at h
    obtain ⟨⟨⟨e, vs⟩, ma⟩, ha, mo, hmo, -, rfl⟩ := h
    obtain rfl := V.asm_nothing ha
    cases vs with
    | nil =>
      cases hmo
      exact ⟨le_rfl, rfl⟩
    | cons v vs => cases hmo
  · have hdst : (F.lvalueType dst).isSome = true := ht dst (by simp [Statement.mentioned, Statement.lvalues])
    obtain ⟨pl', v, pl, hpl', hv, hpl, -, rfl⟩ := (Interp.step_use hdst).mp h
    cases hpl.symm.trans hpl'
    exact ⟨(store_loaded V hv).le, rfl⟩
  · have hdst : (F.lvalueType dst).isSome = true := ht dst (by simp [Statement.mentioned, Statement.lvalues])
    obtain ⟨t, hdst⟩ := Option.isSome_iff_exists.mp hdst
    obtain ⟨plv, v, pl, hplv, hv, hpl, hev, rfl⟩ := Interp.step_borrow h
    obtain ⟨pl', k, hpl', hk, hplace⟩ := place_deref hplv
    cases hpl.symm.trans hpl'
    obtain rfl : v = k := V.reborrow (htyped.loaded hdst hpl hk) hplace hv
      (htyped.assigned rfl hev hdst)
    exact ⟨(store_loaded V hk).le, rfl⟩
  · simp only [Interp.step] at h
    by_cases hf : flagIdx.elim true s.flags = true
    · rw [if_pos hf] at h
      simp only [bind, pure, Option.bind_eq_some_iff, Option.some.injEq, Prod.mk.injEq] at h
      obtain ⟨pl, hpl, ⟨e, md⟩, hd, -, rfl⟩ := h
      obtain rfl := V.drop_copy hc hpl hd
      exact ⟨fun b => vacate_le _ pl b, rfl⟩
    · rw [if_neg hf] at h
      cases h
      exact ⟨le_rfl, rfl⟩

/-- What remains stores the same values. -/
theorem simplify_kept (ht : F.Types st.mentioned) (htyped : V.TypedStep s.mem st ev)
    (hs : simplify F.lvalueType F.lvalueIsCopy st = some st')
    (h : I.step F.copying s st = some (ev, s₁)) :
    ∃ ev', I.step F.copying s st' = some (ev', s₁) ∧ ev.SameStores ev' := by
  rcases simplify_eq_some hs with rfl | ⟨dst, val, type, rfl, rfl, htype⟩
  · exact ⟨ev, h, .refl ev⟩
  · have hval : (F.lvalueType val).isSome = true := by
      rw [htype]
      rfl
    obtain ⟨pl', k, v, pl, hpl', hk, hv, hpl, rfl, rfl⟩ := Interp.step_cast h
    obtain rfl : v = k := V.cast_self (htyped.loaded htype hpl' hk) hv
    exact ⟨_, (Interp.step_use hval).mpr ⟨pl', v, pl, hpl', hk, hpl, rfl, rfl⟩, .assign _ _ _ _⟩

end Simplify

section Blocks

variable [DecidableEq B] [DecidableEq T] [DecidableEq P] {bb : BasicBlock T P (LValue P)}

omit [Contents K π] [DecidableEq B] [DecidableEq T] [DecidableEq P] in
theorem Rewritten.types (h : Rewritten F st ev cur ev') (ht : F.Types st.mentioned) :
    F.Types cur.mentioned := by
  cases h with
  | same => exact ht
  | @used dst val src _ _ _ hval =>
    have hdst := ht dst (by simp [Statement.mentioned, Statement.lvalues])
    intro lv hlv
    simp only [Statement.mentioned, Statement.lvalues, Statement.paramBorrows, RValue.lvalues,
      RValue.paramBorrows, List.cons_append, List.nil_append, List.map_cons, List.map_nil,
      List.append_nil, List.mem_cons, List.not_mem_nil, or_false] at hlv
    rcases hlv with rfl | rfl
    · exact hval
    · exact hdst

omit [DecidableEq B] [DecidableEq T] [DecidableEq P] in
theorem Rewritten.typedStep (h : Rewritten F st ev cur ev') (ht : V.TypedStep m st ev) :
    V.TypedStep m cur ev' := by
  cases h with
  | same => exact ht
  | used hval =>
    refine ⟨ht.loaded, ?_⟩
    intro _ _ _ _ _ _ hst hev htype
    cases hst
    cases hev
    exact ht.assigned rfl rfl htype

omit [Contents K π] [DecidableEq B] [DecidableEq T] [DecidableEq P] in
theorem Rewritten.sameStores (h : Rewritten F st ev cur ev') {ev'' : Event T P B K π E}
    (hs : ev'.SameStores ev'') : ev.SameStores ev'' := by
  cases h with
  | same => exact hs
  | used =>
    cases hs
    · exact .assign _ _ _ _
    · exact .assign _ _ _ _

/-- The events of the statements that remain of a list. -/
def remaining (lvalueType : LValue P → Option T) (lvalueIsCopy : LValue P → Bool)
    (curs : List (Statement T P (LValue P))) (evs : List (Event T P B K π E)) :
    List (Event T P B K π E) :=
  (curs.zip evs).filterMap fun x => (simplify lvalueType lvalueIsCopy x.1).map fun _ => x.2

theorem Follows.steps (ht : ∀ st ∈ sts, F.Types st.mentioned) (htyped : V.TypedRun s sts)
    (hf : Follows I F s sts curs) (hle : s.mem ≤ m')
    (h : I.steps F.copying s sts = some (evs, s₁)) :
    ∃ evs' m₁', I.steps F.copying ⟨m', s.flags⟩
        (curs.filterMap (simplify F.lvalueType F.lvalueIsCopy)) = some (evs', ⟨m₁', s₁.flags⟩) ∧
      s₁.mem ≤ m₁' ∧
      List.Forall₂ Event.SameStores (remaining F.lvalueType F.lvalueIsCopy curs evs) evs' := by
  induction sts generalizing s curs m' evs with
  | nil =>
    cases curs with
    | nil =>
      cases h
      exact ⟨[], m', rfl, hle, .nil⟩
    | cons cur curs => cases hf
  | cons st sts ih =>
    cases curs with
    | nil => cases hf
    | cons cur curs =>
      simp only [Interp.steps, bind, pure, Option.bind_eq_some_iff, Option.some.injEq] at h
      obtain ⟨⟨ev, s₂⟩, hst, ⟨evs, s₃⟩, hsts, h⟩ := h
      cases h
      obtain ⟨⟨ev', hcur, hrw⟩, hrest⟩ := hf ev s₂ hst
      obtain ⟨hstep, hrun⟩ := htyped ev s₂ hst
      have ht₁ := hrw.types (ht st List.mem_cons_self)
      have ht' : ∀ st ∈ sts, F.Types st.mentioned := fun st hst => ht st (List.mem_cons_of_mem _ hst)
      cases hs : simplify F.lvalueType F.lvalueIsCopy cur with
      | none =>
        obtain ⟨hle₂, hfl⟩ := simplify_erased ht₁ (hrw.typedStep hstep) hs hcur
        obtain ⟨evs', m₁', hsts', hle₁, hevs⟩ := ih ht' hrun hrest (hle₂.trans hle) hsts
        refine ⟨evs', m₁', ?_, hle₁, ?_⟩
        · rw [List.filterMap_cons, hs, ← hfl]
          exact hsts'
        · simpa [remaining, hs] using hevs
      | some st' =>
        obtain ⟨ev'', hst', hsame⟩ := simplify_kept ht₁ (hrw.typedStep hstep) hs hcur
        obtain ⟨m₂', hst'', hle₂⟩ := Interp.step_mono hle hst'
        obtain ⟨evs', m₁', hsts', hle₁, hevs⟩ := ih ht' hrun hrest hle₂ hsts
        refine ⟨ev'' :: evs', m₁', ?_, hle₁, ?_⟩
        · rw [List.filterMap_cons, hs]
          simp only [Interp.steps, bind, pure, Option.bind_eq_some_iff, Option.some.injEq]
          exact ⟨_, hst'', _, hsts', rfl⟩
        · simpa [remaining, hs] using ⟨hrw.sameStores hsame, hevs⟩

/-- The rewritten block does what the block does from a state. It leaves the same way, every remaining
statement stores the value that it stored, and the memory holds what the other one holds. -/
def NoopPreserves (I : Interp T P B K π E) (F : Frame T P B) (isPointer : T → Bool) (s : State B K)
    (bb : BasicBlock T P (LValue P)) : Prop :=
  ∀ evs exit s₁, I.block F.copying s bb = some (evs, exit, s₁) →
    ∃ evs' m₁', I.block F.copying s (noopRemoval F.lvalueType isPointer F.lvalueIsCopy bb) =
        some (evs', exit, ⟨m₁', s₁.flags⟩) ∧ s₁.mem ≤ m₁' ∧
      List.Forall₂ Event.SameStores
        (remaining F.lvalueType F.lvalueIsCopy (bb.castsReplaced F.lvalueType isPointer) evs) evs'

/-- Removing no-ops keeps what a block stores in every run that leaves alone each pointer whose cast back
is replaced, and what it was made from. -/
theorem noopRemoval_preserves (hb : bb.Types F) (htyped : V.TypedRun s bb.statements)
    (hu : V.UndisturbedRun bb.statements.length s bb.statements bb.statements) :
    NoopPreserves I F isPointer s bb := by
  intro evs exit s₂ h
  simp only [Interp.block, bind, pure, Option.bind_eq_some_iff, Option.some.injEq] at h
  obtain ⟨⟨evs₁, s₁⟩, hsteps, ⟨exit₁, s₂'⟩, hleave, h⟩ := h
  cases h
  have hf : Follows I F s bb.statements (bb.castsReplaced F.lvalueType isPointer) :=
    (Follows.refl s bb.statements).replaceCasts hb htyped hu
  obtain ⟨evs', m₁', hsteps', hle, hevs⟩ := hf.steps hb htyped le_rfl hsteps
  obtain ⟨m₂', hleave', hle'⟩ := Interp.leave_mono hle hleave
  refine ⟨evs', m₂', ?_, hle', hevs⟩
  simp only [Interp.block, bind, pure, Option.bind_eq_some_iff, Option.some.injEq]
  exact ⟨_, hsteps', _, hleave', rfl⟩

end Blocks

section Recast

/-- The machine of words, on which a cast changes nothing. -/
def recastInterp : Interp Words.Ty Unit (Storage Unit) Words.Value ℕ Unit :=
  { Words.interp with
    rvalue := fun
      | .cast v _ => some v
      | rv => Words.interp.rvalue rv }

/-- Every slot holds a pointer. -/
def recastFrame : Frame Words.Ty Unit (Storage Unit) := Words.frame fun _ => .ref .word

def recastState : State (Storage Unit) Words.Value :=
  Words.state [(.local_ 0, [.addr (.argument 0) []]), (.local_ 2, [.addr (.argument 1) []])]

theorem words_asPlace {k : Words.Value} {pl : Place (Storage Unit) ℕ}
    (h : recastInterp.asPlace k = some pl) : k = recastInterp.address pl := by
  obtain _ | ws := k
  · cases h
  · obtain _ | ⟨_ | ⟨b, p⟩, _ | ⟨w, ws⟩⟩ := ws <;> cases h
    rfl

def recastCasts : Casts recastInterp recastFrame fun _ => true where
  HasType _ _ := True
  FitsPointer _ := True
  put_get {p v k} hi h := by
    cases v with
    | uninit => cases hi
    | value v => exact Flat.put_get (fun i u w hu => by
        obtain ⟨x, hx, rfl⟩ := Option.map_eq_some_iff.mp hu
        obtain ⟨hi, rfl⟩ := List.getElem?_eq_some_iff.mp hx
        exact congrArg some (List.set_getElem_self hi)) h
  reborrow_back _ hpl hv hu := by
    cases hv
    cases hu
    exact (words_asPlace hpl).symm
  reborrow _ hpl hv _ := by
    cases hv
    exact (words_asPlace hpl).symm
  cast_self _ hu := by
    cases hu
    rfl
  pointer_back _ _ _ hv hu := by
    cases hv
    cases hu
    rfl
  asm_nothing h := by
    cases h
    rfl
  drop_copy _ _ h := by
    cases h
    rfl

theorem recastCasts_typedRun (s : State (Storage Unit) Words.Value)
    (sts : List (Statement Words.Ty Unit (LValue Unit))) : recastCasts.TypedRun s sts := by
  induction sts generalizing s with
  | nil => trivial
  | cons st sts ih => exact fun ev s₁ _ => ⟨⟨fun _ _ _ => trivial, fun _ _ _ => trivial⟩, ih s₁⟩

/-- `t = &*x; y = t as *const _; drop(t)` -/
def recastKept : BasicBlock Words.Ty Unit (LValue Unit) where
  statements := [.assign (.newLocal 1) (.borrow .shared ⟨.local_ 0, [.deref]⟩),
    .assign (.newLocal 3) (.cast (.newLocal 1) (.ref .word)),
    .drop .deep (.newLocal 1) none]
  terminator := .return_

/-- `t = &*x; t = z; y = t as *const _` -/
def recastChanged : BasicBlock Words.Ty Unit (LValue Unit) where
  statements := [.assign (.newLocal 1) (.borrow .shared ⟨.local_ 0, [.deref]⟩),
    .assign (.newLocal 1) (.use (.newLocal 2)),
    .assign (.newLocal 3) (.cast (.newLocal 1) (.ref .word))]
  terminator := .return_

theorem recastKept_undisturbed :
    recastCasts.UndisturbedRun 3 recastState recastKept.statements recastKept.statements := by
  intro ev₀ s₁ _
  refine ⟨⟨fun hp _ => ?_, fun _ _ _ _ _ => trivial, fun hp _ => ?_⟩, fun ev₁ s₂ _ => ⟨⟨fun hp _ => ?_,
    fun _ _ _ _ _ => trivial, fun hp _ => ?_⟩, fun ev₂ s₃ _ => ⟨⟨fun hp _ => ?_,
    fun _ _ _ _ _ => trivial, fun hp _ => ?_⟩, trivial⟩⟩⟩
  · cases hp
    decide
  · cases hp
    exact fun h => (nomatch h)
  all_goals cases hp

theorem recastKept_preserved :
    NoopPreserves recastInterp recastFrame (fun _ => true) recastState recastKept :=
  noopRemoval_preserves (by decide) (recastCasts_typedRun _ _) recastKept_undisturbed

/-- The search does not see that `t` is assigned again, and `y` gets the value of `x`. -/
theorem recastChanged_not_preserved : recastChanged.Types recastFrame ∧
    ¬ NoopPreserves recastInterp recastFrame (fun _ => true) recastState recastChanged := by
  refine ⟨by decide, fun h => ?_⟩
  obtain ⟨⟨evs, exit, s₁⟩, he⟩ := Option.isSome_iff_exists.mp
    (show (recastInterp.block recastFrame.copying recastState recastChanged).isSome = true by decide)
  obtain ⟨evs', m₁', hrun, -, hsame⟩ := h _ _ _ he
  have hne : (recastInterp.block recastFrame.copying recastState
        (noopRemoval recastFrame.lvalueType (fun _ => true) recastFrame.lvalueIsCopy
          recastChanged)).map (fun x => x.1.flatMap Event.stores) ≠
      (recastInterp.block recastFrame.copying recastState recastChanged).map fun x =>
        (remaining recastFrame.lvalueType recastFrame.lvalueIsCopy
          (recastChanged.castsReplaced recastFrame.lvalueType fun _ => true) x.1).flatMap Event.stores := by
    decide
  rw [hrun, he, Option.map_some, Option.map_some, Event.stores_of_forall₂ hsame] at hne
  exact hne rfl

end Recast

end Mrustc.Mir
