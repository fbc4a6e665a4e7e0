import Mrustc.Mir.Forwarding
import Mrustc.Mir.Places
import Mrustc.Mir.Simulation

/-! # What copy forwarding has recorded

The recorded sources have no pointers in them and do not depend on their own local, no recorded local
is the root of a source, and the source of a local that is not Copy shares its root with no other.
-/

namespace Mrustc.Mir

variable {T P B : Type} {F : Frame T P B}

namespace Forwarding

variable {s s' : Forwarding T P} {n n' i i' k : ℕ} {src src' lv lv' : LValue P} {u : ValUsage}
  {uses : Set (ℕ × ℕ)} {st : Statement T P (LValue P)}

/-- The local `n` is recorded with the assignment at `i`, whose source is `src`. -/
def Recorded (s : Forwarding T P) (n i : ℕ) (src : LValue P) : Prop :=
  s.localAssignments n = some i ∧ s.source i = some src

/-- The assignment at `i` is that of the local `n`, from `src`. -/
def Assigns (s : Forwarding T P) (i n : ℕ) (src : LValue P) : Prop :=
  s.statements[i]? = some (.assign (.newLocal n) (.use src))

structure Wf (F : Frame T P B) (s : Forwarding T P) : Prop where
  assigned {n i : ℕ} (h : s.localAssignments n = some i) : ∃ src, s.Assigns i n src
  noDeref {n i : ℕ} {src : LValue P} (h : s.Recorded n i src) : src.hasDeref = false
  root_ne {n i : ℕ} {src : LValue P} (h : s.Recorded n i src) : src.root ≠ .local_ n
  notIndex {n i : ℕ} {src : LValue P} (h : s.Recorded n i src) : n ∉ src.indexLocals
  indexCopy {n i l : ℕ} {src : LValue P} (h : s.Recorded n i src) (hl : l ∈ src.indexLocals) :
    F.lvalueIsCopy (.newLocal l) = true
  typed {n i : ℕ} {src : LValue P} (h : s.Recorded n i src) :
    F.lvalueType src = F.lvalueType (.newLocal n)
  rootNotRecorded {n i r : ℕ} {src : LValue P} (h : s.Recorded n i src) (hr : src.root = .local_ r) :
    s.localAssignments r = none
  alone {n i n' i' : ℕ} {src src' : LValue P} (h : s.Recorded n i src)
    (hn : F.lvalueIsCopy (.newLocal n) = false) (h' : s.Recorded n' i' src') (hne : n' ≠ n) :
    src'.root ≠ src.root
  logged {x : ℕ × ℕ} (h : x ∈ s.replaced) : x.1 < s.statements.length
  unlogged {n i : ℕ} (h : s.localAssignments n = some i)
    (hn : F.lvalueIsCopy (.newLocal n) = false) (k : ℕ) : (i, k) ∉ s.replaced
  removed (i : ℕ) : i ∈ s.statementsToRemove ↔ ∃ n src k, s.Assigns i n src ∧
    F.lvalueIsCopy (.newLocal n) = false ∧ (i, k) ∈ s.replaced
  nodup : s.statementsToRemove.Nodup

/-- The uses are those that were replaced so far and those of assignments that are still recorded or
come later. -/
structure LeadsTo (uses : Set (ℕ × ℕ)) (s : Forwarding T P) : Prop where
  sub {x : ℕ × ℕ} (hx : x ∈ s.replaced) : x ∈ uses
  rest {x : ℕ × ℕ} (hx : x ∈ uses) : x ∈ s.replaced ∨
    ((∃ n, s.localAssignments n = some x.1) ∨ s.statements.length ≤ x.1) ∧ s.statements.length ≤ x.2

theorem Assigns.source (h : s.Assigns i n src) : s.source i = some src := by
  rw [Forwarding.source, h]

theorem Assigns.lt (h : s.Assigns i n src) : i < s.statements.length :=
  (List.getElem?_eq_some_iff.mp h).1

theorem Assigns.unique (h : s.Assigns i n src) (h' : s.Assigns i n' src') : n' = n ∧ src' = src := by
  have he := h'.symm.trans h
  simp only [Option.some.injEq, Statement.assign.injEq, RValue.use.injEq] at he
  have hn : (LValue.newLocal n' : LValue P).root = (LValue.newLocal n).root := congrArg _ he.1
  simp only [LValue.newLocal, Storage.local_.injEq] at hn
  exact ⟨hn, he.2⟩

theorem Wf.recorded (hs : s.Wf F) (h : s.localAssignments n = some i) :
    ∃ src, s.Recorded n i src ∧ s.Assigns i n src := by
  obtain ⟨src, hsrc⟩ := hs.assigned h
  exact ⟨src, ⟨h, hsrc.source⟩, hsrc⟩

theorem Wf.assigns (hs : s.Wf F) (h : s.Recorded n i src) : s.Assigns i n src := by
  obtain ⟨src', h', hsrc⟩ := hs.recorded h.1
  rwa [Option.some.inj (h.2.symm.trans h'.2)]

theorem Wf.injective (hs : s.Wf F) (h : s.localAssignments n = some i)
    (h' : s.localAssignments n' = some i) : n' = n := by
  obtain ⟨src, -, hsrc⟩ := hs.recorded h
  obtain ⟨src', -, hsrc'⟩ := hs.recorded h'
  exact (hsrc.unique hsrc').1

theorem Recorded.inj (h : s.Recorded n i src) (h' : s.Recorded n i' src') : i' = i ∧ src' = src := by
  have hi : i' = i := Option.some.inj (h'.1.symm.trans h.1)
  subst hi
  exact ⟨rfl, Option.some.inj (h'.2.symm.trans h.2)⟩

theorem wf_new : (new : Forwarding T P).Wf F := {
  assigned := fun h => nomatch h
  noDeref := fun h => nomatch h.1
  root_ne := fun h => nomatch h.1
  notIndex := fun h => nomatch h.1
  indexCopy := fun h => nomatch h.1
  typed := fun h => nomatch h.1
  rootNotRecorded := fun h => nomatch h.1
  alone := fun h => nomatch h.1
  logged := fun h => nomatch h
  unlogged := fun h => nomatch h
  removed := fun i => by simp [new]
  nodup := List.nodup_nil }

/-- Fewer records. -/
structure Shrinks (s s' : Forwarding T P) : Prop where
  statements : s'.statements = s.statements
  replaced : s'.replaced = s.replaced
  removed : s'.statementsToRemove = s.statementsToRemove
  records {n i : ℕ} (h : s'.localAssignments n = some i) : s.localAssignments n = some i

theorem Shrinks.source (h : Shrinks s s') (i : ℕ) : s'.source i = s.source i := by
  rw [Forwarding.source, Forwarding.source, h.statements]

theorem Shrinks.recorded (h : Shrinks s s') (hr : s'.Recorded n i src) : s.Recorded n i src :=
  ⟨h.records hr.1, h.source i ▸ hr.2⟩

theorem Shrinks.assigns (h : Shrinks s s') : s'.Assigns i n src ↔ s.Assigns i n src := by
  rw [Assigns, Assigns, h.statements]

theorem Shrinks.none (h : Shrinks s s') (hn : s.localAssignments n = none) :
    s'.localAssignments n = none := by
  cases hn' : s'.localAssignments n with
  | none => rfl
  | some i => exact absurd ((h.records hn').symm.trans hn) (by simp)

theorem Shrinks.trans {s'' : Forwarding T P} (h : Shrinks s s') (h' : Shrinks s' s'') :
    Shrinks s s'' where
  statements := h'.statements.trans h.statements
  replaced := h'.replaced.trans h.replaced
  removed := h'.removed.trans h.removed
  records hr := h.records (h'.records hr)

theorem Wf.shrink (hs : s.Wf F) (h : Shrinks s s') : s'.Wf F where
  assigned hn := by
    obtain ⟨src, hsrc⟩ := hs.assigned (h.records hn)
    exact ⟨src, h.assigns.mpr hsrc⟩
  noDeref hr := hs.noDeref (h.recorded hr)
  root_ne hr := hs.root_ne (h.recorded hr)
  notIndex hr := hs.notIndex (h.recorded hr)
  indexCopy hr := hs.indexCopy (h.recorded hr)
  typed hr := hs.typed (h.recorded hr)
  rootNotRecorded hr hroot := h.none (hs.rootNotRecorded (h.recorded hr) hroot)
  alone hr hn hr' hne := hs.alone (h.recorded hr) hn (h.recorded hr') hne
  logged hx := by
    rw [h.statements]
    exact hs.logged (h.replaced ▸ hx)
  unlogged hn hc k := by
    rw [h.replaced]
    exact hs.unlogged (h.records hn) hc k
  removed i := by
    simp only [h.removed, h.replaced, h.assigns]
    exact hs.removed i
  nodup := h.removed ▸ hs.nodup

theorem LeadsTo.grow (hf : s'.LeadsTo uses) (h : Shrinks s s') : s.LeadsTo uses where
  sub hx := hf.sub (h.replaced ▸ hx)
  rest hx := by
    rcases hf.rest hx with hx | ⟨⟨n, hn⟩ | hle, hlt⟩
    · exact .inl (h.replaced ▸ hx)
    · exact .inr ⟨.inl ⟨n, h.records hn⟩, h.statements ▸ hlt⟩
    · exact .inr ⟨.inr (h.statements ▸ hle), h.statements ▸ hlt⟩

@[simp] theorem erase_self (s : Forwarding T P) (n : ℕ) : (s.erase n).localAssignments n = none :=
  Function.update_self _ _ _

theorem erase_of_ne (h : n' ≠ n) : (s.erase n).localAssignments n' = s.localAssignments n' :=
  Function.update_of_ne h _ _

theorem shrinks_erase (s : Forwarding T P) (n : ℕ) : Shrinks s (s.erase n) where
  statements := rfl
  replaced := rfl
  removed := rfl
  records {n' i} h := by
    by_cases hn : n' = n
    · subst hn
      rw [erase_self] at h
      cases h
    · rwa [erase_of_ne hn] at h

theorem Wf.logCopy (hs : s.Wf F) (h : s.Recorded n i src)
    (hn : F.lvalueIsCopy (.newLocal n) = true) : (s.logReplaced i).Wf F := {
  hs with
  logged := by
    intro x hx
    rcases List.mem_append.mp hx with hx | hx
    · exact hs.logged hx
    · rw [List.mem_singleton] at hx
      subst hx
      exact (hs.assigns h).lt
  unlogged := by
    intro n' i' h' hn' k hx
    rcases List.mem_append.mp hx with hx | hx
    · exact hs.unlogged h' hn' k hx
    · rw [List.mem_singleton, Prod.mk.injEq] at hx
      obtain ⟨rfl, -⟩ := hx
      rw [hs.injective h.1 h', hn] at hn'
      cases hn'
  removed := by
    intro j
    rw [show (s.logReplaced i).statementsToRemove = s.statementsToRemove from rfl, hs.removed j]
    constructor
    · intro ⟨n', src', k, hsrc', hn', hx⟩
      exact ⟨n', src', k, hsrc', hn', List.mem_append_left _ hx⟩
    · intro ⟨n', src', k, hsrc', hn', hx⟩
      rcases List.mem_append.mp hx with hx | hx
      · exact ⟨n', src', k, hsrc', hn', hx⟩
      · rw [List.mem_singleton, Prod.mk.injEq] at hx
        obtain ⟨rfl, -⟩ := hx
        rw [((hs.assigns h).unique hsrc').1, hn] at hn'
        cases hn' }

theorem Wf.remove (hs : s.Wf F) (h : s.Recorded n i src)
    (hn : F.lvalueIsCopy (.newLocal n) = false) :
    Wf F { (s.logReplaced i).erase n with statementsToRemove := s.statementsToRemove ++ [i] } := by
  have hi : i ∉ s.statementsToRemove := by
    intro hi
    obtain ⟨n', src', k, hsrc', -, hx⟩ := (hs.removed i).mp hi
    exact hs.unlogged h.1 hn k hx
  have he := hs.shrink (shrinks_erase s n)
  exact {
    he with
    logged := by
      intro x hx
      rcases List.mem_append.mp hx with hx | hx
      · exact hs.logged hx
      · rw [List.mem_singleton] at hx
        subst hx
        exact (hs.assigns h).lt
    unlogged := by
      intro n' i' h' hn' k hx
      rcases List.mem_append.mp hx with hx | hx
      · exact he.unlogged h' hn' k hx
      · rw [List.mem_singleton, Prod.mk.injEq] at hx
        obtain ⟨rfl, -⟩ := hx
        have hr := (shrinks_erase s n).records h'
        rw [hs.injective h.1 hr] at h'
        exact absurd ((erase_self s n).symm.trans h') (by simp)
    removed := by
      intro j
      constructor
      · intro hj
        rcases List.mem_append.mp hj with hj | hj
        · obtain ⟨n', src', k, hsrc', hn', hx⟩ := (hs.removed j).mp hj
          exact ⟨n', src', k, hsrc', hn', List.mem_append_left _ hx⟩
        · rw [List.mem_singleton] at hj
          subst hj
          exact ⟨n, src, s.statements.length, hs.assigns h, hn,
            List.mem_append_right _ List.mem_cons_self⟩
      · intro ⟨n', src', k, hsrc', hn', hx⟩
        rcases List.mem_append.mp hx with hx | hx
        · exact List.mem_append_left _ ((hs.removed j).mpr ⟨n', src', k, hsrc', hn', hx⟩)
        · rw [List.mem_singleton, Prod.mk.injEq] at hx
          exact List.mem_append_right _ (List.mem_singleton.mpr hx.1)
    nodup := by
      rw [List.nodup_append]
      refine ⟨hs.nodup, List.nodup_singleton i, fun j hj j' hj' => ?_⟩
      rw [List.mem_singleton] at hj'
      subst hj'
      exact fun he => hi (he ▸ hj) }

/-- What a visited lvalue changes in the variables. -/
structure Evolves (s s' : Forwarding T P) : Prop where
  statements : s'.statements = s.statements
  records {n i : ℕ} (h : s'.localAssignments n = some i) : s.localAssignments n = some i
  sub : s.replaced ⊆ s'.replaced
  logs {x : ℕ × ℕ} (hx : x ∈ s'.replaced) : x ∈ s.replaced ∨
    (∃ n, s.localAssignments n = some x.1) ∧ x.2 = s.statements.length

theorem Evolves.refl (s : Forwarding T P) : Evolves s s :=
  ⟨rfl, id, List.Subset.refl _, .inl⟩

theorem Shrinks.evolves (h : Shrinks s s') : Evolves s s' where
  statements := h.statements
  records := h.records
  sub := h.replaced ▸ List.Subset.refl _
  logs hx := .inl (h.replaced ▸ hx)

theorem Evolves.trans {s'' : Forwarding T P} (h : Evolves s s') (h' : Evolves s' s'') :
    Evolves s s'' where
  statements := h'.statements.trans h.statements
  records hr := h.records (h'.records hr)
  sub := List.Subset.trans h.sub h'.sub
  logs hx := by
    rcases h'.logs hx with hx | ⟨⟨n, hn⟩, hlen⟩
    · exact h.logs hx
    · exact .inr ⟨⟨n, h.records hn⟩, hlen.trans (by rw [h.statements])⟩

theorem Evolves.leadsTo (h : Evolves s s') (hf : s'.LeadsTo uses) : s.LeadsTo uses where
  sub hx := hf.sub (h.sub hx)
  rest hx := by
    rcases hf.rest hx with hx | ⟨⟨n, hn⟩ | hle, hlt⟩
    · rcases h.logs hx with hx | ⟨hn, hlen⟩
      · exact .inl hx
      · exact .inr ⟨.inl hn, hlen.ge⟩
    · exact .inr ⟨.inl ⟨n, h.records hn⟩, h.statements ▸ hlt⟩
    · exact .inr ⟨.inr (h.statements ▸ hle), h.statements ▸ hlt⟩

/-- What `cb_apply_replacements` does with one lvalue. -/
theorem applyReplacements_cases (hs : s.Wf F) (lv : LValue P) (u : ValUsage) :
    ((∀ n, lv.root = .local_ n → s.localAssignments n = none) ∧
      applyReplacements F.lvalueIsCopy s lv u = (lv, s)) ∨
    ∃ n i src, lv.root = .local_ n ∧ s.Recorded n i src ∧
      ((F.lvalueIsCopy (.newLocal n) = true ∧ applyReplacements F.lvalueIsCopy s lv u =
          (src.cloneWrapped lv.wrappers, s.logReplaced i)) ∨
       (F.lvalueIsCopy (.newLocal n) = false ∧ lv = .newLocal n ∧ u = .move ∧
          applyReplacements F.lvalueIsCopy s lv u = (src, { (s.logReplaced i).erase n with
            statementsToRemove := s.statementsToRemove ++ [i] })) ∨
       (F.lvalueIsCopy (.newLocal n) = false ∧
          applyReplacements F.lvalueIsCopy s lv u = (lv, s.erase n))) := by
  cases hroot : lv.root with
  | local_ n =>
    cases hn : s.localAssignments n with
    | none =>
      refine .inl ⟨fun n' hn' => ?_, ?_⟩
      · cases hn'
        exact hn
      · rw [applyReplacements, hroot]
        simp only [hn]
    | some i =>
      obtain ⟨src, hrec, -⟩ := hs.recorded hn
      refine .inr ⟨n, i, src, rfl, hrec, ?_⟩
      have heq : applyReplacements F.lvalueIsCopy s lv u =
          if F.lvalueIsCopy (.newLocal n) then
            (src.cloneWrapped lv.wrappers, s.logReplaced i)
          else if lv.wrappers.isEmpty ∧ u = .move then
            (src, { (s.logReplaced i).erase n with
              statementsToRemove := s.statementsToRemove ++ [i] })
          else (lv, s.erase n) := by
        rw [applyReplacements, hroot]
        simp only [hn, hrec.2]
      by_cases hc : F.lvalueIsCopy (.newLocal n) = true
      · exact .inl ⟨hc, by rw [heq, if_pos hc]⟩
      · have hc' : F.lvalueIsCopy (.newLocal n) = false := by simpa using hc
        by_cases hm : lv.wrappers.isEmpty = true ∧ u = .move
        · refine .inr (.inl ⟨hc', ?_, hm.2, by rw [heq, if_neg hc, if_pos hm]⟩)
          cases lv with
          | mk root wrappers =>
            cases hroot
            have hnil : wrappers = [] := List.isEmpty_iff.mp hm.1
            rw [LValue.newLocal, hnil]
        · exact .inr (.inr ⟨hc', by rw [heq, if_neg hc, if_neg hm]⟩)
  | return_ | argument idx | static path =>
    refine .inl ⟨?_, ?_⟩
    · intro n hn
      cases hn
    · rw [applyReplacements, hroot]

theorem Wf.applyReplacements (hs : s.Wf F) (lv : LValue P) (u : ValUsage) :
    (applyReplacements F.lvalueIsCopy s lv u).2.Wf F := by
  rcases applyReplacements_cases hs lv u with ⟨-, he⟩ | ⟨n, i, src, -, hrec, h⟩
  · rw [he]
    exact hs
  · rcases h with ⟨hn, he⟩ | ⟨hn, -, -, he⟩ | ⟨hn, he⟩
    · rw [he]
      exact hs.logCopy hrec hn
    · rw [he]
      exact hs.remove hrec hn
    · rw [he]
      exact hs.shrink (shrinks_erase s n)

theorem evolves_applyReplacements (hs : s.Wf F) (lv : LValue P) (u : ValUsage) :
    Evolves s (Forwarding.applyReplacements F.lvalueIsCopy s lv u).2 := by
  have hlog (n i : ℕ) (src : LValue P) (h : s.Recorded n i src) : Evolves s (s.logReplaced i) := {
    statements := rfl
    records := id
    sub := List.subset_append_left _ _
    logs := fun {x} hx => by
      rcases List.mem_append.mp hx with hx | hx
      · exact .inl hx
      · rw [List.mem_singleton] at hx
        subst hx
        exact .inr ⟨⟨n, h.1⟩, rfl⟩ }
  rcases applyReplacements_cases hs lv u with ⟨-, he⟩ | ⟨n, i, src, -, hrec, h⟩
  · rw [he]
    exact Evolves.refl s
  · rcases h with ⟨hn, he⟩ | ⟨hn, -, -, he⟩ | ⟨hn, he⟩
    · rw [he]
      exact hlog n i src hrec
    · rw [he]
      have h := (hlog n i src hrec).trans (shrinks_erase (s.logReplaced i) n).evolves
      exact ⟨h.statements, h.records, h.sub, h.logs⟩
    · rw [he]
      exact (shrinks_erase s n).evolves

/-- Visiting keeps the variables well formed and only logs uses of what is recorded. -/
theorem replacer_preserves (s₀ : Forwarding T P) (lvs : List (LValue P × ValUsage)) :
    (replacer F.lvalueIsCopy).Preserves (fun s => s.Wf F ∧ Evolves s₀ s) lvs where
  lvalue {_ lv u} _ := fun ⟨hs, he⟩ =>
    ⟨hs.applyReplacements lv u, he.trans (evolves_applyReplacements hs lv u)⟩
  paramBorrow _ h := h

theorem getElem?_push (hi : i < s.statements.length) :
    (s.push st).statements[i]? = s.statements[i]? := List.getElem?_append_left hi

theorem getElem?_push_self : (s.push st).statements[s.statements.length]? = some st :=
  List.getElem?_concat_length ..

theorem Wf.source_push (hs : s.Wf F) (h : s.localAssignments n = some i) :
    (s.push st).source i = s.source i := by
  obtain ⟨src, -, hsrc⟩ := hs.recorded h
  rw [source, source, getElem?_push hsrc.lt]

theorem Wf.recorded_push (hs : s.Wf F) : (s.push st).Recorded n i src ↔ s.Recorded n i src := by
  constructor
  · intro h
    exact ⟨h.1, (hs.source_push h.1).symm.trans h.2⟩
  · intro h
    exact ⟨h.1, (hs.source_push h.1).trans h.2⟩

theorem Wf.push (hs : s.Wf F) (st : Statement T P (LValue P)) : (s.push st).Wf F := by
  have hold {i : ℕ} (hi : i < s.statements.length) : (s.push st).statements[i]? = s.statements[i]? :=
    getElem?_push hi
  have hrec {n i : ℕ} {src : LValue P} (h : (s.push st).Recorded n i src) : s.Recorded n i src :=
    hs.recorded_push.mp h
  exact {
    assigned := by
      intro n i h
      obtain ⟨src, hsrc⟩ := hs.assigned h
      exact ⟨src, (hold hsrc.lt).trans hsrc⟩
    noDeref := fun h => hs.noDeref (hrec h)
    root_ne := fun h => hs.root_ne (hrec h)
    notIndex := fun h => hs.notIndex (hrec h)
    indexCopy := fun h => hs.indexCopy (hrec h)
    typed := fun h => hs.typed (hrec h)
    rootNotRecorded := fun h => hs.rootNotRecorded (hrec h)
    alone := fun h hn h' => hs.alone (hrec h) hn (hrec h')
    logged := by
      intro x hx
      rw [Forwarding.push, List.length_append]
      exact Nat.lt_add_right _ (hs.logged hx)
    unlogged := hs.unlogged
    removed := by
      intro i
      rw [show (s.push st).statementsToRemove = s.statementsToRemove from rfl, hs.removed i]
      constructor
      · intro ⟨n, src, k, hsrc, h⟩
        exact ⟨n, src, k, (hold hsrc.lt).trans hsrc, h⟩
      · intro ⟨n, src, k, hsrc, hn, hx⟩
        exact ⟨n, src, k, (hold (hs.logged hx)).symm.trans hsrc, hn, hx⟩
    nodup := hs.nodup }

/-- A source fit to be recorded for the local `d` beside what is already recorded. -/
structure Fits (F : Frame T P B) (s : Forwarding T P) (d : ℕ) (src : LValue P) : Prop where
  notRecorded : s.localAssignments d = none
  noRoot {n i : ℕ} {src' : LValue P} (h : s.Recorded n i src') : src'.root ≠ .local_ d
  indexCopy {l : ℕ} (hl : l ∈ src.indexLocals) : F.lvalueIsCopy (.newLocal l) = true
  typed : F.lvalueType src = F.lvalueType (.newLocal d)
  rootNotRecorded {r : ℕ} (hr : src.root = .local_ r) : s.localAssignments r = none
  alone (hd : F.lvalueIsCopy (.newLocal d) = false) {n i : ℕ} {src' : LValue P}
    (h : s.Recorded n i src') : src'.root ≠ src.root
  others {n i : ℕ} {src' : LValue P} (h : s.Recorded n i src')
    (hn : F.lvalueIsCopy (.newLocal n) = false) : src.root ≠ src'.root

theorem insert_self (h : s.localAssignments n = none) : (s.insert n i).localAssignments n = some i := by
  rw [insert, h]
  exact Function.update_self _ _ _

theorem insert_of_ne (h : n' ≠ n) : (s.insert n i).localAssignments n' = s.localAssignments n' :=
  Function.update_of_ne h _ _

theorem Recorded.of_insert (h : (s.insert n i).Recorded n' i' src) (hne : n' ≠ n) :
    s.Recorded n' i' src := ⟨insert_of_ne hne ▸ h.1, h.2⟩

theorem Wf.insert {d : ℕ} (hs : s.Wf F) (hk : s.Assigns k d src) (hroot : src.root ≠ .local_ d)
    (hidx : d ∉ src.indexLocals) (hd : src.hasDeref = false) (hfits : s.Fits F d src)
    (hlog : ∀ x ∈ s.replaced, x.1 ≠ k) : (s.insert d k).Wf F := by
  have hself {n i : ℕ} {src' : LValue P} (h : (s.insert d k).Recorded n i src') (hn : n = d) :
      i = k ∧ src' = src := by
    subst hn
    have hi := Option.some.inj (h.1.symm.trans (insert_self hfits.notRecorded))
    subst hi
    exact ⟨rfl, Option.some.inj (h.2.symm.trans hk.source)⟩
  exact {
    assigned := by
      intro n i h
      by_cases hn : n = d
      · subst hn
        rw [insert_self hfits.notRecorded] at h
        cases h
        exact ⟨src, hk⟩
      · rw [insert_of_ne hn] at h
        exact hs.assigned h
    noDeref := by
      intro n i src' h
      by_cases hn : n = d
      · rwa [(hself h hn).2]
      · exact hs.noDeref (h.of_insert hn)
    root_ne := by
      intro n i src' h
      by_cases hn : n = d
      · rwa [(hself h hn).2, hn]
      · exact hs.root_ne (h.of_insert hn)
    notIndex := by
      intro n i src' h
      by_cases hn : n = d
      · rwa [(hself h hn).2, hn]
      · exact hs.notIndex (h.of_insert hn)
    indexCopy := by
      intro n i l src' h hl
      by_cases hn : n = d
      · exact hfits.indexCopy ((hself h hn).2 ▸ hl)
      · exact hs.indexCopy (h.of_insert hn) hl
    typed := by
      intro n i src' h
      by_cases hn : n = d
      · rw [(hself h hn).2, hn]
        exact hfits.typed
      · exact hs.typed (h.of_insert hn)
    rootNotRecorded := by
      intro n i r src' h hr
      by_cases hn : n = d
      · rw [(hself h hn).2] at hr
        rw [insert_of_ne (fun h : r = d => hroot (h ▸ hr))]
        exact hfits.rootNotRecorded hr
      · have h' := h.of_insert hn
        rw [insert_of_ne (fun h : r = d => hfits.noRoot h' (h ▸ hr))]
        exact hs.rootNotRecorded h' hr
    alone := by
      intro n i n' i' src₁ src₂ h hc h' hne
      by_cases hn : n = d
      · have hn' : n' ≠ d := fun h => hne (h.trans hn.symm)
        rw [(hself h hn).2]
        exact hfits.alone (hn ▸ hc) (h'.of_insert hn')
      · by_cases hn' : n' = d
        · rw [(hself h' hn').2]
          exact hfits.others (h.of_insert hn) hc
        · exact hs.alone (h.of_insert hn) hc (h'.of_insert hn') hne
    logged := hs.logged
    unlogged := by
      intro n i h hc j hx
      by_cases hn : n = d
      · subst hn
        rw [insert_self hfits.notRecorded] at h
        cases h
        exact hlog _ hx rfl
      · rw [insert_of_ne hn] at h
        exact hs.unlogged h hc j hx
    removed := hs.removed
    nodup := hs.nodup }

theorem applyReplacements_of_none {isCopy : LValue P → Bool}
    (h : ∀ n, lv.root = .local_ n → s.localAssignments n = none) :
    applyReplacements isCopy s lv u = (lv, s) := by
  unfold applyReplacements
  split
  · next n hn => rw [h n hn]
  · rfl

/-- Operands that are written to are left as they are. -/
theorem visitNamed_write {isCopy : LValue P → Bool} {xs : List (Hir.RcString × LValue P)}
    (h : ∀ x ∈ xs, ∀ n, x.2.root = .local_ n → s.localAssignments n = none) :
    Id.run (visitNamed (replacer isCopy) .write s xs) = (xs, s) := by
  induction xs with
  | nil => rfl
  | cons x xs ih =>
    have hx : applyReplacements isCopy s x.2 .write = (x.2, s) :=
      applyReplacements_of_none (h x List.mem_cons_self)
    have hxs := ih fun y hy => h y (List.mem_cons_of_mem _ hy)
    change ((x.1, (applyReplacements isCopy s x.2 .write).1) ::
      (Id.run (visitNamed (replacer isCopy) .write (applyReplacements isCopy s x.2 .write).2 xs)).1,
      (Id.run (visitNamed (replacer isCopy) .write (applyReplacements isCopy s x.2 .write).2 xs)).2) = _
    rw [hx, hxs]

section Checks

variable [DecidableEq P]

theorem shrinks_checkInvalidate (s : Forwarding T P) (lv : LValue P) (u : ValUsage) :
    Shrinks s (s.checkInvalidate lv u) where
  statements := rfl
  replaced := rfl
  removed := rfl
  records h := (Option.filter_eq_some_iff.mp h).1

theorem shrinks_checkAll (s : Forwarding T P) (lvs : List (LValue P × ValUsage)) :
    Shrinks s (s.checkAll lvs) := by
  induction lvs generalizing s with
  | nil => exact ⟨rfl, rfl, rfl, id⟩
  | cons x lvs ih => exact (shrinks_checkInvalidate s x.1 x.2).trans (ih _)

/-- What is still recorded is not invalidated by any of the lvalues. -/
theorem invalidates_of_checkAll {lvs : List (LValue P × ValUsage)}
    (h : (s.checkAll lvs).Recorded n i src) (hlv : (lv, u) ∈ lvs) : invalidates n src lv u = false := by
  induction lvs generalizing s with
  | nil => cases hlv
  | cons x lvs ih =>
    rcases List.mem_cons.mp hlv with hx | hlv
    · have hr := (shrinks_checkAll (s.checkInvalidate x.1 x.2) lvs).recorded h
      have hfilter := (Option.filter_eq_some_iff.mp hr.1).2
      have hsrc : s.source i = some src := hr.2
      rw [hsrc, ← hx] at hfilter
      simpa using hfilter
    · exact ih h hlv

end Checks

section Statements

variable [DecidableEq P] {d : ℕ}

theorem invalidates_write (h : invalidates n src lv .write = false) :
    lv.root ≠ .local_ n ∧ src.root ≠ lv.root := by
  unfold invalidates at h
  by_cases hn : lv.root = .local_ n
  · simp [hn] at h
  · rw [if_neg hn] at h
    exact ⟨hn, by simpa using h⟩

theorem invalidates_borrow (h : invalidates n src lv .borrow = false) : lv.root ≠ .local_ n := by
  unfold invalidates at h
  intro hn
  simp [hn] at h

theorem invalidates_move (h : invalidates n src lv .move = false) (hn : lv.root ≠ .local_ n) :
    src.root ≠ lv.root := by
  unfold invalidates at h
  rw [if_neg hn] at h
  simpa using h

/-- The source of an assignment, as it was rewritten, is fit to be recorded. -/
theorem fits_applyReplacements (hs : s.Wf F) {d : ℕ}
    (hwrite : ∀ n i src, s.Recorded n i src → invalidates n src (.newLocal d) .write = false)
    (hmove : ∀ n i src, s.Recorded n i src → invalidates n src lv .move = false)
    (hidx : ∀ l ∈ lv.indexLocals, F.lvalueIsCopy (.newLocal l) = true)
    (htyped : (F.lvalueType lv).isSome = true) (ht : F.lvalueType lv = F.lvalueType (.newLocal d))
    (hd : (Forwarding.applyReplacements F.lvalueIsCopy s lv .move).1.hasDeref = false) :
    (Forwarding.applyReplacements F.lvalueIsCopy s lv .move).2.Fits F d
      (Forwarding.applyReplacements F.lvalueIsCopy s lv .move).1 := by
  have hev := evolves_applyReplacements hs lv .move
  have hnone {r : ℕ} (h : s.localAssignments r = none) :
      (Forwarding.applyReplacements F.lvalueIsCopy s lv .move).2.localAssignments r = none := by
    cases hr : (Forwarding.applyReplacements F.lvalueIsCopy s lv .move).2.localAssignments r with
    | none => rfl
    | some i => exact absurd ((hev.records hr).symm.trans h) (by simp)
  have hrec {n i : ℕ} {src : LValue P}
      (h : (Forwarding.applyReplacements F.lvalueIsCopy s lv .move).2.Recorded n i src) :
      s.Recorded n i src := by
    refine ⟨hev.records h.1, ?_⟩
    rw [← h.2, source, source, hev.statements]
  have hdnone : s.localAssignments d = none := by
    cases hdn : s.localAssignments d with
    | none => rfl
    | some i =>
      obtain ⟨src, hr, -⟩ := hs.recorded hdn
      exact absurd rfl (invalidates_write (hwrite d i src hr)).1
  have hnoRoot {n i : ℕ} {src : LValue P} (h : s.Recorded n i src) : src.root ≠ .local_ d :=
    (invalidates_write (hwrite n i src h)).2
  rcases applyReplacements_cases hs lv .move with ⟨hno, he⟩ | ⟨n, i, src, hroot, hr, h⟩
  · rw [he] at hrec hnone ⊢
    have hne {n i : ℕ} {src : LValue P} (h : s.Recorded n i src) : src.root ≠ lv.root :=
      invalidates_move (hmove n i src h) fun hn => by
        have := hno n hn
        rw [h.1] at this
        cases this
    exact {
      notRecorded := hdnone
      noRoot := hnoRoot
      indexCopy := hidx _
      typed := ht
      rootNotRecorded := hno _
      alone := fun _ _ _ _ h => hne h
      others := fun h _ => (hne h).symm }
  · rcases h with ⟨hn, he⟩ | ⟨hn, rfl, -, he⟩ | ⟨hn, he⟩
    · rw [he] at hrec hnone hd ⊢
      have htype : F.lvalueType (src.cloneWrapped lv.wrappers) = F.lvalueType lv := by
        have hlv : lv = (LValue.newLocal n).cloneWrapped lv.wrappers := by
          rw [LValue.newLocal_cloneWrapped, ← hroot]
        conv_rhs => rw [hlv]
        rw [Frame.lvalueType_cloneWrapped, Frame.lvalueType_cloneWrapped, hs.typed hr]
      have hdcopy : F.lvalueIsCopy (.newLocal d) = true := by
        have hws : .deref ∉ lv.wrappers := fun h =>
          LValue.hasDeref_eq_false.mp hd (List.mem_append_right _ h)
        have hpart : F.lvalueIsCopy ((LValue.newLocal n).cloneWrapped lv.wrappers) = true := by
          refine Frame.lvalueIsCopy_part hn hws ?_
          rwa [LValue.newLocal_cloneWrapped, ← hroot]
        rw [LValue.newLocal_cloneWrapped, ← hroot] at hpart
        rwa [Frame.lvalueIsCopy, ← ht]
      exact {
        notRecorded := hnone hdnone
        noRoot := fun h => hnoRoot (hrec h)
        indexCopy := by
          intro l hl
          rcases List.mem_append.mp (LValue.mem_indexLocals.mp hl) with h | h
          · exact hs.indexCopy hr (LValue.mem_indexLocals.mpr h)
          · exact hidx l (LValue.mem_indexLocals.mpr h)
        typed := htype.trans ht
        rootNotRecorded := fun h => hnone (hs.rootNotRecorded hr h)
        alone := fun h => absurd hdcopy (by simp [h])
        others := fun {n' i' src'} h hn' => by
          have hne : n ≠ n' := fun he => by
            rw [← he, hn] at hn'
            cases hn'
          have hroots : src.root ≠ src'.root := hs.alone (hrec h) hn' hr hne
          exact hroots }
    · rw [he] at hrec hnone hd ⊢
      have hne {n' i' : ℕ} {src' : LValue P} (h : s.Recorded n' i' src') (hnn : n' ≠ n) :
          src'.root ≠ src.root := hs.alone hr hn h hnn
      have hkey {n' i' : ℕ} {src' : LValue P}
          (h : ({ (s.logReplaced i).erase n with
            statementsToRemove := s.statementsToRemove ++ [i] } : Forwarding T P).Recorded n' i' src') :
          n' ≠ n := fun hnn => by
        have hself := erase_self (s.logReplaced i) n
        have h1 : (s.logReplaced i |>.erase n).localAssignments n' = some i' := h.1
        rw [hnn, hself] at h1
        cases h1
      exact {
        notRecorded := hnone hdnone
        noRoot := fun h => hnoRoot (hrec h)
        indexCopy := fun hl => hs.indexCopy hr hl
        typed := (hs.typed hr).trans ht
        rootNotRecorded := fun h => hnone (hs.rootNotRecorded hr h)
        alone := fun _ _ _ _ h => hne (hrec h) (hkey h)
        others := fun h _ => (hne (hrec h) (hkey h)).symm }
    · rw [he] at hrec hnone hd ⊢
      have hkey {n' i' : ℕ} {src' : LValue P} (h : (s.erase n).Recorded n' i' src') :
          lv.root ≠ .local_ n' := fun hnn => by
        rw [hroot, Storage.local_.injEq] at hnn
        have h1 := h.1
        rw [← hnn, erase_self] at h1
        cases h1
      have hne {n' i' : ℕ} {src' : LValue P} (h : (s.erase n).Recorded n' i' src') :
          src'.root ≠ lv.root := invalidates_move (hmove _ _ _ (hrec h)) (hkey h)
      exact {
        notRecorded := hnone hdnone
        noRoot := fun h => hnoRoot (hrec h)
        indexCopy := hidx _
        typed := ht
        rootNotRecorded := fun {r} h => by
          rw [hroot, Storage.local_.injEq] at h
          rw [← h, erase_self]
        alone := fun _ _ _ _ h => hne h
        others := fun h _ => (hne h).symm }

/-- A statement ends the records of the locals that it writes to. -/
theorem checkAll_write {lvs : List (LValue P × ValUsage)} (hs : s.Wf F) (hlv : (lv, .write) ∈ lvs)
    (hn : lv.root = .local_ n) : (s.checkAll lvs).localAssignments n = none := by
  cases h : (s.checkAll lvs).localAssignments n with
  | none => rfl
  | some i =>
    obtain ⟨src, hr, -⟩ := (hs.shrink (shrinks_checkAll s lvs)).recorded h
    exact absurd hn (invalidates_write (invalidates_of_checkAll hr hlv)).1

/-- When an assignment is recorded. -/
theorem record_cases (s : Forwarding T P) (st : Statement T P (LValue P)) :
    s.record st = s ∨ ∃ d src, st = .assign (.newLocal d) (.use src) ∧ src.root ≠ .local_ d ∧
      d ∉ src.indexLocals ∧ src.hasDeref = false ∧
      s.record st = s.insert d (s.statements.length - 1) := by
  unfold record
  split
  · next d src =>
    by_cases hself : src.root = .local_ d ∨ d ∈ src.indexLocals
    · exact .inl (if_pos hself)
    · rw [if_neg hself]
      rw [not_or] at hself
      by_cases hd : src.hasDeref = true
      · exact .inl (if_pos hd)
      · rw [if_neg hd]
        exact .inr ⟨d, src, rfl, hself.1, hself.2, by simpa using hd, rfl⟩
  · exact .inl rfl

end Statements

end Forwarding

/-- What is asked of a statement of a valid function: its lvalues have types, they are indexed by Copy
locals, and a copied value has the type of its destination. -/
structure Statement.WellTyped (F : Frame T P B) (st : Statement T P (LValue P)) : Prop where
  index {lv : LValue P} {l : ℕ} (h : lv ∈ st.mentioned) (hl : l ∈ lv.indexLocals) :
    F.lvalueIsCopy (.newLocal l) = true
  typed {lv : LValue P} (h : lv ∈ st.mentioned) : (F.lvalueType lv).isSome = true
  assign {dst src : LValue P} (h : st = .assign dst (.use src)) : F.lvalueType src = F.lvalueType dst

/-- The destination and the source of a copy or a move. -/
def Statement.copied : Statement T P (LValue P) → Option (LValue P × LValue P)
  | .assign dst (.use src) => some (dst, src)
  | _ => none

theorem Statement.wellTyped_iff {F : Frame T P B} {st : Statement T P (LValue P)} : st.WellTyped F ↔
    (∀ lv ∈ st.mentioned, (∀ l ∈ lv.indexLocals, F.lvalueIsCopy (.newLocal l) = true) ∧
      (F.lvalueType lv).isSome = true) ∧
    ∀ x ∈ st.copied, F.lvalueType x.2 = F.lvalueType x.1 := by
  constructor
  · intro h
    refine ⟨fun lv hlv => ⟨fun l hl => h.index hlv hl, h.typed hlv⟩, fun x hx => ?_⟩
    cases st with
    | assign dst src =>
      cases src with
      | use src =>
        cases hx
        exact h.assign rfl
      | _ => cases hx
    | _ => cases hx
  · rintro ⟨h, hcopied⟩
    refine ⟨fun hlv hl => (h _ hlv).1 _ hl, fun hlv => (h _ hlv).2, ?_⟩
    rintro dst src rfl
    exact hcopied _ rfl

instance [DecidableEq T] (F : Frame T P B) (st : Statement T P (LValue P)) : Decidable (st.WellTyped F) :=
  decidable_of_iff _ Statement.wellTyped_iff.symm

theorem Statement.WellTyped.visited {F : Frame T P B} {st : Statement T P (LValue P)} {lv : LValue P}
    {u : ValUsage} (ht : st.WellTyped F) (h : (lv, u) ∈ st.lvalues) :
    ∀ l ∈ lv.indexLocals, F.lvalueIsCopy (.newLocal l) = true :=
  fun _ => ht.index (List.mem_append_left _ (List.mem_map.mpr ⟨_, h, rfl⟩))

theorem Statement.visit_eq_assign {v : Visitor Id (Forwarding T P) (LValue P) (LValue P)}
    {s : Forwarding T P} {st : Statement T P (LValue P)} {dst' src' : LValue P}
    (h : (Id.run (st.visit v s)).1 = .assign dst' (.use src')) :
    ∃ dst src, st = .assign dst (.use src) := by
  cases st with
  | assign dst rv =>
    cases rv with
    | use src => exact ⟨dst, src, rfl⟩
    | _ => cases h
  | _ => cases h

namespace Forwarding

section Statement

variable [DecidableEq P] {s s' : Forwarding T P} {st : Statement T P (LValue P)} {lv : LValue P}
  {uses : Set (ℕ × ℕ)}

/-- The state behind the lvalues of a statement, and the statement as it was rewritten. -/
def visited (isCopy : LValue P → Bool) (s : Forwarding T P) (st : Statement T P (LValue P)) :
    Statement T P (LValue P) × Forwarding T P :=
  Id.run (st.visit (replacer isCopy) (s.checkAll st.lvalues))

theorem statement_eq (isCopy : LValue P → Bool) (s : Forwarding T P) (st : Statement T P (LValue P)) :
    s.statement isCopy st =
      ((s.visited isCopy st).2.push (s.visited isCopy st).1).record (s.visited isCopy st).1 := rfl

theorem Wf.visited (hs : s.Wf F) (st : Statement T P (LValue P)) :
    (s.visited F.lvalueIsCopy st).2.Wf F ∧
      Evolves (s.checkAll st.lvalues) (s.visited F.lvalueIsCopy st).2 :=
  st.visit_preserves (replacer_preserves _ _)
    ⟨hs.shrink (shrinks_checkAll s st.lvalues), Evolves.refl _⟩

/-- What a statement writes to is left as it is. -/
theorem write_visited {lvs : List (LValue P × ValUsage)} (hs : s.Wf F) (hlv : (lv, .write) ∈ lvs)
    (he : Evolves (s.checkAll lvs) s') :
    applyReplacements F.lvalueIsCopy s' lv .write = (lv, s') := by
  refine applyReplacements_of_none fun n hn => ?_
  cases h : s'.localAssignments n with
  | none => rfl
  | some i => exact absurd ((he.records h).symm.trans (checkAll_write hs hlv hn)) (by simp)

/-- An assignment when its source has been rewritten. -/
theorem visited_assign (hs : s.Wf F) {dst : LValue P} {src : RValue T P (LValue P)}
    (hst : st = .assign dst src) :
    s.visited F.lvalueIsCopy st = (.assign dst
        (Id.run (src.visit (replacer F.lvalueIsCopy) (s.checkAll st.lvalues))).1,
      (Id.run (src.visit (replacer F.lvalueIsCopy) (s.checkAll st.lvalues))).2) := by
  have hs₀ := hs.shrink (shrinks_checkAll s st.lvalues)
  have hev := src.visit_preserves (replacer_preserves (s.checkAll st.lvalues) _) ⟨hs₀, Evolves.refl _⟩
  have hdst := write_visited hs (show (dst, .write) ∈ st.lvalues by simp [hst, Statement.lvalues]) hev.2
  have hvis : s.visited F.lvalueIsCopy st = (.assign (applyReplacements F.lvalueIsCopy
        (Id.run (src.visit (replacer F.lvalueIsCopy) (s.checkAll st.lvalues))).2 dst .write).1
      (Id.run (src.visit (replacer F.lvalueIsCopy) (s.checkAll st.lvalues))).1,
      (applyReplacements F.lvalueIsCopy
        (Id.run (src.visit (replacer F.lvalueIsCopy) (s.checkAll st.lvalues))).2 dst .write).2) := by
    conv_lhs => rw [visited, hst]
    rw [hst]
    rfl
  rw [hvis, hdst]

/-- The statement is recorded: it assigns the local `d` from `lv`, rewritten to `src`. -/
structure Records (F : Frame T P B) (s : Forwarding T P) (st : Statement T P (LValue P)) (d : ℕ)
    (lv src : LValue P) : Prop where
  assigns : st = .assign (.newLocal d) (.use lv)
  rewritten : (s.visited F.lvalueIsCopy st).1 = .assign (.newLocal d) (.use src)
  applied : applyReplacements F.lvalueIsCopy (s.checkAll st.lvalues) lv .move =
    (src, (s.visited F.lvalueIsCopy st).2)
  root_ne : src.root ≠ .local_ d
  notIndex : d ∉ src.indexLocals
  noDeref : src.hasDeref = false
  fits : (s.visited F.lvalueIsCopy st).2.Fits F d src
  after : s.statement F.lvalueIsCopy st =
    ((s.visited F.lvalueIsCopy st).2.push (s.visited F.lvalueIsCopy st).1).insert d
      (s.visited F.lvalueIsCopy st).2.statements.length

theorem statement_cases (hs : s.Wf F) (ht : st.WellTyped F) :
    s.statement F.lvalueIsCopy st =
      (s.visited F.lvalueIsCopy st).2.push (s.visited F.lvalueIsCopy st).1 ∨
    ∃ d lv src, Records F s st d lv src := by
  rcases record_cases ((s.visited F.lvalueIsCopy st).2.push (s.visited F.lvalueIsCopy st).1)
    (s.visited F.lvalueIsCopy st).1 with he | ⟨d, src, hst, hroot, hidx, hd, he⟩
  · exact .inl he
  · obtain ⟨dst, lv, hassign⟩ := Statement.visit_eq_assign hst
    have hvis := visited_assign hs hassign
    have hst' := hst
    rw [hvis] at hst'
    obtain ⟨hdst, huse⟩ := Statement.assign.inj hst'
    have hsrc : (applyReplacements F.lvalueIsCopy (s.checkAll st.lvalues) lv .move).1 = src :=
      RValue.use.inj huse
    subst hdst
    have hlvs : st.lvalues = [(lv, .move), (.newLocal d, .write)] := by
      rw [hassign]
      rfl
    have hmem : lv ∈ st.mentioned := by
      rw [Statement.mentioned, hlvs]
      exact List.mem_append_left _ List.mem_cons_self
    have happ : applyReplacements F.lvalueIsCopy (s.checkAll st.lvalues) lv .move =
        (src, (s.visited F.lvalueIsCopy st).2) := by
      rw [hvis, ← hsrc]
      rfl
    have hfits : (s.visited F.lvalueIsCopy st).2.Fits F d src := by
      have hs₀ := hs.shrink (shrinks_checkAll s st.lvalues)
      have hnoDeref : (applyReplacements F.lvalueIsCopy (s.checkAll st.lvalues) lv
          .move).1.hasDeref = false := by rwa [happ]
      have hfits := fits_applyReplacements hs₀
        (fun n i src hr => invalidates_of_checkAll hr (by simp [hlvs]))
        (fun n i src hr => invalidates_of_checkAll hr (by simp [hlvs]))
        (fun l hl => ht.index hmem hl) (ht.typed hmem) (ht.assign hassign) hnoDeref
      rwa [happ] at hfits
    exact .inr ⟨d, lv, src, {
      assigns := hassign
      rewritten := hst
      applied := happ
      root_ne := hroot
      notIndex := hidx
      noDeref := hd
      fits := hfits
      after := by
        rw [statement_eq, he]
        simp [Forwarding.push] }⟩

theorem Records.insertable {d : ℕ} {lv src : LValue P} (h : Records F s st d lv src) (hs : s.Wf F) :
    ((s.visited F.lvalueIsCopy st).2.push (s.visited F.lvalueIsCopy st).1).Fits F d src := by
  have hv := (hs.visited st).1
  exact {
    notRecorded := h.fits.notRecorded
    noRoot := fun hr => h.fits.noRoot (hv.recorded_push.mp hr)
    indexCopy := h.fits.indexCopy
    typed := h.fits.typed
    rootNotRecorded := h.fits.rootNotRecorded
    alone := fun hd _ _ _ hr => h.fits.alone hd (hv.recorded_push.mp hr)
    others := fun hr hn => h.fits.others (hv.recorded_push.mp hr) hn }

theorem Records.assigns_push {d : ℕ} {lv src : LValue P} (h : Records F s st d lv src) :
    ((s.visited F.lvalueIsCopy st).2.push (s.visited F.lvalueIsCopy st).1).Assigns
      (s.visited F.lvalueIsCopy st).2.statements.length d src := by
  rw [Assigns, getElem?_push_self, h.rewritten]

theorem Wf.statement (hs : s.Wf F) (ht : st.WellTyped F) : (s.statement F.lvalueIsCopy st).Wf F := by
  have hv := (hs.visited st).1
  rcases statement_cases hs ht with he | ⟨d, lv, src, h⟩
  · rw [he]
    exact hv.push _
  · rw [h.after]
    exact (hv.push _).insert h.assigns_push h.root_ne h.notIndex h.noDeref (h.insertable hs)
      fun x hx => (hv.logged hx).ne

theorem statement_length (hs : s.Wf F) (ht : st.WellTyped F) :
    (s.statement F.lvalueIsCopy st).statements.length = s.statements.length + 1 := by
  have hlen : (s.visited F.lvalueIsCopy st).2.statements.length = s.statements.length := by
    rw [(hs.visited st).2.statements, (shrinks_checkAll s st.lvalues).statements]
  rcases statement_cases hs ht with he | ⟨d, lv, src, h⟩
  · rw [he, push, List.length_append, hlen]
    rfl
  · rw [h.after, insert, push, List.length_append, hlen]
    rfl

theorem statement_replaced (hs : s.Wf F) (ht : st.WellTyped F) :
    (s.statement F.lvalueIsCopy st).replaced = (s.visited F.lvalueIsCopy st).2.replaced := by
  rcases statement_cases hs ht with he | ⟨d, lv, src, h⟩
  · rw [he]
    rfl
  · rw [h.after]
    rfl

theorem LeadsTo.visited (hs : s.Wf F) (ht : st.WellTyped F)
    (hf : (s.statement F.lvalueIsCopy st).LeadsTo uses) :
    (s.visited F.lvalueIsCopy st).2.LeadsTo uses := by
  have hlen : (s.statement F.lvalueIsCopy st).statements.length =
      (s.visited F.lvalueIsCopy st).2.statements.length + 1 := by
    rw [statement_length hs ht, (hs.visited st).2.statements,
      (shrinks_checkAll s st.lvalues).statements]
  have hrep := statement_replaced hs ht
  refine ⟨fun hx => hf.sub (hrep ▸ hx), fun {x} hx => ?_⟩
  rcases hf.rest hx with hx | ⟨hrec, hlt⟩
  · exact .inl (hrep ▸ hx)
  · rw [hlen] at hlt
    refine .inr ⟨?_, Nat.le_of_succ_le hlt⟩
    rcases hrec with ⟨n, hn⟩ | hle
    · rcases statement_cases hs ht with he | ⟨d, lv, src, h⟩
      · rw [he] at hn
        exact .inl ⟨n, hn⟩
      · rw [h.after] at hn
        by_cases hnd : n = d
        · subst hnd
          rw [insert_self (h.insertable hs).notRecorded] at hn
          exact .inr (Option.some.inj hn).le
        · rw [insert_of_ne hnd] at hn
          exact .inl ⟨n, hn⟩
    · rw [hlen] at hle
      exact .inr (Nat.le_of_succ_le hle)

end Statement

end Forwarding

end Mrustc.Mir
