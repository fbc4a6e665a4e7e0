import Mrustc.Mir.ForwardingSound
import Mrustc.Mir.Words

/-! # Runs of forwarded blocks

A run of the rewritten block goes with every run of the original one in which no statement changes what
a later replacement relies on.
-/

namespace Mrustc.Mir

open Memory Forwarding

/-- The elements at the indices that are not erased, where the list starts at `k`. -/
def keepIndices {α : Type} (erased : ℕ → Prop) [DecidablePred erased] : ℕ → List α → List α
  | _, [] => []
  | k, x :: xs => if erased k then keepIndices erased (k + 1) xs else x :: keepIndices erased (k + 1) xs

section Indices

variable {α : Type} {p q : ℕ → Prop} [DecidablePred p] [DecidablePred q] {xs : List α} {k r : ℕ}

theorem keepIndices_congr (h : ∀ i, k ≤ i → (p i ↔ q i)) : keepIndices p k xs = keepIndices q k xs := by
  induction xs generalizing k with
  | nil => rfl
  | cons x xs ih =>
    have ih := ih fun i hi => h i ((Nat.le_succ k).trans hi)
    by_cases hq : q k
    · rw [keepIndices, keepIndices, if_pos ((h k le_rfl).mpr hq), if_pos hq, ih]
    · rw [keepIndices, keepIndices, if_neg (mt (h k le_rfl).mp hq), if_neg hq, ih]

theorem keepIndices_none (h : ∀ i, ¬ p i) : keepIndices p k xs = xs := by
  induction xs generalizing k with
  | nil => rfl
  | cons x xs ih => rw [keepIndices, if_neg (h k), ih]

/-- Erasing one more index in front of those already erased. -/
theorem keepIndices_eraseIdx (hr : k ≤ r) (hq : ∀ i, q i → r < i) (hp : ∀ i, p i ↔ i = r ∨ q i) :
    (keepIndices q k xs).eraseIdx (r - k) = keepIndices p k xs := by
  induction xs generalizing k with
  | nil => rfl
  | cons x xs ih =>
    have hqk : ¬ q k := fun h => absurd (hq k h) (Nat.not_lt.mpr hr)
    rw [keepIndices, keepIndices, if_neg hqk]
    by_cases hk : k = r
    · subst hk
      rw [if_pos ((hp k).mpr (.inl rfl)), Nat.sub_self, List.eraseIdx_cons_zero]
      refine keepIndices_congr fun i hi => ?_
      rw [hp i]
      exact ⟨.inr, fun h => h.resolve_left (Nat.ne_of_gt hi)⟩
    · have hlt : k < r := lt_of_le_of_ne hr hk
      have hpk : ¬ p k := fun h => ((hp k).mp h).elim hk hqk
      rw [if_neg hpk, ← ih (Nat.succ_le_of_lt hlt)]
      obtain ⟨d, rfl⟩ := Nat.exists_eq_add_of_lt hlt
      have h1 : k + d + 1 - k = d + 1 := by omega
      have h2 : k + d + 1 - (k + 1) = d := by omega
      rw [h1, h2, List.eraseIdx_cons_succ]

theorem foldr_eraseIdx {is : List ℕ} (h : is.Pairwise (· < ·)) :
    is.foldr (fun i xs => xs.eraseIdx i) xs = keepIndices (· ∈ is) 0 xs := by
  induction is with
  | nil => exact (keepIndices_none fun i => List.not_mem_nil).symm
  | cons i is ih =>
    obtain ⟨hi, his⟩ := List.pairwise_cons.mp h
    rw [List.foldr_cons, ih his]
    exact keepIndices_eraseIdx (Nat.zero_le i) hi fun j => List.mem_cons

/-- Erasing from the back leaves the elements at the other indices. -/
theorem eraseIndices_eq_keepIndices {is : List ℕ} (h : is.Nodup) :
    eraseIndices xs is = keepIndices (· ∈ is) 0 xs := by
  have hnodup : (is.insertionSort (· ≤ ·)).Nodup := (List.perm_insertionSort _ is).nodup_iff.mpr h
  have hsorted : (is.insertionSort (· ≤ ·)).Pairwise (· < ·) :=
    ((List.pairwise_insertionSort (· ≤ ·) is).and hnodup).imp fun h => lt_of_le_of_ne h.1 h.2
  rw [eraseIndices, List.foldl_reverse, foldr_eraseIdx hsorted]
  exact keepIndices_congr fun i _ => List.mem_insertionSort _

end Indices

variable {T P B K π E : Type} [Contents K π] [DecidableEq B] {I : Interp T P B K π E}
  {F : Frame T P B} {uses : Set (ℕ × ℕ)} {s : Forwarding T P} {k : ℕ} {m m' m₁ m₁' : B → K}
  {st : Statement T P (LValue P)} {ev : Event T P B K π E} {fl fl₁ : ℕ → Bool}

/-- A copy that is recorded leaves the value of the source in the local. -/
theorem step_copied {d : ℕ} {src : LValue P} (hroot : src.root ≠ .local_ d) (hidx : d ∉ src.indexLocals)
    (hderef : src.hasDeref = false) (hcopy : F.lvalueIsCopy src = true)
    (he : I.step F ⟨m, fl⟩ (.assign (.newLocal d) (.use src)) = some (ev, ⟨m₁, fl₁⟩)) :
    ∃ p v rv, ev = .assign ⟨F.base (.local_ d), []⟩ rv v ∧ I.place F m₁ src = some ⟨F.base src.root, p⟩ ∧
      Contents.get p (m₁ (F.base src.root)) = v := by
  simp only [Interp.step, RValue.visit, bind, pure, Option.bind_eq_some_iff, Option.some.injEq] at he
  obtain ⟨⟨rv, mr⟩, ⟨⟨v, mr₀⟩, hop, hrv⟩, v', hval, pl', hpl', he⟩ := he
  cases hrv
  cases hval
  cases hpl'
  simp only [Prod.mk.injEq, State.mk.injEq] at he
  obtain ⟨rfl, rfl, rfl⟩ := he
  obtain ⟨⟨b, p⟩, hpl, hload, rfl⟩ := Interp.operand_move_eq_some.mp hop
  rw [if_pos hcopy]
  have hnd := LValue.hasDeref_eq_false.mp hderef
  have hb : b = F.base src.root := Interp.unwraps_base hnd hpl
  subst hb
  have hkept : store m ⟨F.base (.local_ d), []⟩ v (F.base src.root) = m (F.base src.root) :=
    store_of_ne (F.base_ne hroot)
  have hplace : I.place F (store m ⟨F.base (.local_ d), []⟩ v) src = I.place F m src := by
    refine Interp.unwraps_congr hnd fun l hl => store_of_ne (F.base_ne fun h => hidx ?_)
    cases h
    exact LValue.mem_indexLocals.mpr hl
  exact ⟨p, v, .use v, rfl, hplace.trans hpl,
    (congrArg (Contents.get p) hkept).trans (load_eq_some.mp hload).2⟩

theorem step_assign_local {d : ℕ} {src : RValue T P (LValue P)}
    (he : I.step F ⟨m, fl⟩ (.assign (.newLocal d) src) = some (ev, ⟨m₁, fl₁⟩)) :
    ∃ rv v, ev = .assign ⟨F.base (.local_ d), []⟩ rv v ∧ m₁ (F.base (.local_ d)) = v := by
  simp only [Interp.step, bind, pure, Option.bind_eq_some_iff, Option.some.injEq] at he
  obtain ⟨⟨rv, mr⟩, -, v, -, pl, hpl, he⟩ := he
  cases hpl
  simp only [Prod.mk.injEq, State.mk.injEq] at he
  obtain ⟨rfl, rfl, rfl⟩ := he
  exact ⟨rv, v, rfl, store_whole⟩

variable [DecidableEq P]

/-- A statement whose assignment stays: the rewritten one does the same. -/
theorem step_kept (hs : s.Wf F) (hk : s.statements.length = k) (ht : st.WellTyped F)
    (hf : (s.statement F.lvalueIsCopy st).LeadsTo uses)
    (h : Tracks I F uses (s.checkAll st.lvalues) k m m')
    (hcalm : CalmStep I F uses (s.checkAll st.lvalues) k m st ev)
    (he : I.step F ⟨m, fl⟩ st = some (ev, ⟨m₁, fl₁⟩))
    (hrem : ¬ (s.statement F.lvalueIsCopy st).Removed uses F k) :
    ∃ m₁', I.step F ⟨m', fl⟩ (s.visited F.lvalueIsCopy st).1 = some (ev, ⟨m₁', fl₁⟩) ∧
      Tracks I F uses (s.statement F.lvalueIsCopy st) (k + 1) m₁ m₁' := by
  obtain ⟨m₁', he', h'⟩ := step_visited hs hk ht hf h hcalm he
  have hv := hs.visited st
  refine ⟨m₁', he', ?_⟩
  rcases statement_cases hs ht with hst | ⟨d, lv, src, hrec⟩
  · rw [hst]
    exact h'.push hv.1 _
  · have hvlen : (s.visited F.lvalueIsCopy st).2.statements.length = k := by
      rw [hv.2.statements, (shrinks_checkAll s st.lvalues).statements, hk]
    have hassign : (s.statement F.lvalueIsCopy st).Assigns k d src := by
      rw [hrec.after, ← hvlen]
      exact hrec.assigns_push
    rw [hrec.after]
    refine (h'.push hv.1 _).insert (hrec.insertable hs).notRecorded hrec.assigns_push.source ?_
    rintro ⟨j, -, hj⟩
    rw [hvlen] at hj
    have hd : F.lvalueIsCopy (.newLocal d) = true := by
      by_contra hd
      exact hrem ⟨d, src, hassign, by simpa using hd, j, hj⟩
    have hcopy : F.lvalueIsCopy src = true := by
      rw [Frame.lvalueIsCopy, hrec.fits.typed]
      exact hd
    rw [hrec.rewritten] at he'
    rw [hrec.assigns] at he
    obtain ⟨p, v, rv, hev, hplace, hget⟩ :=
      step_copied hrec.root_ne hrec.notIndex hrec.noDeref hcopy he'
    obtain ⟨rv', v', hev', hv'⟩ := step_assign_local he
    rw [hev] at hev'
    cases hev'
    refine ⟨p, hplace, (hv'.trans hget.symm).le, fun hn => ?_⟩
    rw [hd] at hn
    cases hn

namespace Forwarding

omit [DecidableEq B] in
theorem statement_statements (hs : s.Wf F) (ht : st.WellTyped F) :
    (s.statement F.lvalueIsCopy st).statements = s.statements ++ [(s.visited F.lvalueIsCopy st).1] := by
  have hv : (s.visited F.lvalueIsCopy st).2.statements = s.statements :=
    (hs.visited st).2.statements.trans (shrinks_checkAll s st.lvalues).statements
  rcases statement_cases hs ht with h | ⟨d, lv, src, hrec⟩
  · rw [h, push, hv]
  · rw [hrec.after, insert, push, hv]

omit [DecidableEq B] in
theorem LeadsTo.before (hs : s.Wf F) (ht : st.WellTyped F)
    (hf : (s.statement F.lvalueIsCopy st).LeadsTo uses) : s.LeadsTo uses :=
  ((hs.visited st).2.leadsTo (hf.visited hs ht)).grow (shrinks_checkAll s st.lvalues)

omit [DecidableEq B] in
theorem LeadsTo.start {sts : List (Statement T P (LValue P))} (hs : s.Wf F)
    (ht : ∀ st ∈ sts, st.WellTyped F) (hf : (sts.foldl (statement F.lvalueIsCopy) s).LeadsTo uses) :
    s.LeadsTo uses := by
  induction sts generalizing s with
  | nil => exact hf
  | cons st sts ih =>
    have hst := ht st List.mem_cons_self
    exact (ih (hs.statement hst) (fun st h => ht st (List.mem_cons_of_mem _ h)) hf).before hs hst

omit [DecidableEq B] in
theorem Wf.statements {sts : List (Statement T P (LValue P))} (hs : s.Wf F)
    (ht : ∀ st ∈ sts, st.WellTyped F) : (sts.foldl (Forwarding.statement F.lvalueIsCopy) s).Wf F := by
  induction sts generalizing s with
  | nil => exact hs
  | cons st sts ih =>
    exact ih (hs.statement (ht st List.mem_cons_self)) fun st h => ht st (List.mem_cons_of_mem _ h)

omit [DecidableEq B] in
/-- Later statements are put behind the ones that are there. -/
theorem statements_append {sts : List (Statement T P (LValue P))} (hs : s.Wf F)
    (ht : ∀ st ∈ sts, st.WellTyped F) : ∃ ys, (sts.foldl (statement F.lvalueIsCopy) s).statements =
      s.statements ++ ys ∧ ys.length = sts.length := by
  induction sts generalizing s with
  | nil => exact ⟨[], (List.append_nil _).symm, rfl⟩
  | cons st sts ih =>
    have hst := ht st List.mem_cons_self
    obtain ⟨ys, hys, hlen⟩ := ih (hs.statement hst) fun st h => ht st (List.mem_cons_of_mem _ h)
    refine ⟨(s.visited F.lvalueIsCopy st).1 :: ys, ?_, congrArg Nat.succ hlen⟩
    rw [List.foldl_cons, hys, statement_statements hs hst, List.append_assoc, List.singleton_append]

omit [DecidableEq B] in
/-- Whether an assignment is deleted does not depend on what comes after it, the uses apart. -/
theorem removed_statements {sts : List (Statement T P (LValue P))} (hs : s.Wf F)
    (ht : ∀ st ∈ sts, st.WellTyped F) (hk : k < s.statements.length) :
    (sts.foldl (statement F.lvalueIsCopy) s).Removed uses F k ↔ s.Removed uses F k := by
  obtain ⟨ys, hys, -⟩ := statements_append hs ht
  have hassigns (n : ℕ) (src : LValue P) :
      (sts.foldl (statement F.lvalueIsCopy) s).Assigns k n src ↔ s.Assigns k n src := by
    rw [Assigns, Assigns, hys, List.getElem?_append_left hk]
  rw [Removed, Removed]
  simp only [hassigns]

end Forwarding

/-- What every statement of the original run, and the terminator, leave alone. -/
def CalmRun (I : Interp T P B K π E) (F : Frame T P B) (uses : Set (ℕ × ℕ)) (t : Terminator T P (LValue P)) :
    Forwarding T P → ℕ → State B K → List (Statement T P (LValue P)) → Prop
  | s, k, σ, [] => Calm I F uses (s.checkAll t.lvalues) k σ.mem t.lvalues t.paramBorrows
  | s, k, σ, st :: sts => ∀ ev σ₁, I.step F σ st = some (ev, σ₁) →
    CalmStep I F uses (s.checkAll st.lvalues) k σ.mem st ev ∧
      CalmRun I F uses t (s.statement F.lvalueIsCopy st) (k + 1) σ₁ sts

/-- The statements that are left of the rewritten ones do what the original ones do, with the events of
those that were deleted left out. -/
theorem steps_forwarded {sts : List (Statement T P (LValue P))} {t : Terminator T P (LValue P)}
    {removed : ℕ → Prop} [DecidablePred removed] {evs : List (Event T P B K π E)} {σ₁ : State B K}
    (hs : s.Wf F) (hk : s.statements.length = k) (ht : ∀ st ∈ sts, st.WellTyped F)
    (hf : (sts.foldl (statement F.lvalueIsCopy) s).LeadsTo uses)
    (hr : ∀ i, removed i ↔ (sts.foldl (statement F.lvalueIsCopy) s).Removed uses F i)
    (h : Tracks I F uses s k m m') (hcalm : CalmRun I F uses t s k ⟨m, fl⟩ sts)
    (he : I.steps F ⟨m, fl⟩ sts = some (evs, σ₁)) :
    ∃ ys m₁', (sts.foldl (statement F.lvalueIsCopy) s).statements = s.statements ++ ys ∧
      I.steps F ⟨m', fl⟩ (keepIndices removed k ys) =
        some (keepIndices removed k evs, ⟨m₁', σ₁.flags⟩) ∧
      Tracks I F uses (sts.foldl (statement F.lvalueIsCopy) s) (k + sts.length) σ₁.mem m₁' ∧
      Calm I F uses ((sts.foldl (statement F.lvalueIsCopy) s).checkAll t.lvalues) (k + sts.length)
        σ₁.mem t.lvalues t.paramBorrows := by
  induction sts generalizing s k m m' fl evs with
  | nil =>
    cases he
    exact ⟨[], m', (List.append_nil _).symm, rfl, h, hcalm⟩
  | cons st sts ih =>
    have hst := ht st List.mem_cons_self
    have hsts : ∀ st ∈ sts, st.WellTyped F := fun st h => ht st (List.mem_cons_of_mem _ h)
    have hs' := hs.statement hst
    have hlen : (s.statement F.lvalueIsCopy st).statements.length = k + 1 := by
      rw [statement_length hs hst, hk]
    have hf' : (s.statement F.lvalueIsCopy st).LeadsTo uses := hf.start hs' hsts
    have hrk : removed k ↔ (s.statement F.lvalueIsCopy st).Removed uses F k :=
      (hr k).trans (removed_statements hs' hsts (hlen ▸ Nat.lt_succ_self k))
    simp only [Interp.steps, bind, pure, Option.bind_eq_some_iff, Option.some.injEq] at he
    obtain ⟨⟨ev, m₁, fl₁⟩, hev, ⟨evs', σ₂⟩, hevs, he⟩ := he
    cases he
    obtain ⟨hcalm₁, hcalm'⟩ := hcalm ev ⟨m₁, fl₁⟩ hev
    have h₀ : Tracks I F uses (s.checkAll st.lvalues) k m m' :=
      h.shrink hs (shrinks_checkAll s st.lvalues) ((hs.visited st).2.leadsTo (hf'.visited hs hst))
    by_cases hrem : removed k
    · obtain ⟨rfl, h'⟩ := step_removed hs hk hst hf' h₀ hev (hrk.mp hrem)
      obtain ⟨ys, m₁', hys, hrun, htracks, hc⟩ := ih hs' hlen hsts hf hr h' hcalm' hevs
      refine ⟨(s.visited F.lvalueIsCopy st).1 :: ys, m₁', ?_, ?_, ?_, ?_⟩
      · rw [List.foldl_cons, hys, statement_statements hs hst, List.append_assoc,
          List.singleton_append]
      · rw [keepIndices, keepIndices, if_pos hrem, if_pos hrem]
        exact hrun
      · rw [List.length_cons, Nat.add_comm sts.length 1, ← Nat.add_assoc]
        exact htracks
      · rw [List.length_cons, Nat.add_comm sts.length 1, ← Nat.add_assoc]
        exact hc
    · obtain ⟨m₂', hstep, h'⟩ := step_kept hs hk hst hf' h₀ hcalm₁ hev (mt hrk.mpr hrem)
      obtain ⟨ys, m₁', hys, hrun, htracks, hc⟩ := ih hs' hlen hsts hf hr h' hcalm' hevs
      refine ⟨(s.visited F.lvalueIsCopy st).1 :: ys, m₁', ?_, ?_, ?_, ?_⟩
      · rw [List.foldl_cons, hys, statement_statements hs hst, List.append_assoc,
          List.singleton_append]
      · rw [keepIndices, keepIndices, if_neg hrem, if_neg hrem]
        simp only [Interp.steps, bind, pure, Option.bind_eq_some_iff, Option.some.injEq]
        exact ⟨(ev, ⟨m₂', fl₁⟩), hstep, (_, _), hrun, rfl⟩
      · rw [List.length_cons, Nat.add_comm sts.length 1, ← Nat.add_assoc]
        exact htracks
      · rw [List.length_cons, Nat.add_comm sts.length 1, ← Nat.add_assoc]
        exact hc

/-- What is asked of the terminator of a valid block. -/
structure Terminator.WellTyped (F : Frame T P B) (t : Terminator T P (LValue P)) : Prop where
  index {lv : LValue P} {l : ℕ} (h : lv ∈ t.mentioned) (hl : l ∈ lv.indexLocals) :
    F.lvalueIsCopy (.newLocal l) = true
  typed {lv : LValue P} (h : lv ∈ t.mentioned) : (F.lvalueType lv).isSome = true

omit [DecidableEq B] [DecidableEq P] in
/-- When all uses are replaced, nothing is left to be moved. -/
theorem not_pending_of_replaced {b : B} (hs : s.Wf F) (huses : ∀ x ∈ uses, x ∈ s.replaced) :
    ¬ Pending uses F s k b := by
  rintro ⟨n, i, src, ⟨hr, j, -, hj⟩, hn, -⟩
  exact hs.unlogged hr.1 hn j (huses _ hj)

section Leave

variable {t : Terminator T P (LValue P)} {exit : Exit T P B K π} {σ₁ : State B K}

omit [DecidableEq B] in
theorem Forwarding.Wf.terminator (hs : s.Wf F) (t : Terminator T P (LValue P)) :
    (s.terminator F.lvalueIsCopy t).2.Wf F ∧
      Evolves (s.checkAll t.lvalues) (s.terminator F.lvalueIsCopy t).2 := by
  have hs₀ := hs.shrink (shrinks_checkAll s t.lvalues)
  have hvis := t.visit_preserves (replacer_preserves (s.checkAll t.lvalues) t.lvalues)
    ⟨hs₀, Evolves.refl _⟩
  cases t with
  | switch val targets => exact ⟨hs₀, Evolves.refl _⟩
  | _ => exact hvis

/-- The visitor of a terminator simulates the original one. -/
theorem terminator_simulates (hk : s.statements.length = k) (ht : t.WellTyped F)
    (hcalm : Calm I F uses (s.checkAll t.lvalues) k m t.lvalues t.paramBorrows) :
    (replacer F.lvalueIsCopy).Simulates (I.operands F)
      (fun s' t' t'' => s'.Wf F ∧ Evolves (s.checkAll t.lvalues) s' ∧ (∀ b, t' b ≤ m b) ∧
        Tracks I F uses s' k t' t'')
      (fun s' => s'.Wf F → s'.LeadsTo uses) t.lvalues t.paramBorrows :=
  replacer_simulates (by rw [(shrinks_checkAll s t.lvalues).statements, hk])
    (fun _ h _ => ht.index h) (fun _ => ht.typed)
    (fun _ _ h _ _ _ hr => invalidates_of_checkAll hr h) hcalm

variable {retBlock panicBlock : BasicBlockId} {retVal : LValue P} {fcn : CallTarget T P (LValue P)}
  {args : List (Param P (LValue P))}

omit [DecidableEq B] in
/-- A call writes its result where it did, and what it reads is rewritten in order. -/
theorem terminator_call (hs : s.Wf F) (hc : t = .call retBlock panicBlock retVal fcn args) :
    s.terminator F.lvalueIsCopy t = (.call retBlock panicBlock retVal
        (Id.run (fcn.visit (replacer F.lvalueIsCopy) (s.checkAll t.lvalues))).1
        (Id.run (visitParams (replacer F.lvalueIsCopy) .move
          (Id.run (fcn.visit (replacer F.lvalueIsCopy) (s.checkAll t.lvalues))).2 args)).1,
        (Id.run (visitParams (replacer F.lvalueIsCopy) .move
          (Id.run (fcn.visit (replacer F.lvalueIsCopy) (s.checkAll t.lvalues))).2 args)).2) := by
  have hs₀ := hs.shrink (shrinks_checkAll s t.lvalues)
  have hdst : (retVal, .write) ∈ t.lvalues := by
    rw [hc]
    exact List.mem_append_right _ List.mem_cons_self
  have hfcn := fcn.visit_preserves (replacer_preserves (s.checkAll t.lvalues) _) ⟨hs₀, Evolves.refl _⟩
  have hargs := visitParams_preserves (replacer_preserves (s.checkAll t.lvalues) (args.flatMap
    (Param.lvalues .move))) hfcn
  have hterm : s.terminator F.lvalueIsCopy t = (.call retBlock panicBlock (applyReplacements
        F.lvalueIsCopy (Id.run (visitParams (replacer F.lvalueIsCopy) .move (Id.run (fcn.visit
          (replacer F.lvalueIsCopy) (s.checkAll t.lvalues))).2 args)).2 retVal .write).1
      (Id.run (fcn.visit (replacer F.lvalueIsCopy) (s.checkAll t.lvalues))).1
      (Id.run (visitParams (replacer F.lvalueIsCopy) .move
        (Id.run (fcn.visit (replacer F.lvalueIsCopy) (s.checkAll t.lvalues))).2 args)).1,
      (applyReplacements F.lvalueIsCopy (Id.run (visitParams (replacer F.lvalueIsCopy) .move
        (Id.run (fcn.visit (replacer F.lvalueIsCopy) (s.checkAll t.lvalues))).2 args)).2 retVal
        .write).2) := by
    rw [hc]
    rfl
  rw [hterm, write_visited hs hdst hargs.2]

theorem leave_call (hc : t = .call retBlock panicBlock retVal fcn args) (hs : s.Wf F)
    (hk : s.statements.length = k) (ht : t.WellTyped F)
    (hf : (s.terminator F.lvalueIsCopy t).2.LeadsTo uses)
    (h : Tracks I F uses (s.checkAll t.lvalues) k m m')
    (hcalm : Calm I F uses (s.checkAll t.lvalues) k m t.lvalues t.paramBorrows)
    (he : I.leave F ⟨m, fl⟩ t = some (exit, σ₁)) :
    ∃ m₁', I.leave F ⟨m', fl⟩ (s.terminator F.lvalueIsCopy t).1 = some (exit, ⟨m₁', σ₁.flags⟩) ∧
      Tracks I F uses (s.terminator F.lvalueIsCopy t).2 k σ₁.mem m₁' := by
  have hs₀ := hs.shrink (shrinks_checkAll s t.lvalues)
  have hsim := terminator_simulates hk ht hcalm
  have hlvs : fcn.lvalues ++ args.flatMap (Param.lvalues .move) ++ [(retVal, .write)] ⊆ t.lvalues := by
    rw [hc]
    exact List.Subset.refl _
  have hbs : args.flatMap Param.borrows ⊆ t.paramBorrows := by
    rw [hc]
    exact List.Subset.refl _
  rw [List.append_subset, List.append_subset] at hlvs
  obtain ⟨⟨hfcns, hargss⟩, hret⟩ := hlvs
  have hdst : (retVal, .write) ∈ t.lvalues := hret List.mem_cons_self
  have hidx : ∀ l ∈ retVal.indexLocals, F.lvalueIsCopy (.newLocal l) = true := fun _ =>
    ht.index (List.mem_append_left _ (List.mem_map.mpr ⟨_, hdst, rfl⟩))
  rw [terminator_call hs hc] at hf ⊢
  rw [hc] at he
  simp only [Interp.leave, bind, pure, Option.bind_eq_some_iff, Option.some.injEq] at he
  obtain ⟨⟨fcn', m₁⟩, hfcn, ⟨args', m₂⟩, hargs, pl, hpl, he⟩ := he
  cases he
  obtain ⟨m₁', hfcn', hQ⟩ := hsim.callTarget hfcns ⟨hs₀, Evolves.refl _, fun b => le_rfl, h⟩
    (hsim.backParams .move args fun _ => hf) hfcn
  obtain ⟨m₂', hargs', -, hev, hle, htr⟩ := hsim.params hargss hbs hQ (fun _ => hf) hargs
  have hpl' := htr.write_place hs hidx hcalm hev hle hdst hpl
  refine ⟨m₂', ?_, htr⟩
  simp only [Interp.leave, bind, pure, Option.bind_eq_some_iff, Option.some.injEq]
  exact ⟨(fcn', m₁'), hfcn', (args', m₂'), hargs', pl, hpl', rfl⟩

/-- The rewritten terminator reads the same values and leaves the same way. -/
theorem leave_forwarded (hs : s.Wf F) (hk : s.statements.length = k) (ht : t.WellTyped F)
    (hf : (s.terminator F.lvalueIsCopy t).2.LeadsTo uses)
    (huses : ∀ x ∈ uses, x ∈ (s.terminator F.lvalueIsCopy t).2.replaced)
    (h : Tracks I F uses s k m m')
    (hcalm : Calm I F uses (s.checkAll t.lvalues) k m t.lvalues t.paramBorrows)
    (he : I.leave F ⟨m, fl⟩ t = some (exit, σ₁)) :
    ∃ m₁', I.leave F ⟨m', fl⟩ (s.terminator F.lvalueIsCopy t).1 = some (exit, ⟨m₁', σ₁.flags⟩) ∧
      ∀ b, σ₁.mem b ≤ m₁' b := by
  have hs₀ := hs.shrink (shrinks_checkAll s t.lvalues)
  have hv := hs.terminator t
  have h₀ : Tracks I F uses (s.checkAll t.lvalues) k m m' :=
    h.shrink hs (shrinks_checkAll s t.lvalues) (hv.2.leadsTo hf)
  have hend {m₁ m₁' : B → K} (h : Tracks I F uses (s.terminator F.lvalueIsCopy t).2 k m₁ m₁') (b : B) :
      m₁ b ≤ m₁' b := h.le (not_pending_of_replaced hv.1 huses)
  have hsim := terminator_simulates hk ht hcalm
  -- The value that a jump is decided by is only read.
  have hread {lv : LValue P} {v : K} {m₁ : B → K} (hlv : (lv, .read) ∈ t.lvalues)
      (hfin : (applyReplacements F.lvalueIsCopy (s.checkAll t.lvalues) lv .read).2 =
        (s.terminator F.lvalueIsCopy t).2) (he : I.operand F m lv .read = some (v, m₁)) :
      I.operand F m' (applyReplacements F.lvalueIsCopy (s.checkAll t.lvalues) lv .read).1 .read =
        some (v, m') ∧ ∀ b, m b ≤ m' b := by
    obtain ⟨pl, hpl, hload, rfl⟩ := Interp.operand_read_eq_some.mp he
    obtain ⟨m₁', he', -, -, -, htr⟩ := hsim.lvalue hlv
      ⟨hs₀, Evolves.refl _, fun b => le_rfl, h₀⟩ (fun _ => hfin ▸ hf) he
    obtain ⟨pl', hpl', hload', rfl⟩ := Interp.operand_read_eq_some.mp he'
    exact ⟨he', hend (hfin ▸ htr)⟩
  cases t with
  | incomplete | return_ | diverge | goto bb | panic dst =>
    cases he
    exact ⟨m', rfl, hend h₀⟩
  | if_ cond bbTrue bbFalse =>
    simp only [Interp.leave, bind, pure, Option.bind_eq_some_iff, Option.some.injEq] at he
    obtain ⟨⟨v, m₁⟩, hv, he⟩ := he
    cases he
    obtain ⟨hop, hle⟩ := hread List.mem_cons_self rfl hv
    have hvis : (s.terminator F.lvalueIsCopy (.if_ cond bbTrue bbFalse)).1 = .if_ (applyReplacements
        F.lvalueIsCopy (s.checkAll [(cond, .read)]) cond .read).1 bbTrue bbFalse := rfl
    rw [hvis]
    simp only [Interp.leave, bind, pure, Option.bind_eq_some_iff, Option.some.injEq]
    exact ⟨m', ⟨(v, m'), hop, rfl⟩, hle⟩
  | switch val targets =>
    simp only [Interp.leave, bind, pure, Option.bind_eq_some_iff, Option.some.injEq] at he
    obtain ⟨⟨v, m₁⟩, hv, he⟩ := he
    cases he
    have hle : ∀ b, m b ≤ m' b := hend h₀
    obtain ⟨pl, hpl, hload, -⟩ := Interp.operand_read_eq_some.mp hv
    have hpl' : I.place F m' val = some pl :=
      (Interp.unwraps_mono (hle _) (fun l _ => hle _) (fun b _ => hle b) hpl).1
    have hop : I.operand F m' val .read = some (v, m') :=
      Interp.operand_read_eq_some.mpr ⟨pl, hpl', load_mono (hle _) hload, rfl⟩
    have hvis : (s.terminator F.lvalueIsCopy (.switch val targets)).1 = .switch val targets := rfl
    rw [hvis]
    simp only [Interp.leave, bind, pure, Option.bind_eq_some_iff, Option.some.injEq]
    exact ⟨m', ⟨(v, m'), hop, rfl⟩, hle⟩
  | switchValue val defTarget targets values =>
    simp only [Interp.leave, bind, pure, Option.bind_eq_some_iff, Option.some.injEq] at he
    obtain ⟨⟨v, m₁⟩, hv, he⟩ := he
    cases he
    obtain ⟨hop, hle⟩ := hread List.mem_cons_self rfl hv
    have hvis : (s.terminator F.lvalueIsCopy (.switchValue val defTarget targets values)).1 =
        .switchValue (applyReplacements F.lvalueIsCopy (s.checkAll [(val, .read)]) val .read).1 defTarget
          targets values := rfl
    rw [hvis]
    simp only [Interp.leave, bind, pure, Option.bind_eq_some_iff, Option.some.injEq]
    exact ⟨m', ⟨(v, m'), hop, rfl⟩, hle⟩
  | call retBlock panicBlock retVal fcn args =>
    obtain ⟨m₁', hleave, htr⟩ := leave_call rfl hs hk ht hf h₀ hcalm he
    exact ⟨m₁', hleave, hend htr⟩

end Leave

section Forwards

/-- One of the lvalues reads a recorded local in a way that is rewritten. -/
def Forwarding.Reads (isCopy : LValue P → Bool) (s : Forwarding T P) (lvs : List (LValue P × ValUsage))
    (i : ℕ) : Prop :=
  ∃ lv u n, (lv, u) ∈ lvs ∧ lv.root = .local_ n ∧ s.localAssignments n = some i ∧
    (isCopy (.newLocal n) = true ∨ lv = .newLocal n ∧ u = .move)

namespace BasicBlock

variable (isCopy : LValue P → Bool) (bb : BasicBlock T P (LValue P))

/-- The lvalues of the statement `j` or, behind the last one, of the terminator. Those of a jump table
stay as they are. -/
def lvaluesAt (j : ℕ) : List (LValue P × ValUsage) :=
  match bb.statements[j]? with
  | some st => st.lvalues
  | none =>
    match bb.terminator with
    | .switch _ _ => []
    | t => t.lvalues

/-- The variables of the pass before the statement `j`. -/
def before (j : ℕ) : Forwarding T P := (bb.statements.take j).foldl (statement isCopy) new

/-- The pairs `(i, j)` such that `j` reads the local assigned at `i`, which is still recorded there. -/
def forwards : Set (ℕ × ℕ) :=
  {x | ((bb.before isCopy x.2).checkAll (bb.lvaluesAt x.2)).Reads isCopy (bb.lvaluesAt x.2) x.1}

end BasicBlock

variable {lvs : List (LValue P × ValUsage)} {x : ℕ × ℕ} {bb : BasicBlock T P (LValue P)}

omit [DecidableEq B] [DecidableEq P] in
/-- What a visit logs are reads of what was recorded before it. -/
theorem replacer_logs (s₀ : Forwarding T P) (lvs : List (LValue P × ValUsage)) :
    (replacer F.lvalueIsCopy).Preserves (fun s => (s.Wf F ∧ Evolves s₀ s) ∧ ∀ x ∈ s.replaced,
      x ∈ s₀.replaced ∨ s₀.Reads F.lvalueIsCopy lvs x.1 ∧ x.2 = s₀.statements.length) lvs where
  lvalue {s lv u} hlv := by
    rintro ⟨⟨hs, hev⟩, hlog⟩
    refine ⟨(replacer_preserves s₀ lvs).lvalue hlv ⟨hs, hev⟩, fun x hx => ?_⟩
    have hnew {n i : ℕ} (hroot : lv.root = .local_ n) (hr : s.localAssignments n = some i)
        (hread : F.lvalueIsCopy (.newLocal n) = true ∨ lv = .newLocal n ∧ u = .move)
        (hx : x ∈ s.replaced ++ [(i, s.statements.length)]) :
        x ∈ s₀.replaced ∨ s₀.Reads F.lvalueIsCopy lvs x.1 ∧ x.2 = s₀.statements.length := by
      rcases List.mem_append.mp hx with hx | hx
      · exact hlog x hx
      · cases List.mem_singleton.mp hx
        exact .inr ⟨⟨lv, u, n, hlv, hroot, hev.records hr, hread⟩, congrArg List.length hev.statements⟩
    change x ∈ (applyReplacements F.lvalueIsCopy s lv u).2.replaced at hx
    rcases applyReplacements_cases hs lv u with ⟨-, happ⟩ | ⟨n, i, src, hroot, hr, hcase⟩
    · rw [happ] at hx
      exact hlog x hx
    · rcases hcase with ⟨hn, happ⟩ | ⟨-, hlv', hu, happ⟩ | ⟨-, happ⟩
      · rw [happ] at hx
        exact hnew hroot hr.1 (.inl hn) hx
      · rw [happ] at hx
        exact hnew hroot hr.1 (.inr ⟨hlv', hu⟩) hx
      · rw [happ] at hx
        exact hlog x hx
  paramBorrow _ h := h

omit [DecidableEq B] in
theorem statement_logs (hs : s.Wf F) (ht : st.WellTyped F)
    (hx : x ∈ (s.statement F.lvalueIsCopy st).replaced) : x ∈ s.replaced ∨
      (s.checkAll st.lvalues).Reads F.lvalueIsCopy st.lvalues x.1 ∧ x.2 = s.statements.length := by
  have hsh := shrinks_checkAll s st.lvalues
  rw [statement_replaced hs ht] at hx
  have hvis := st.visit_preserves (replacer_logs (s.checkAll st.lvalues) st.lvalues)
    ⟨⟨hs.shrink hsh, Evolves.refl _⟩, fun _ => .inl⟩
  exact (hvis.2 x hx).imp (fun h => hsh.replaced ▸ h) fun h => ⟨h.1, hsh.statements ▸ h.2⟩

omit [DecidableEq B] in
theorem terminator_logs (hs : s.Wf F) {t : Terminator T P (LValue P)}
    (hx : x ∈ (s.terminator F.lvalueIsCopy t).2.replaced) : x ∈ s.replaced ∨
      (∀ val targets, t ≠ .switch val targets) ∧
      (s.checkAll t.lvalues).Reads F.lvalueIsCopy t.lvalues x.1 ∧ x.2 = s.statements.length := by
  have hsh := shrinks_checkAll s t.lvalues
  have hvis := t.visit_preserves (replacer_logs (s.checkAll t.lvalues) t.lvalues)
    ⟨⟨hs.shrink hsh, Evolves.refl _⟩, fun _ => .inl⟩
  have hlogs (hx : x ∈ (Id.run (t.visit (replacer F.lvalueIsCopy) (s.checkAll t.lvalues))).2.replaced) :
      x ∈ s.replaced ∨ (s.checkAll t.lvalues).Reads F.lvalueIsCopy t.lvalues x.1 ∧
        x.2 = s.statements.length :=
    (hvis.2 x hx).imp (fun h => hsh.replaced ▸ h) fun h => ⟨h.1, hsh.statements ▸ h.2⟩
  cases t with
  | switch val targets => exact .inl (hsh.replaced ▸ hx)
  | _ => exact (hlogs hx).imp_right fun h => ⟨fun _ _ h => (nomatch h), h⟩

/-- The statements and the terminator of a block of a valid function. -/
structure BasicBlock.WellTyped (F : Frame T P B) (bb : BasicBlock T P (LValue P)) : Prop where
  statement {st : Statement T P (LValue P)} (h : st ∈ bb.statements) : st.WellTyped F
  terminator : bb.terminator.WellTyped F

omit [DecidableEq B] [DecidableEq P] in
theorem BasicBlock.wellTyped_iff : bb.WellTyped F ↔ (∀ st ∈ bb.statements, st.WellTyped F) ∧
    ∀ lv ∈ bb.terminator.mentioned, (∀ l ∈ lv.indexLocals, F.lvalueIsCopy (.newLocal l) = true) ∧
      (F.lvalueType lv).isSome = true := by
  constructor
  · intro h
    exact ⟨fun _ => h.statement, fun lv hlv =>
      ⟨fun l hl => h.terminator.index hlv hl, h.terminator.typed hlv⟩⟩
  · rintro ⟨h, ht⟩
    exact ⟨fun {st} => h st, fun hlv hl => (ht _ hlv).1 _ hl, fun hlv => (ht _ hlv).2⟩

instance [DecidableEq T] (F : Frame T P B) (bb : BasicBlock T P (LValue P)) :
    Decidable (bb.WellTyped F) := decidable_of_iff _ BasicBlock.wellTyped_iff.symm

omit [DecidableEq B] in
theorem BasicBlock.before_succ {j : ℕ} (h : bb.statements[j]? = some st) (isCopy : LValue P → Bool) :
    bb.before isCopy (j + 1) = (bb.before isCopy j).statement isCopy st := by
  rw [BasicBlock.before, List.take_add_one, h, Option.toList_some, List.foldl_append]
  rfl

omit [DecidableEq B] in
theorem BasicBlock.before_wf (hb : bb.WellTyped F) (j : ℕ) : (bb.before F.lvalueIsCopy j).Wf F :=
  wf_new.statements fun _ h => hb.statement (List.mem_of_mem_take h)

omit [DecidableEq B] in
theorem BasicBlock.before_length (hb : bb.WellTyped F) {j : ℕ} (hj : j ≤ bb.statements.length) :
    (bb.before F.lvalueIsCopy j).statements.length = j := by
  obtain ⟨ys, hys, hlen⟩ := statements_append wf_new fun st (h : st ∈ bb.statements.take j) =>
    hb.statement (List.mem_of_mem_take h)
  rw [BasicBlock.before, hys, new, List.nil_append, hlen, List.length_take, min_eq_left hj]

omit [DecidableEq B] in
theorem BasicBlock.before_logs (hb : bb.WellTyped F) {j : ℕ} (hj : j ≤ bb.statements.length)
    (hx : x ∈ (bb.before F.lvalueIsCopy j).replaced) : x ∈ bb.forwards F.lvalueIsCopy := by
  induction j with
  | zero => cases hx
  | succ j ih =>
    have hget : bb.statements[j]? = some bb.statements[j] := List.getElem?_eq_getElem hj
    rw [BasicBlock.before_succ hget] at hx
    rcases statement_logs (bb.before_wf hb j) (hb.statement (List.getElem_mem hj)) hx with hx | ⟨hr, hj'⟩
    · exact ih (Nat.le_of_succ_le hj) hx
    · rw [bb.before_length hb (Nat.le_of_succ_le hj)] at hj'
      change ((bb.before _ x.2).checkAll (bb.lvaluesAt x.2)).Reads _ (bb.lvaluesAt x.2) x.1
      rw [hj', BasicBlock.lvaluesAt, hget]
      exact hr

omit [DecidableEq B] in
/-- Every use that the pass logs reads a local whose assignment is recorded. -/
theorem BasicBlock.forwarded_logs (hb : bb.WellTyped F)
    (hx : x ∈ (forwarded F.lvalueIsCopy bb).2.replaced) : x ∈ bb.forwards F.lvalueIsCopy := by
  have hlen := bb.before_length hb le_rfl
  have hwf := bb.before_wf hb bb.statements.length
  have hbefore : forwarded F.lvalueIsCopy bb =
      (bb.before F.lvalueIsCopy bb.statements.length).terminator F.lvalueIsCopy bb.terminator := by
    rw [forwarded, BasicBlock.before, List.take_length]
  rw [hbefore] at hx
  rcases terminator_logs hwf hx with hx | ⟨hsw, hr, hj⟩
  · exact bb.before_logs hb le_rfl hx
  · rw [hlen] at hj
    have hat : bb.lvaluesAt x.2 = bb.terminator.lvalues := by
      have hnone : bb.statements[x.2]? = none := List.getElem?_eq_none hj.ge
      rw [BasicBlock.lvaluesAt, hnone]
      cases ht : bb.terminator with
      | switch val targets => exact absurd ht (hsw val targets)
      | _ => rfl
    change ((bb.before _ x.2).checkAll (bb.lvaluesAt x.2)).Reads _ (bb.lvaluesAt x.2) x.1
    rw [hat, hj]
    exact hr

end Forwards

section FewerUses

variable {uses' : Set (ℕ × ℕ)} {b : B} {t : Terminator T P (LValue P)} {lvs : List (LValue P × ValUsage)}
  {bs : List (LValue P)} {lv : LValue P} {u : ValUsage} {sts : List (Statement T P (LValue P))}
  {σ : State B K}

omit [DecidableEq B] [DecidableEq P] in
theorem Forwarding.Pending.uses_mono (hsub : uses ⊆ uses') (h : Pending uses F s k b) :
    Pending uses' F s k b := by
  obtain ⟨n, i, src, ⟨hr, j, hj, hu⟩, hn, hb⟩ := h
  exact ⟨n, i, src, ⟨hr, j, hj, hsub hu⟩, hn, hb⟩

omit [DecidableEq B] [DecidableEq P] in
theorem Forwarding.Spares.uses_mono (hsub : uses ⊆ uses') (h : Spares uses' F s k b) :
    Spares uses F s k b := by
  rintro n i src ⟨hr, j, hj, hu⟩
  exact h n i src ⟨hr, j, hj, hsub hu⟩

omit [DecidableEq B] [DecidableEq P] in
theorem Undisturbed.uses_mono (hsub : uses ⊆ uses') (h : Undisturbed I F uses' s k m lv u) :
    Undisturbed I F uses s k m lv u where
  reached hb hp := h.reached hb (hp.uses_mono hsub)
  moved hu hc hd hpl := (h.moved hu hc hd hpl).uses_mono hsub

omit [DecidableEq B] [DecidableEq P] in
theorem Calm.uses_mono (hsub : uses ⊆ uses') (h : Calm I F uses' s k m lvs bs) :
    Calm I F uses s k m lvs bs where
  operand hlv := (h.operand hlv).uses_mono hsub
  borrowed hlv := ⟨(h.borrowed hlv).1.uses_mono hsub, fun hp => (h.borrowed hlv).2 (hp.uses_mono hsub)⟩

omit [DecidableEq B] [DecidableEq P] in
theorem CalmStep.uses_mono (hsub : uses ⊆ uses') (h : CalmStep I F uses' s k m st ev) :
    CalmStep I F uses s k m st ev where
  calm := h.calm.uses_mono hsub
  written hpl := (h.written hpl).uses_mono hsub
  touched hb hp := h.touched hb (hp.uses_mono hsub)
  changed hb := (h.changed hb).uses_mono hsub

theorem CalmRun.uses_mono (hsub : uses ⊆ uses') (h : CalmRun I F uses' t s k σ sts) :
    CalmRun I F uses t s k σ sts := by
  induction sts generalizing s k σ with
  | nil => exact Calm.uses_mono hsub h
  | cons st sts ih =>
    intro ev σ₁ he
    obtain ⟨hstep, hrun⟩ := h ev σ₁ he
    exact ⟨hstep.uses_mono hsub, ih hrun⟩

end FewerUses

section Blocks

variable {bb : BasicBlock T P (LValue P)} {σ : State B K}

/-- The rewritten block does what the block does from a state: it runs with the same events, but for the
deleted assignments, leaves the same way, and its memory holds what the other one holds. -/
def ForwardingPreserves (I : Interp T P B K π E) (F : Frame T P B) (σ : State B K)
    (bb : BasicBlock T P (LValue P)) : Prop :=
  ∀ evs exit σ₁, I.block F σ bb = some (evs, exit, σ₁) →
    ∃ m₁', I.block F σ (deTemporary F.lvalueIsCopy bb) =
        some (eraseIndices evs (forwarded F.lvalueIsCopy bb).2.statementsToRemove, exit,
          ⟨m₁', σ₁.flags⟩) ∧ ∀ b, σ₁.mem b ≤ m₁' b

/-- No statement on the run of the block, nor its terminator, changes what the source of a recorded
local is found with, as long as the local is still read. -/
def BasicBlock.Calm (I : Interp T P B K π E) (F : Frame T P B) (σ : State B K)
    (bb : BasicBlock T P (LValue P)) : Prop :=
  CalmRun I F (bb.forwards F.lvalueIsCopy) bb.terminator new 0 σ bb.statements

omit [DecidableEq B] in
theorem BasicBlock.forwarded_wf (hb : bb.WellTyped F) : (forwarded F.lvalueIsCopy bb).2.Wf F ∧
    Evolves ((bb.statements.foldl (statement F.lvalueIsCopy) new).checkAll bb.terminator.lvalues)
      (forwarded F.lvalueIsCopy bb).2 :=
  (wf_new.statements fun _ => hb.statement).terminator bb.terminator

omit [DecidableEq B] in
theorem BasicBlock.forwarded_statements (hb : bb.WellTyped F) :
    (forwarded F.lvalueIsCopy bb).2.statements =
      (bb.statements.foldl (statement F.lvalueIsCopy) new).statements :=
  bb.forwarded_wf hb |>.2.statements.trans (shrinks_checkAll _ _).statements

omit [DecidableEq B] in
/-- The assignments that are deleted are the moved ones whose use was replaced. -/
theorem BasicBlock.forwarded_removed (hb : bb.WellTyped F) (i : ℕ) :
    i ∈ (forwarded F.lvalueIsCopy bb).2.statementsToRemove ↔
      (bb.statements.foldl (statement F.lvalueIsCopy) new).Removed
        {x | x ∈ (forwarded F.lvalueIsCopy bb).2.replaced} F i := by
  have hassigns (n : ℕ) (src : LValue P) : (forwarded F.lvalueIsCopy bb).2.Assigns i n src ↔
      (bb.statements.foldl (statement F.lvalueIsCopy) new).Assigns i n src := by
    rw [Assigns, Assigns, bb.forwarded_statements hb]
  rw [(bb.forwarded_wf hb).1.removed i]
  constructor
  · rintro ⟨n, src, k, ha, hn, hk⟩
    exact ⟨n, src, (hassigns n src).mp ha, hn, k, hk⟩
  · rintro ⟨n, src, ha, hn, k, hk⟩
    exact ⟨n, src, k, (hassigns n src).mpr ha, hn, hk⟩

omit [DecidableEq B] [DecidableEq P] in
theorem Undisturbed.of_noDeref {lv : LValue P} {u : ValUsage} (h : .deref ∉ lv.wrappers) :
    Undisturbed I F uses s k m lv u where
  reached {b} hb := by
    have hnil : I.throughPointers F m lv = [] := Interp.reached_eq_nil h
    rw [hnil] at hb
    cases hb
  moved _ _ hd _ := absurd hd h

/-- Without pointers only the locals that index a recorded source are left to be spared: the pass sees
to the rest. -/
theorem CalmStep.of_assign {dst : LValue P} {src : RValue T P (LValue P)} {σ₁ : State B K}
    (hd : ∀ lv ∈ (Statement.assign dst src).mentioned, .deref ∉ lv.wrappers)
    (hb : src.paramBorrows = [])
    (hidx : ∀ n i src' l, (s.checkAll (Statement.assign dst src).lvalues).Live uses (k + 1) n i src' →
      dst.root = .local_ l → l ∉ src'.indexLocals)
    (he : I.step F σ (.assign dst src) = some (ev, σ₁)) :
    CalmStep I F uses (s.checkAll (Statement.assign dst src).lvalues) k σ.mem (.assign dst src) ev := by
  have hdst : (dst, .write) ∈ (Statement.assign dst src).lvalues :=
    List.mem_append_right _ List.mem_cons_self
  simp only [Interp.step, bind, pure, Option.bind_eq_some_iff, Option.some.injEq] at he
  obtain ⟨⟨rv, mr⟩, -, v, -, pl, hpl, he⟩ := he
  simp only [Prod.mk.injEq] at he
  obtain ⟨rfl, -⟩ := he
  have hbase : pl.base = F.base dst.root := Interp.unwraps_base
    (hd dst (List.mem_append_left _ (List.mem_map.mpr ⟨_, hdst, rfl⟩))) hpl
  exact {
    calm := {
      operand := fun hlv => Undisturbed.of_noDeref
        (hd _ (List.mem_append_left _ (List.mem_map.mpr ⟨_, hlv, rfl⟩)))
      borrowed := fun hlv => by
        rw [Statement.paramBorrows, hb] at hlv
        cases hlv }
    written := by
      intro pl' hpl'
      cases List.mem_singleton.mp hpl'
      rw [hbase]
      intro n i src' hl
      obtain ⟨hn, hroot⟩ := invalidates_write (invalidates_of_checkAll hl.1 hdst)
      exact ⟨F.base_ne hn, F.base_ne hroot.symm, fun l hl' =>
        F.base_ne fun h => hidx n i src' l hl h hl'⟩
    touched := fun hb => hb.elim
    changed := fun hb => hb.elim }

end Blocks

section Indexed

/-- An array of words in the argument 0, and words elsewhere. -/
def indexedFrame : Frame Words.Ty Unit (Storage Unit) :=
  Words.frame fun
    | .argument 0 => .array .word
    | _ => .word

def indexedState : State (Storage Unit) Words.Value :=
  Words.state [(.argument 0, [.num 5, .num 7]), (.local_ 1, [.num 0])]

/-- `let t = a[i]; t` -/
def indexKept : BasicBlock Words.Ty Unit (LValue Unit) where
  statements := [.assign (.newLocal 0) (.use ⟨.argument 0, [.index 1]⟩),
    .assign ⟨.return_, []⟩ (.use (.newLocal 0))]
  terminator := .return_

/-- `let t = a[i]; i = 1; t` -/
def indexChanged : BasicBlock Words.Ty Unit (LValue Unit) where
  statements := [.assign (.newLocal 0) (.use ⟨.argument 0, [.index 1]⟩),
    .assign (.newLocal 1) (.constant (.uint 1 .usize)),
    .assign ⟨.return_, []⟩ (.use (.newLocal 0))]
  terminator := .return_

theorem indexKept_calm : indexKept.Calm Words.interp indexedFrame indexedState := by
  intro ev₀ σ₁ he₀
  refine ⟨CalmStep.of_assign (by decide) rfl (fun n i src l hl => ?_) he₀, fun ev₁ σ₂ he₁ =>
    ⟨CalmStep.of_assign (by decide) rfl (fun n i src l _ h => ?_) he₁, ?_⟩⟩
  · exact nomatch hl.1.1
  · cases h
  · exact ⟨fun h => (nomatch h), fun h => (nomatch h)⟩

end Indexed

end Mrustc.Mir
