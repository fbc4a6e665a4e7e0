import Mrustc.Mir.KnownPass
import Mrustc.Mir.Words

/-! # Propagating known values preserves executions

`get_field` does not look at the assignment of the tuple itself, and sees only the changes that a statement
makes by naming a slot. Where the run makes no others between a tuple and the uses of its fields, each
source still has the value of its field.
-/

namespace Mrustc.Mir

open Depth Memory Trace Relation

variable {T P B K π E W : Type} [DecidableEq B] [Contents K π] [DecidableEq P]

/-- The item invalidates neither the tuple nor the source. -/
def Unseen (isCopy : LValue P → Bool) (n : ℕ) (src : LValue P) (item : Item T P) : Prop :=
  item.invalidates (.newLocal n) (isCopy (.newLocal n)) = false ∧ item.invalidates src (isCopy src) = false

namespace Env

section

variable (env : Env T P B K π E W) (F : Frame T P B) (blocks : Blocks T P) (isCopy : LValue P → Bool)
  (p₀ : Point B K W)

/-- The run assigns a tuple with the source at `q`, and comes to a use of the field at `u` without that the
checks see a change. -/
structure Carries (n field : ℕ) (src : LValue P) (q q₁ u : Point B K W) : Prop where
  reached : env.Reaches F blocks p₀ q
  assigns : ∃ vals, itemAt blocks q.pos = some (.statement (.assign (.newLocal n) (.tuple vals))) ∧
    vals[field]? = some (.lvalue src)
  advances : env.Advances F blocks q q₁
  unseen : ReflTransGen (env.Quietly F blocks (Unseen isCopy n src)) q₁ u
  reads : ReadsField blocks isCopy u.pos n field

/-- The assignment leaves the source in place. After it the steps change the slots of the tuple and of the
source only where they name them, and nothing that the source points to. -/
structure SparesSources : Prop where
  assigned {n field : ℕ} {src : LValue P} {q q₁ u : Point B K W}
    (h : env.Carries F blocks isCopy p₀ n field src q q₁ u) :
    src = ⟨.local_ n, [.field field]⟩ ∨ F.base (.local_ n) ∉ env.readFrom F q.state.mem src
  kept {n field : ℕ} {src : LValue P} {q q₁ p p' u : Point B K W}
    (h : env.Carries F blocks isCopy p₀ n field src q q₁ u)
    (hp : ReflTransGen (env.Quietly F blocks (Unseen isCopy n src)) q₁ p)
    (hstep : env.Quietly F blocks (Unseen isCopy n src) p p')
    (hu : ReflTransGen (env.Quietly F blocks (Unseen isCopy n src)) p' u) :
    ∀ b ∈ F.base (.local_ n) :: env.readFrom F p.state.mem src, p'.state.mem b ≠ p.state.mem b →
      b ∉ env.throughPointers F p.state.mem src ∧
        ∃ item lv, itemAt blocks p.pos = some item ∧ (lv, .write) ∈ item.lvalues ∧ F.base lv.root = b

end

variable {env : Env T P B K π E W} {F : Frame T P B} {f : Function T P (LValue P)} {blocks : Blocks T P}
  {isCopy : LValue P → Bool} {p₀ p p' q q₁ u : Point B K W} {n field : ℕ} {src : LValue P}
  {origins : BasicBlockId → Option BasicBlockId} {s : State B K} {w : W}

theorem HoldsField.quietly (hspares : env.SparesSources F blocks isCopy p₀)
    (hc : env.Carries F blocks isCopy p₀ n field src q q₁ u)
    (hp : ReflTransGen (env.Quietly F blocks (Unseen isCopy n src)) q₁ p)
    (hstep : env.Quietly F blocks (Unseen isCopy n src) p p')
    (hu : ReflTransGen (env.Quietly F blocks (Unseen isCopy n src)) p' u)
    (h : env.HoldsField F p.state.mem n field src) : env.HoldsField F p'.state.mem n field src := by
  apply h.congr
  intro b hb
  by_contra hne
  obtain ⟨hpointers, item, lv, hitem, hlv, hroot⟩ := hspares.kept hc hp hstep hu b hb (Ne.symm hne)
  obtain ⟨-, item', hitem', hslot, hsrc⟩ := hstep
  obtain rfl := Option.some.inj (hitem.symm.trans hitem')
  -- the checks see every slot that is named
  have hnslot := (LValue.root_ne_of_not_invalidated hslot hlv).1
  obtain ⟨hnroot, hnindex⟩ := LValue.root_ne_of_not_invalidated hsrc hlv
  simp only [Interp.readFrom, List.cons_append, List.mem_cons, List.mem_append, List.mem_map] at hb
  rcases hb with hb | hb | ⟨l, hl, hb⟩ | hb
  · exact hnslot (F.base_injective (hroot.trans hb))
  · exact hnroot (F.base_injective (hroot.trans hb))
  · exact hnindex l hl (F.base_injective (hroot.trans hb.symm))
  · exact hpointers hb

/-- From the assignment on, by induction on the steps to the use. -/
theorem Carries.holdsField (hspares : env.SparesSources F blocks isCopy p₀)
    (hc : env.Carries F blocks isCopy p₀ n field src q q₁ u)
    (h : env.HoldsField F q₁.state.mem n field src) : env.HoldsField F u.state.mem n field src := by
  have hrun : ∀ p, ReflTransGen (env.Quietly F blocks (Unseen isCopy n src)) q₁ p →
      ReflTransGen (env.Quietly F blocks (Unseen isCopy n src)) p u → env.HoldsField F p.state.mem n field src := by
    intro p hp
    induction hp with
    | refl => exact fun _ => h
    | tail hp hstep ih => exact fun hu => HoldsField.quietly hspares hc hp hstep hu (ih (.head hstep hu))
  exact hrun u hc.unseen .refl

/-- What `get_field` finds is still there at the use. -/
theorem holdsField_of_getField (ho : Origins f origins) (hF : ∀ t, F.typeIsCopy t = true)
    (hI : env.MakesTuples) (ht : ∀ code ∈ f.blocks, code.Types F)
    (hspares : env.SparesSources F f.blocks isCopy (.entry s w))
    (hu : env.Reaches F f.blocks (.entry s w) u) (hreads : ReadsField f.blocks isCopy u.pos n field)
    (hfound : Yields (getField f.blocks origins isCopy (.newLocal n) field u.pos) (.source src)) :
    env.HoldsField F u.state.mem n field src := by
  obtain ⟨fuel, hfuel⟩ := hfound.exists_fuel
  obtain ⟨stop, item, hback, hitem, hassigns⟩ := getField_source hfuel
  obtain ⟨vals, rfl, hval⟩ := tuple_of_assignsField hassigns
  obtain ⟨q, q₁, hq, hqpos, hadv, hquiet⟩ := hback.along ho hu rfl
  have hc : env.Carries F f.blocks isCopy (.entry s w) n field src q q₁ u :=
    ⟨hq, ⟨vals, hqpos ▸ hitem, hval⟩, hadv, hquiet, hreads⟩
  apply hc.holdsField hspares
  obtain ⟨e, he⟩ := hadv
  rw [walk_eq (hqpos ▸ hitem), perform] at he
  cases hst : env.step F q.state (.assign (.newLocal n) (.tuple vals)) with
  | none => simp [hst] at he
  | some r =>
    rw [hst] at he
    cases he
    obtain ⟨code, hcode, hmem⟩ := itemAt_eq_statement.mp hitem
    have hmentioned := ht code (List.mem_of_getElem? hcode) _ (List.mem_of_getElem? hmem)
    refine Interp.HoldsField.of_assign hI hF (fun lv hlv => hmentioned lv ?_) hval (hspares.assigned hc) hst
    simp only [Statement.mentioned, Statement.lvalues, List.map_append, List.mem_append]
    exact .inl (.inl hlv)

section Steps

variable {st st' : Statement T P (LValue P)} {blocks' : Blocks T P} {e : Option (Effect T P B K π E)}
  {o : Outcome B K W}

omit [DecidableEq B] [Contents K π] [DecidableEq P] in
theorem effect_edited {g : LValue P → ValUsage → LValue P} (ev : Event T P B K π E) :
    ((Id.run (st.visit (editUses g) ())).1.label ev).map Label.effect = (st.label ev).map Label.effect := by
  cases st <;> rfl

/-- The rewritten statement does the same. -/
theorem step_propagated (ho : Origins f origins) (hF : ∀ t, F.typeIsCopy t = true) (hI : env.MakesTuples)
    (ht : ∀ code ∈ f.blocks, code.Types F) (hspares : env.SparesSources F f.blocks isCopy (.entry s w))
    (hu : env.Reaches F f.blocks (.entry s w) u) (hitem : itemAt f.blocks u.pos = some (.statement st))
    (hp : Propagated f origins isCopy u.pos st st') {ev : Event T P B K π E} {s₁ : State B K}
    (h : env.step F u.state st = some (ev, s₁)) :
    env.step F u.state st' = some (ev, s₁) ∧ (st'.label ev).map Label.effect = (st.label ev).map Label.effect := by
  obtain ⟨g, hg⟩ := hp
  refine ⟨?_, effect_edited ev⟩
  obtain ⟨code, hcode, hmem⟩ := itemAt_eq_statement.mp hitem
  have hmentioned := ht code (List.mem_of_getElem? hcode) _ (List.mem_of_getElem? hmem)
  refine Interp.step_editUses ⟨fun {lv vu v m₁} hlv he => ?_, fun {lv pl} hlv hpl => ?_⟩ h
  · rcases hg lv vu with hkept | ⟨n, field, ws, src, hread, hfound, hsrc⟩
    · have htyped := hmentioned lv (List.mem_append_left _ (List.mem_map_of_mem (f := Prod.fst) hlv))
      obtain rfl := Interp.operand_copies hF htyped he
      exact ⟨hkept.symm ▸ he, rfl⟩
    · have hholds := holdsField_of_getField ho hF hI ht hspares hu
        ⟨st, lv, vu, ws, hitem, hlv, hread⟩ hfound
      obtain ⟨rfl, rfl⟩ := fieldRead_eq_some hread
      rw [hsrc]
      exact hholds.read he
  · rcases hg lv .write with hkept | ⟨n, field, ws, src, hread, -, -⟩
    · exact hkept.symm ▸ hpl
    · cases (fieldRead_eq_some hread).1

/-- At each point of the run the rewritten function takes the same step. -/
theorem walk_progress (ho : Origins f origins) (hF : ∀ t, F.typeIsCopy t = true) (hI : env.MakesTuples)
    (ht : ∀ code ∈ f.blocks, code.Types F) (hspares : env.SparesSources F f.blocks isCopy (.entry s w))
    (hp : Progress f origins isCopy blocks' []) (hu : env.Reaches F f.blocks (.entry s w) u) :
    env.walk F f.blocks u = .halt .stuck ∨ env.walk F blocks' u = env.walk F f.blocks u := by
  cases hitem : itemAt f.blocks u.pos with
  | none =>
    left
    rw [walk, hitem]
  | some item =>
    cases item with
    | statement st =>
      obtain ⟨code, hcode, hst⟩ := itemAt_eq_statement.mp hitem
      obtain ⟨code', hcode', -, -, hstmts⟩ := hp.block hcode
      obtain ⟨st', hst', hst''⟩ := hstmts _ st hst
      rw [walk_eq hitem, walk_eq (itemAt_eq_statement.mpr ⟨code', hcode', hst'⟩), perform, perform]
      cases hs : env.step F u.state st with
      | none => exact .inl rfl
      | some r =>
        rcases hst'' with rfl | ⟨-, hst''⟩
        · exact .inr (by rw [hs])
        · obtain ⟨hs', heffect⟩ := step_propagated ho hF hI ht hspares hu hitem hst'' hs
          rw [hs']
          simp only [heffect, or_true]
    | terminator t =>
      right
      obtain ⟨code, hcode, hend, rfl⟩ := itemAt_eq_terminator.mp hitem
      obtain ⟨code', hcode', hterm, hlen, -⟩ := hp.block hcode
      have hitem' : itemAt blocks' u.pos = some (.terminator code.terminator) :=
        itemAt_eq_terminator.mpr ⟨code', hcode', hlen ▸ hend, hterm⟩
      rw [walk_eq hitem, walk_eq hitem', perform, perform]
      cases env.depart F u.state u.world code.terminator with
      | halt o => rfl
      | goes l bb s w => rw [land, land, hp.length]

end Steps

end Env

/-- Every search ends and so does the pass. On a run that spares the sources, what a search finds has the
value of the field at the use, and the rewritten function does the same. -/
theorem propagateKnownValues_preserves (isCopy : LValue P → Bool) (f : Function T P (LValue P)) (hf : f.InRange)
    (hcomplete : f.TuplesComplete isCopy) :
    ∃ origins f', Yields (blockOrigins f.blocks) origins ∧
      (∀ slot field start, ∃ r, Yields (getField f.blocks origins isCopy slot field start) r) ∧
      Yields (propagateKnownValues isCopy f) f' ∧
      ∀ (B K π E W : Type) [DecidableEq B] [Contents K π] (env : Env T P B K π E W) (F : Frame T P B)
        (s : State B K) (w : W), env.MakesTuples → (∀ code ∈ f.blocks, code.Types F) →
        env.SparesSources F.copying f.blocks isCopy (.entry s w) →
        (∀ u n field src, env.Reaches F.copying f.blocks (.entry s w) u →
          ReadsField f.blocks isCopy u.pos n field →
          Yields (getField f.blocks origins isCopy (.newLocal n) field u.pos) (.source src) →
          env.HoldsField F.copying u.state.mem n field src) ∧
        Extends (· = .stuck) (env.walk F.copying f.blocks) (env.walk F.copying f'.blocks) (.entry s w)
          (.entry s w) := by
  obtain ⟨origins, f', horigins, ho, hf', hp⟩ := propagateKnownValues_yields hf hcomplete
  refine ⟨origins, f', horigins, fun slot field start => getField_yields ho slot field start, hf', ?_⟩
  intro B K π E W _ _ env F s w hI ht hspares
  refine ⟨fun u n field src hu hreads hfound =>
    Env.holdsField_of_getField ho F.copying_copies hI ht hspares hu hreads hfound, ?_⟩
  apply Extends.of_agreement
  · intro u hu e u' h
    rcases Env.walk_progress ho F.copying_copies hI ht hspares hp hu with hstuck | hsame
    · rw [hstuck] at h
      cases h
    · exact hsame.trans h
  · intro u hu o hstuck h
    rcases Env.walk_progress ho F.copying_copies hI ht hspares hp hu with hstuck' | hsame
    · rw [hstuck'] at h
      cases h
      exact absurd rfl hstuck
    · exact hsame.trans h

section Pairs

namespace Words

def single (p : Param Unit Value) : Option Word :=
  match param p with
  | some [w] => some w
  | _ => none

/-- The machine with tuples of words. There are no calls. -/
def pairs : Env Ty Unit (Storage Unit) Value ℕ Unit Unit where
  toInterp := { interp with
    rvalue
      | .cast v _ => some v
      | .tuple vals => (vals.mapM single).map .value
      | _ => none }
  isTrue _ := none
  variant _ := none
  matchedValue _ _ := none
  call _ _ _ _ := none

/-- Everything is a word. -/
def wordFrame : Frame Ty Unit (Storage Unit) where
  base := id
  base_injective _ _ h := h
  rootType _ := .word
  unwrapType t _ := some t
  typeIsCopy := Ty.isCopy
  typeIsCopy_unwrap ht _ h := Option.some.inj h ▸ ht

theorem pairs_makesTuples : pairs.MakesTuples := by
  intro vals v hv field x hx
  obtain ⟨ws, hws, rfl⟩ := Option.map_eq_some_iff.mp hv
  obtain ⟨w, hw, hsingle⟩ := mapM_getElem? hws hx
  have hx : x = .value [w] := by
    rw [single, param] at hsingle
    cases x with
    | uninit => cases hsingle
    | value v =>
      rw [Flat.toOption] at hsingle
      split at hsingle
      · simp_all
      · cases hsingle
  change Flat.ofOption (ws[field]?.map ([·])) = x
  rw [hw, hx]
  rfl

end Words

open Words

/-- `t = (t.1, t.0); return t.0.0 as _` -/
def tupleSwapped : Function Words.Ty Unit (LValue Unit) where
  locals := [.word, .word]
  dropFlags := []
  blocks := [{
    statements := [
      .assign (.newLocal 1) (.tuple [.lvalue ⟨.local_ 1, [.field 1]⟩, .lvalue ⟨.local_ 1, [.field 0]⟩]),
      .assign ⟨.return_, []⟩ (.cast ⟨.local_ 1, [.field 0, .field 0]⟩ .word)]
    terminator := .return_ }]

/-- What the pass makes of it. -/
def tupleMisread : Function Words.Ty Unit (LValue Unit) :=
  { tupleSwapped with
    blocks := [{
      statements := [
        .assign (.newLocal 1) (.tuple [.lvalue ⟨.local_ 1, [.field 1]⟩, .lvalue ⟨.local_ 1, [.field 0]⟩]),
        .assign ⟨.return_, []⟩ (.cast ⟨.local_ 1, [.field 1, .field 0]⟩ .word)]
      terminator := .return_ }] }

def pairState : State (Storage Unit) Words.Value :=
  Words.state [(.local_ 1, [.num 3, .num 4]), (.local_ 2, [.num 5]), (.local_ 3, [.num 6])]

/-- A block of two statements returns. -/
theorem ends_of_run {blocks : Blocks Words.Ty Unit} {v : Words.Value}
    (h : (run (pairs.walk wordFrame.copying blocks) 2 (.entry pairState ())).map
      (fun x => (x.2.pos, x.2.state.mem .return_)) = some (⟨0, 2⟩, v))
    (hitem : itemAt blocks ⟨0, 2⟩ = some (.terminator .return_)) :
    ∃ es s, Ends (pairs.walk wordFrame.copying blocks) (.entry pairState ()) es (.returned s ()) ∧
      s.mem .return_ = v := by
  obtain ⟨⟨es, u⟩, hrun, hu⟩ := Option.map_eq_some_iff.mp h
  obtain ⟨hpos, hv⟩ := Prod.mk.inj hu
  refine ⟨es, u.state, ⟨2, u, hrun, ?_⟩, hv⟩
  rw [Env.walk_eq (hpos ▸ hitem)]
  rfl

theorem tupleSwapped_inRange : tupleSwapped.InRange := by
  refine ⟨by decide, fun {bb c} h => ?_, fun {bb c} h => ?_, fun {bb c} h => ?_, fun {bb c} h => ?_⟩ <;>
    rcases bb with _ | bb <;> simp [tupleSwapped] at h <;> subst h <;> decide

/-- A tuple of two words is all that is assigned to a local. -/
theorem tuplesComplete_of_pairs {f : Function Words.Ty Unit (LValue Unit)} {isCopy : LValue Unit → Bool}
    (hreads : ∀ code ∈ f.blocks, ∀ st ∈ code.statements, ∀ x ∈ st.lvalues,
      (fieldRead isCopy x.1 x.2).all fun y => y.2.1 < 2)
    (hvals : ∀ code ∈ f.blocks, ∀ st ∈ code.statements, ∀ dst vals, st = .assign dst (.tuple vals) →
      2 ≤ vals.length) : f.TuplesComplete isCopy := by
  rintro pos n field ⟨st, lv, u, ws, hitem, hlv, hread⟩ pos' vals hitem'
  obtain ⟨code, hcode, hst⟩ := itemAt_eq_statement.mp hitem
  obtain ⟨code', hcode', hst'⟩ := itemAt_eq_statement.mp hitem'
  have hlt := hreads code (List.mem_of_getElem? hcode) st (List.mem_of_getElem? hst) (lv, u) hlv
  have hle := hvals code' (List.mem_of_getElem? hcode') _ (List.mem_of_getElem? hst') _ vals rfl
  rw [hread, Option.all_some, decide_eq_true_eq] at hlt
  exact lt_of_lt_of_le hlt hle

theorem tupleSwapped_complete : tupleSwapped.TuplesComplete fun _ => true := by
  apply tuplesComplete_of_pairs
  · decide
  · simp [tupleSwapped]

/-- The search does not look at the assignment of the tuple, which has changed what `t.1` is. -/
theorem tupleSwapped_not_preserved : tupleSwapped.InRange ∧ tupleSwapped.TuplesComplete (fun _ => true) ∧
    (∀ code ∈ tupleSwapped.blocks, code.Types wordFrame) ∧
    (∀ origins, Yields (getField tupleSwapped.blocks origins (fun _ => true) (.newLocal 1) 0 ⟨0, 1⟩)
      (.source ⟨.local_ 1, [.field 1]⟩)) ∧
    ∃ u f', pairs.Reaches wordFrame.copying tupleSwapped.blocks (.entry pairState ()) u ∧ u.pos = ⟨0, 1⟩ ∧
      ¬ pairs.HoldsField wordFrame.copying u.state.mem 1 0 ⟨.local_ 1, [.field 1]⟩ ∧
      Yields (propagateKnownValues (fun _ => true) tupleSwapped) f' ∧
      ¬ Extends (· = .stuck) (pairs.walk wordFrame.copying tupleSwapped.blocks)
        (pairs.walk wordFrame.copying f'.blocks) (.entry pairState ()) (.entry pairState ()) := by
  refine ⟨tupleSwapped_inRange, tupleSwapped_complete, by decide,
    fun _ => .of_succ (.of_succ (.of_forall fun _ => rfl)), ?_⟩
  have hrun : (run (pairs.walk wordFrame.copying tupleSwapped.blocks) 1 (.entry pairState ())).map
      (fun x => (x.2.pos, load x.2.state.mem ⟨.local_ 1, [0]⟩, load x.2.state.mem ⟨.local_ 1, [1]⟩)) =
      some (⟨0, 1⟩, some (.value [.num 4]), some (.value [.num 3])) := by decide
  obtain ⟨⟨es, u⟩, hrun, hu⟩ := Option.map_eq_some_iff.mp hrun
  simp only [Prod.mk.injEq] at hu
  obtain ⟨hpos, hfirst, hsecond⟩ := hu
  refine ⟨u, tupleMisread, run_reaches hrun, hpos, ?_, .of_succ (.of_succ (.of_forall fun _ => rfl)), ?_⟩
  · rintro ⟨pl, v, hpl, hv, hfield⟩
    obtain rfl : (⟨.local_ 1, [1]⟩ : Place (Storage Unit) ℕ) = pl := Option.some.inj hpl
    cases (hfirst.symm.trans hfield).trans (hv.symm.trans hsecond)
  · intro h
    obtain ⟨es₁, s₁, h₁, hv₁⟩ := @ends_of_run tupleSwapped.blocks (.value [.num 4]) (by decide) rfl
    obtain ⟨es₂, s₂, h₂, hv₂⟩ := @ends_of_run tupleMisread.blocks (.value [.num 3]) (by decide) rfl
    obtain ⟨-, ho⟩ := (h.ends es₁ _ (by simp) h₁).unique h₂
    cases ho
    cases hv₁.symm.trans hv₂

/-- `t = (x, y); return t.0.0 as _` -/
def tupleKept : Function Words.Ty Unit (LValue Unit) where
  locals := [.word, .word, .word, .word]
  dropFlags := []
  blocks := [{
    statements := [
      .assign (.newLocal 1) (.tuple [.lvalue (.newLocal 2), .lvalue (.newLocal 3)]),
      .assign ⟨.return_, []⟩ (.cast ⟨.local_ 1, [.field 0, .field 0]⟩ .word)]
    terminator := .return_ }]

theorem tupleKept_inRange : tupleKept.InRange := by
  refine ⟨by decide, fun {bb c} h => ?_, fun {bb c} h => ?_, fun {bb c} h => ?_, fun {bb c} h => ?_⟩ <;>
    rcases bb with _ | bb <;> simp [tupleKept] at h <;> subst h <;> decide

theorem tupleKept_complete : tupleKept.TuplesComplete fun _ => true := by
  apply tuplesComplete_of_pairs
  · decide
  · simp [tupleKept]

theorem tupleKept_spares : pairs.SparesSources wordFrame.copying tupleKept.blocks (fun _ => true)
    (.entry pairState ()) := by
  have hitems {pos : Position} {item : Item Words.Ty Unit} (h : itemAt tupleKept.blocks pos = some item) :
      item = .statement (.assign (.newLocal 1) (.tuple [.lvalue (.newLocal 2), .lvalue (.newLocal 3)])) ∨
      item = .statement (.assign ⟨.return_, []⟩ (.cast ⟨.local_ 1, [.field 0, .field 0]⟩ .word)) ∨
      item = .terminator .return_ := by
    obtain ⟨_ | bb, _ | _ | _ | stmt⟩ := pos <;> simp_all [itemAt, tupleKept]
  -- the tuple is that of the first statement
  have hcarried {n field : ℕ} {src : LValue Unit} {q q₁ u : Point (Storage Unit) Words.Value Unit}
      (h : pairs.Carries wordFrame.copying tupleKept.blocks (fun _ => true) (.entry pairState ()) n field src
        q q₁ u) : n = 1 ∧ ∃ l, src = .newLocal l ∧ (l = 2 ∨ l = 3) := by
    obtain ⟨vals, hitem, hval⟩ := h.assigns
    rcases hitems hitem with h | h | h
    · simp only [Item.statement.injEq, Statement.assign.injEq, RValue.tuple.injEq] at h
      obtain ⟨hn, rfl⟩ := h
      simp only [LValue.newLocal, LValue.mk.injEq, Storage.local_.injEq, and_true] at hn
      refine ⟨hn, ?_⟩
      rcases field with _ | _ | field
      · cases hval
        exact ⟨2, rfl, .inl rfl⟩
      · cases hval
        exact ⟨3, rfl, .inr rfl⟩
      · cases hval
    · cases h
    · cases h
  refine ⟨fun h => ?_, fun h _ hstep _ b hb hne => ?_⟩
  · obtain ⟨rfl, l, rfl, hl⟩ := hcarried h
    right
    have hread : (.local_ 1 : Storage Unit) ∉ [.local_ l] := by rcases hl with rfl | rfl <;> decide
    exact hread
  · obtain ⟨rfl, l, rfl, hl⟩ := hcarried h
    obtain ⟨⟨e, he⟩, item, hitem, hslot, -⟩ := hstep
    rw [Env.walk_eq hitem] at he
    rcases hitems hitem with rfl | rfl | rfl
    · cases hslot
    · rw [Env.perform] at he
      cases hst : pairs.step wordFrame.copying _ _ with
      | none =>
        rw [hst] at he
        cases he
      | some r =>
        rw [hst] at he
        cases he
        have htypes : wordFrame.copying.Types
            ((.cast ⟨.local_ 1, [.field 0, .field 0]⟩ .word : RValue Words.Ty Unit (LValue Unit)).lvalues.map
              Prod.fst) := by
          intro lv hlv
          rw [List.mem_singleton.mp hlv]
          rfl
        obtain ⟨rv, v, pl, -, -, hpl, -, hr⟩ :=
          (Interp.step_assign_copies wordFrame.copying_copies htypes).mp hst
        obtain rfl : (⟨.return_, []⟩ : Place (Storage Unit) ℕ) = pl := Option.some.inj hpl
        refine absurd ?_ hne
        have hb : b ∈ [(.local_ 1 : Storage Unit), .local_ l] := hb
        have hreturn : b ≠ .return_ := by
          rintro rfl
          simp at hb
        rw [hr]
        exact store_of_ne hreturn
    · cases he

theorem tupleKept_preserved :
    ∃ origins f', Yields (blockOrigins tupleKept.blocks) origins ∧
      Yields (propagateKnownValues (fun _ => true) tupleKept) f' ∧
      (∀ u n field src, pairs.Reaches wordFrame.copying tupleKept.blocks (.entry pairState ()) u →
        ReadsField tupleKept.blocks (fun _ => true) u.pos n field →
        Yields (getField tupleKept.blocks origins (fun _ => true) (.newLocal n) field u.pos) (.source src) →
        pairs.HoldsField wordFrame.copying u.state.mem n field src) ∧
      Extends (· = .stuck) (pairs.walk wordFrame.copying tupleKept.blocks)
        (pairs.walk wordFrame.copying f'.blocks) (.entry pairState ()) (.entry pairState ()) := by
  obtain ⟨origins, f', horigins, -, hf', h⟩ :=
    propagateKnownValues_preserves (fun _ => true) tupleKept tupleKept_inRange tupleKept_complete
  obtain ⟨hholds, hextends⟩ := h _ _ _ _ _ pairs wordFrame pairState () pairs_makesTuples (by decide)
    tupleKept_spares
  exact ⟨origins, f', horigins, hf', hholds, hextends⟩

end Pairs

end Mrustc.Mir
