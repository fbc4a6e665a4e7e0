import Mrustc.Mir.KnownFields

/-! # What propagating known values makes of a function

Each read of a field of a tuple is looked up once. The searches of the pass are those on the function as
it was, since what it has rewritten is only read.
-/

namespace Mrustc.Mir

open Depth

variable {T P : Type} [DecidableEq P] {f : Function T P (LValue P)} {blocks : Blocks T P}
  {origins : BasicBlockId → Option BasicBlockId} {isCopy : LValue P → Bool} {pos start stop : Position}
  {st st' : Statement T P (LValue P)} {l : List Position} {slot src lv : LValue P} {n field fuel : ℕ}
  {quiet : Item T P → Prop} {u : ValUsage}

/-- A statement reads a part of a field of the local. -/
def ReadsField (blocks : Blocks T P) (isCopy : LValue P → Bool) (pos : Position) (n field : ℕ) : Prop :=
  ∃ st lv u ws, itemAt blocks pos = some (.statement st) ∧ (lv, u) ∈ st.lvalues ∧
    fieldRead isCopy lv u = some (n, field, ws)

/-- Tuples have the fields that are read. -/
def Function.TuplesComplete (f : Function T P (LValue P)) (isCopy : LValue P → Bool) : Prop :=
  ∀ pos n field, ReadsField f.blocks isCopy pos n field → ∀ pos' vals,
    itemAt f.blocks pos' = some (.statement (.assign (.newLocal n) (.tuple vals))) → field < vals.length

omit [DecidableEq P] in
theorem fieldRead_eq_some {ws : List Wrapper} (h : fieldRead isCopy lv u = some (n, field, ws)) :
    u = .read ∧ lv = ⟨.local_ n, .field field :: ws⟩ := by
  obtain ⟨root, wrappers⟩ := lv
  unfold fieldRead at h
  split at h
  · rename_i hroot hws
    rw [Option.ite_none_right_eq_some, Option.some.injEq, Prod.mk.injEq, Prod.mk.injEq] at h
    obtain ⟨-, rfl, rfl, rfl⟩ := h
    exact ⟨rfl, by rw [← hroot, ← hws]⟩
  · cases h

section Throwing

/-- The position is one of the block's. -/
def Position.Within (blocks : Blocks T P) (pos : Position) : Prop :=
  ∃ code, blocks[pos.bb]? = some code ∧ pos.stmt ≤ code.statements.length

omit [DecidableEq P] in
theorem Position.Within.itemAt (h : pos.Within blocks) : ∃ item, itemAt blocks pos = some item := by
  obtain ⟨code, hcode, hle⟩ := h
  rcases hle.lt_or_eq with hlt | hend
  · exact ⟨_, itemAt_eq_statement.mpr ⟨code, hcode, List.getElem?_eq_getElem hlt⟩⟩
  · exact ⟨_, itemAt_eq_terminator.mpr ⟨code, hcode, hend, rfl⟩⟩

omit [DecidableEq P] in
theorem Position.Within.stepBack (h : pos.Within blocks) (hs : stepBack blocks origins pos = some stop) :
    stop.Within blocks := by
  obtain ⟨bb, stmt⟩ := pos
  cases stmt with
  | zero =>
    simp only [Mir.stepBack, Option.bind_eq_bind, Option.bind_eq_some_iff] at hs
    obtain ⟨origin, -, code, hcode, hs⟩ := hs
    obtain rfl := Option.some.inj hs
    exact ⟨code, hcode, le_rfl⟩
  | succ stmt =>
    obtain ⟨code, hcode, hle⟩ := h
    obtain rfl := Option.some.inj hs
    exact ⟨code, hcode, Nat.le_of_succ_le hle⟩

theorem Back.checkSource_ne_thrown (h : Back blocks origins quiet stop pos) :
    Mir.checkSource blocks origins isCopy src stop fuel pos ≠ some .thrown := by
  induction h generalizing fuel with
  | here hback =>
    cases fuel with
    | zero => simp [Mir.checkSource]
    | succ fuel => simp [Mir.checkSource, hback]
  | @further pos pos' item hback hitem _ _ ih =>
    cases fuel with
    | zero => simp [Mir.checkSource]
    | succ fuel =>
      by_cases hstop : pos' = stop
      · simp [Mir.checkSource, hback, hstop]
      · cases hinv : item.invalidates src (isCopy src) with
        | true => simp [Mir.checkSource, hback, hstop, hitem, hinv]
        | false => simpa [Mir.checkSource, hback, hstop, hitem, hinv] using ih

/-- The search throws only where a tuple lacks the field. -/
theorem searchField_thrown (hpos : pos.Within blocks)
    (hs : searchField blocks origins isCopy slot field start fuel pos = some .thrown) :
    (∃ stop item, itemAt blocks stop = some item ∧ item.assignsField slot field = some .thrown) ∨
      ∃ stop lv fuel', Back blocks origins (fun _ => True) stop pos ∧
        checkSource blocks origins isCopy lv stop fuel' start = some .thrown := by
  induction fuel generalizing pos with
  | zero => cases hs
  | succ fuel ih =>
    cases hback : stepBack blocks origins pos with
    | none => simp [searchField, hback] at hs
    | some pos' =>
      obtain ⟨item, hitem⟩ := (hpos.stepBack hback).itemAt
      simp only [searchField, hback, hitem] at hs
      cases hassigns : item.assignsField slot field with
      | some found =>
        rw [hassigns] at hs
        cases found with
        | source lv => exact .inr ⟨pos', lv, fuel, .here hback, hs⟩
        | nullptr => cases hs
        | thrown => exact .inl ⟨pos', item, hitem, hassigns⟩
      | none =>
        rw [hassigns] at hs
        by_cases hinv : item.invalidates slot (isCopy slot) = true
        · simp [hinv] at hs
        · simp only [hinv, Bool.false_eq_true, if_false] at hs
          rcases ih (hpos.stepBack hback) hs with h | ⟨stop, lv, fuel', h, hcheck⟩
          · exact .inl h
          · exact .inr ⟨stop, lv, fuel', .further hback hitem trivial h, hcheck⟩

theorem getField_ne_thrown (hpos : pos.Within blocks)
    (hvals : ∀ pos' vals, itemAt blocks pos' = some (.statement (.assign slot (.tuple vals))) →
      field < vals.length) :
    getField blocks origins isCopy slot field pos fuel ≠ some .thrown := by
  intro hs
  rcases searchField_thrown hpos hs with ⟨stop, item, hitem, hassigns⟩ | ⟨stop, lv, fuel', hback, hcheck⟩
  · cases item with
    | terminator t => cases hassigns
    | statement st =>
      cases st with
      | assign dst rv =>
        rw [Item.assignsField, Option.ite_none_right_eq_some, Option.some.injEq] at hassigns
        obtain ⟨rfl, hassigns⟩ := hassigns
        cases rv with
        | tuple vals =>
          have hlt := hvals stop vals hitem
          rw [RValue.tupleField, List.getElem?_eq_getElem hlt] at hassigns
          cases hv : vals[field] <;> simp [hv] at hassigns
        | _ => cases hassigns
      | _ => cases hassigns
  · exact hback.checkSource_ne_thrown hcheck

end Throwing

/-- What the pass makes of the statement at `pos`. -/
inductive Propagated (f : Function T P (LValue P)) (origins : BasicBlockId → Option BasicBlockId)
    (isCopy : LValue P → Bool) (pos : Position) (st : Statement T P (LValue P)) :
    Statement T P (LValue P) → Prop
  | edited (g : LValue P → ValUsage → LValue P)
    (hg : ∀ lv u, g lv u = lv ∨ ∃ n field ws src, fieldRead isCopy lv u = some (n, field, ws) ∧
      Yields (getField f.blocks origins isCopy (.newLocal n) field pos) (.source src) ∧
      g lv u = src.cloneWrapped ws) :
    Propagated f origins isCopy pos st (Id.run (st.visit (editUses g) ())).1

theorem Propagated.alike (h : Propagated f origins isCopy pos st st') :
    Item.Alike (.statement st) (.statement st') := by
  cases h with
  | edited g hg =>
    apply alike_edited
    intro lv u hu
    rcases hg lv u with h | ⟨n, field, ws, src, hread, -, -⟩
    · exact h
    · exact absurd (fieldRead_eq_some hread).1 hu

/-- The blocks when the positions `l` are left. -/
structure Progress (f : Function T P (LValue P)) (origins : BasicBlockId → Option BasicBlockId)
    (isCopy : LValue P → Bool) (blocks : Blocks T P) (l : List Position) : Prop where
  length : blocks.length = f.blocks.length
  block {bb : BasicBlockId} {code : BasicBlock T P (LValue P)} (h : f.blocks[bb]? = some code) :
    ∃ code', blocks[bb]? = some code' ∧ code'.terminator = code.terminator ∧
      code'.statements.length = code.statements.length ∧
      ∀ i st, code.statements[i]? = some st → ∃ st', code'.statements[i]? = some st' ∧
        (st' = st ∨ ⟨bb, i⟩ ∉ l ∧ Propagated f origins isCopy ⟨bb, i⟩ st st')

namespace Progress

theorem init : Progress f origins isCopy f.blocks l where
  length := rfl
  block {_ code} h := ⟨code, h, rfl, rfl, fun _ st hst => ⟨st, hst, .inl rfl⟩⟩

theorem none_of_none (h : Progress f origins isCopy blocks l) {bb : BasicBlockId} (hbb : f.blocks[bb]? = none) :
    blocks[bb]? = none := by
  rw [List.getElem?_eq_none_iff] at hbb ⊢
  exact h.length ▸ hbb

theorem sameWalks (h : Progress f origins isCopy blocks l) : SameWalks f.blocks blocks where
  stepBack origins pos := by
    obtain ⟨bb, stmt⟩ := pos
    cases stmt with
    | succ stmt => rfl
    | zero =>
      cases ho : origins bb with
      | none => simp [stepBack, ho]
      | some origin =>
        cases hcode : f.blocks[origin]? with
        | none => simp [stepBack, ho, hcode, h.none_of_none hcode]
        | some code =>
          obtain ⟨code', hcode', -, hlen, -⟩ := h.block hcode
          simp [stepBack, ho, hcode, hcode', hlen]
  itemAt pos := by
    cases hcode : f.blocks[pos.bb]? with
    | none =>
      simp only [itemAt, hcode, h.none_of_none hcode]
      exact .none
    | some code =>
      obtain ⟨code', hcode', hterm, hlen, hstmts⟩ := h.block hcode
      cases hst : code.statements[pos.stmt]? with
      | some st =>
        obtain ⟨st', hst', hp⟩ := hstmts _ st hst
        simp only [itemAt, hcode, hcode', Option.bind_eq_bind, Option.bind_some, hst, hst']
        refine .some ?_
        rcases hp with rfl | ⟨-, hp⟩
        · exact ⟨fun _ _ => rfl, fun _ _ => rfl⟩
        · exact hp.alike
      | none =>
        have hst' : code'.statements[pos.stmt]? = none := by
          rw [List.getElem?_eq_none_iff] at hst ⊢
          exact hlen ▸ hst
        simp only [itemAt, hcode, hcode', Option.bind_eq_bind, Option.bind_some, hst, hst', hterm, hlen]
        by_cases hend : pos.stmt = code.statements.length
        · rw [if_pos hend]
          exact .some ⟨fun _ _ => rfl, fun _ _ => rfl⟩
        · rw [if_neg hend]
          exact .none

end Progress

/-- The lvalue with the source of the field that it reads, where the search for the field answers one. -/
def answered (isCopy : LValue P → Bool) (answer : ℕ × ℕ → Lookup P) (lv : LValue P) (u : ValUsage) : LValue P :=
  match fieldRead isCopy lv u with
  | none => lv
  | some (n, field, ws) =>
    match answer (n, field) with
    | .source src => if src = ⟨.local_ n, [.field field]⟩ then lv else src.cloneWrapped ws
    | _ => lv

/-- The answer to each search of a statement. -/
theorem knownValues_edits (ho : Origins f origins) (hcomplete : f.TuplesComplete isCopy)
    (hblocks : SameWalks f.blocks blocks) (hst : itemAt f.blocks pos = some (.statement st)) :
    ∃ st', Yields (fun fuel => st.visit (knownValues blocks origins isCopy pos fuel) ()) (st', ()) ∧
      Propagated f origins isCopy pos st st' := by
  have hyields (x : ℕ × ℕ) : ∃ r, Yields (getField f.blocks origins isCopy (.newLocal x.1) x.2 pos) r :=
    getField_yields ho (.newLocal x.1) x.2 pos
  choose answer hanswer using hyields
  let g := answered isCopy answer
  have hwithin : pos.Within f.blocks := by
    obtain ⟨code, hcode, hst⟩ := itemAt_eq_statement.mp hst
    exact ⟨code, hcode, (List.getElem?_eq_some_iff.mp hst).1.le⟩
  have hknown (x : LValue P × ValUsage) (hx : x ∈ st.lvalues) :
      ∀ᶠ fuel in Filter.atTop, knownValue blocks origins isCopy pos fuel x.1 x.2 = some (g x.1 x.2) := by
    obtain ⟨lv, u⟩ := x
    cases hread : fieldRead isCopy lv u with
    | none =>
      apply Filter.Eventually.of_forall
      intro fuel
      simp only [knownValue, hread, g, answered]
    | some y =>
      obtain ⟨n, field, ws⟩ := y
      have hsearch : Yields (getField f.blocks origins isCopy (.newLocal n) field pos) (answer (n, field)) :=
        hanswer (n, field)
      filter_upwards [hsearch] with fuel hfuel
      have hthrown : answer (n, field) ≠ .thrown := by
        intro h
        rw [h] at hfuel
        exact getField_ne_thrown hwithin
          (hcomplete pos n field ⟨st, lv, u, ws, hst, hx, hread⟩) hfuel
      simp only [knownValue, hread, hblocks.getField, hfuel, g, answered]
      cases ha : answer (n, field) with
      | nullptr => rfl
      | source src => rfl
      | thrown => exact absurd ha hthrown
  refine ⟨(Id.run (st.visit (editUses g) ())).1, ?_, .edited g fun lv u => ?_⟩
  · have hall : ∀ᶠ fuel in Filter.atTop, ∀ x ∈ st.lvalues.toFinset,
        knownValue blocks origins isCopy pos fuel x.1 x.2 = some (g x.1 x.2) := by
      rw [Filter.eventually_all_finset]
      exact fun x hx => hknown x (List.mem_toFinset.mp hx)
    filter_upwards [hall] with fuel hfuel
    refine Visitor.Edits.statement ⟨fun {lv u} hlv => ?_, fun lv => rfl⟩
    change (knownValue blocks origins isCopy pos fuel lv u).map (·, ()) = _
    rw [hfuel (lv, u) (List.mem_toFinset.mpr hlv)]
    rfl
  · cases hread : fieldRead isCopy lv u with
    | none => exact .inl (by simp only [g, answered, hread])
    | some y =>
      obtain ⟨n, field, ws⟩ := y
      cases ha : answer (n, field) with
      | nullptr | thrown => exact .inl (by simp only [g, answered, hread, ha])
      | source src =>
        by_cases hsame : src = ⟨.local_ n, [.field field]⟩
        · exact .inl (by simp only [g, answered, hread, ha, if_pos hsame])
        · refine .inr ⟨n, field, ws, src, rfl, ?_, by simp only [g, answered, hread, ha, if_neg hsame]⟩
          exact ha ▸ hanswer (n, field)

/-- One round of the loop. -/
theorem Progress.step (ho : Origins f origins) (hcomplete : f.TuplesComplete isCopy)
    (h : Progress f origins isCopy blocks (pos :: l)) (hpos : pos ∉ l)
    (hst : itemAt f.blocks pos = some (.statement st)) :
    ∃ blocks', Yields (fun fuel => propagateStep isCopy origins fuel blocks pos) blocks' ∧
      Progress f origins isCopy blocks' l := by
  obtain ⟨code, hcode, hcst⟩ := itemAt_eq_statement.mp hst
  obtain ⟨code', hcode', hterm, hlen, hstmts⟩ := h.block hcode
  obtain ⟨st₁, hst₁, hp⟩ := hstmts _ st hcst
  obtain rfl : st₁ = st := hp.resolve_right fun hp => hp.1 List.mem_cons_self
  obtain ⟨st', hvisit, hprop⟩ := knownValues_edits ho hcomplete h.sameWalks hst
  refine ⟨setStatement blocks pos st', ?_, ?_, fun {bb code₁} hcode₁ => ?_⟩
  · filter_upwards [hvisit] with fuel hfuel
    simp only [propagateStep, hcode', hst₁, Option.bind_eq_bind, Option.bind_some, hfuel]
    rfl
  · rw [setStatement, List.length_modify, h.length]
  · by_cases hbb : pos.bb = bb
    · subst hbb
      obtain rfl := Option.some.inj (hcode.symm.trans hcode₁)
      refine ⟨{ code' with statements := code'.statements.set pos.stmt st' }, ?_, hterm, ?_, fun i st hi => ?_⟩
      · rw [setStatement, List.getElem?_modify_eq, hcode']
        rfl
      · rw [List.length_set, hlen]
      · by_cases hi' : pos.stmt = i
        · subst hi'
          obtain rfl := Option.some.inj (hcst.symm.trans hi)
          refine ⟨st', ?_, .inr ⟨hpos, hprop⟩⟩
          exact List.getElem?_set_self (hlen ▸ (List.getElem?_eq_some_iff.mp hcst).1)
        · obtain ⟨st₂, hst₂, hp₂⟩ := hstmts i st hi
          refine ⟨st₂, ?_, hp₂.imp_right fun hp => ⟨fun hmem => hp.1 (List.mem_cons_of_mem _ hmem), hp.2⟩⟩
          exact (List.getElem?_set_ne hi').trans hst₂
    · obtain ⟨code₂, hcode₂, hterm₂, hlen₂, hstmts₂⟩ := h.block hcode₁
      refine ⟨code₂, ?_, hterm₂, hlen₂, fun i st hi => ?_⟩
      · rw [setStatement, List.getElem?_modify_ne _ _ hbb, hcode₂]
      · obtain ⟨st₂, hst₂, hp₂⟩ := hstmts₂ i st hi
        exact ⟨st₂, hst₂, hp₂.imp_right fun hp => ⟨fun hmem => hp.1 (List.mem_cons_of_mem _ hmem), hp.2⟩⟩

theorem Progress.foldlM (ho : Origins f origins) (hcomplete : f.TuplesComplete isCopy)
    (h : Progress f origins isCopy blocks l) (hl : l.Nodup)
    (hst : ∀ pos ∈ l, ∃ st, itemAt f.blocks pos = some (.statement st)) :
    ∃ blocks', Yields (fun fuel => l.foldlM (propagateStep isCopy origins fuel) blocks) blocks' ∧
      Progress f origins isCopy blocks' [] := by
  induction l generalizing blocks with
  | nil => exact ⟨blocks, .of_forall fun _ => rfl, h⟩
  | cons pos l ih =>
    obtain ⟨hpos, hl⟩ := List.nodup_cons.mp hl
    obtain ⟨st, hitem⟩ := hst pos List.mem_cons_self
    obtain ⟨blocks₁, h₁, hprog⟩ := h.step ho hcomplete hpos hitem
    obtain ⟨blocks₂, h₂, hdone⟩ := ih hprog hl fun pos hmem => hst pos (List.mem_cons_of_mem _ hmem)
    refine ⟨blocks₂, ?_, hdone⟩
    filter_upwards [h₁, h₂] with fuel hf₁ hf₂
    rw [List.foldlM_cons, hf₁]
    exact hf₂

omit [DecidableEq P] in
theorem mem_statementPositions : pos ∈ statementPositions blocks ↔
    ∃ st, itemAt blocks pos = some (.statement st) := by
  obtain ⟨bb, stmt⟩ := pos
  simp only [statementPositions, List.mem_flatMap, List.mem_map, List.mem_range, Position.mk.injEq,
    itemAt_eq_statement]
  constructor
  · rintro ⟨⟨code, i⟩, hmem, j, hj, rfl, rfl⟩
    exact ⟨_, code, List.mk_mem_zipIdx_iff_getElem?.mp hmem, List.getElem?_eq_getElem hj⟩
  · rintro ⟨st, code, hcode, hst⟩
    exact ⟨(code, bb), List.mk_mem_zipIdx_iff_getElem?.mpr hcode, stmt, (List.getElem?_eq_some_iff.mp hst).1,
      rfl, rfl⟩

omit [DecidableEq P] in
theorem nodup_statementPositions : (statementPositions blocks).Nodup := by
  rw [statementPositions, List.nodup_flatMap]
  refine ⟨fun x _ => List.nodup_range.map fun i j h => congrArg Position.stmt h, ?_⟩
  have hidx : (blocks.zipIdx.map Prod.snd).Nodup := by
    rw [List.zipIdx_map_snd]
    exact List.nodup_range'
  rw [List.Nodup, List.pairwise_map] at hidx
  refine hidx.imp fun {x y} hne => ?_
  rw [Function.onFun, List.disjoint_left]
  intro pos hx hy
  obtain ⟨i, -, rfl⟩ := List.mem_map.mp hx
  obtain ⟨j, -, hj⟩ := List.mem_map.mp hy
  exact hne (congrArg Position.bb hj).symm

/-- The pass ends, and has looked up each read once. -/
theorem propagateKnownValues_yields (hf : f.InRange) (hcomplete : f.TuplesComplete isCopy) :
    ∃ origins f', Yields (blockOrigins f.blocks) origins ∧ Origins f origins ∧
      Yields (propagateKnownValues isCopy f) f' ∧ Progress f origins isCopy f'.blocks [] := by
  obtain ⟨origins, horigins, ho⟩ := blockOrigins_yields hf
  obtain ⟨blocks, hblocks, hprog⟩ := Progress.foldlM ho hcomplete .init nodup_statementPositions
    fun pos => mem_statementPositions.mp
  refine ⟨origins, { f with blocks }, horigins, ho, ?_, hprog⟩
  filter_upwards [horigins, hblocks] with fuel h₁ h₂
  have h₂ : (statementPositions f.blocks).foldlM (propagateStep isCopy origins fuel) f.blocks = some blocks := h₂
  simp only [propagateKnownValues, h₁, Option.bind_eq_bind, Option.bind_some, h₂]
  rfl

end Mrustc.Mir
