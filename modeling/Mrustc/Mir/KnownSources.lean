import Mrustc.Mir.BlockOrigins
import Mrustc.Mir.Edits

/-! # What `get_field` finds

Every search ends. One that finds a source has walked back from the use to an assignment of a tuple, past
items that invalidate neither the tuple nor the source. It does not look at what is only read, so it finds
the same when reads have been rewritten.
-/

namespace Mrustc.Mir

open Depth

variable {T P : Type} {blocks blocks' : Blocks T P} {origins : BasicBlockId → Option BasicBlockId}
  {pos pos' start stop : Position} {item item' : Item T P} {quiet quiet' : Item T P → Prop}

/-- The walk back from `pos` comes to `stop`, past quiet items. -/
inductive Back (blocks : Blocks T P) (origins : BasicBlockId → Option BasicBlockId)
    (quiet : Item T P → Prop) (stop : Position) : Position → Prop
  | here {pos : Position} (h : stepBack blocks origins pos = some stop) : Back blocks origins quiet stop pos
  | further {pos pos' : Position} {item : Item T P} (h : stepBack blocks origins pos = some pos')
    (hitem : itemAt blocks pos' = some item) (hquiet : quiet item)
    (hback : Back blocks origins quiet stop pos') : Back blocks origins quiet stop pos

/-- Two items that the search does not tell apart. -/
structure Item.Alike [DecidableEq P] (item item' : Item T P) : Prop where
  invalidates (val : LValue P) (isCopy : Bool) : item'.invalidates val isCopy = item.invalidates val isCopy
  assignsField (slot : LValue P) (field : ℕ) :
    item'.assignsField slot field = item.assignsField slot field

structure SameWalks [DecidableEq P] (blocks blocks' : Blocks T P) : Prop where
  stepBack (origins : BasicBlockId → Option BasicBlockId) (pos : Position) :
    stepBack blocks' origins pos = stepBack blocks origins pos
  itemAt (pos : Position) : Option.Rel Item.Alike (itemAt blocks pos) (itemAt blocks' pos)

variable [DecidableEq P] {isCopy : LValue P → Bool} {slot src : LValue P} {field fuel : ℕ}
  {r : Lookup P}

section Searches

theorem checkSource_yields {f : Function T P (LValue P)} (h : Grounded f origins pos) (src : LValue P)
    (stop : Position) : ∃ r, Yields (checkSource f.blocks origins isCopy src stop · pos) r := by
  induction h with
  | intro pos _ ih =>
    cases hback : stepBack f.blocks origins pos with
    | none =>
      refine ⟨.thrown, .of_succ (.of_forall fun fuel => ?_)⟩
      rw [checkSource, hback]
    | some pos' =>
      by_cases hstop : pos' = stop
      · refine ⟨.source src, .of_succ (.of_forall fun fuel => ?_)⟩
        simp only [checkSource, hback, if_pos hstop]
      cases hitem : itemAt f.blocks pos' with
      | none =>
        refine ⟨.thrown, .of_succ (.of_forall fun fuel => ?_)⟩
        simp only [checkSource, hback, if_neg hstop, hitem]
      | some item =>
        cases hinv : item.invalidates src (isCopy src) with
        | true =>
          refine ⟨.nullptr, .of_succ (.of_forall fun fuel => ?_)⟩
          simp only [checkSource, hback, if_neg hstop, hitem, hinv, if_true]
        | false =>
          obtain ⟨r, hr⟩ := ih pos' hback
          refine ⟨r, .of_succ ?_⟩
          simpa only [checkSource, hback, if_neg hstop, hitem, hinv, Bool.false_eq_true, if_false] using hr

theorem searchField_yields {f : Function T P (LValue P)} (hstart : Grounded f origins start)
    (h : Grounded f origins pos) (slot : LValue P) (field : ℕ) :
    ∃ r, Yields (searchField f.blocks origins isCopy slot field start · pos) r := by
  induction h with
  | intro pos _ ih =>
    cases hback : stepBack f.blocks origins pos with
    | none =>
      refine ⟨.nullptr, .of_succ (.of_forall fun fuel => ?_)⟩
      rw [searchField, hback]
    | some pos' =>
      cases hitem : itemAt f.blocks pos' with
      | none =>
        refine ⟨.thrown, .of_succ (.of_forall fun fuel => ?_)⟩
        simp only [searchField, hback, hitem]
      | some item =>
        cases hassigns : item.assignsField slot field with
        | some found =>
          cases found with
          | source src =>
            obtain ⟨r, hr⟩ : ∃ r, Yields (checkSource f.blocks origins isCopy src pos' · start) r :=
              checkSource_yields hstart src pos'
            refine ⟨r, .of_succ ?_⟩
            simpa only [searchField, hback, hitem, hassigns] using hr
          | nullptr =>
            refine ⟨.nullptr, .of_succ (.of_forall fun fuel => ?_)⟩
            simp only [searchField, hback, hitem, hassigns]
          | thrown =>
            refine ⟨.thrown, .of_succ (.of_forall fun fuel => ?_)⟩
            simp only [searchField, hback, hitem, hassigns]
        | none =>
          cases hinv : item.invalidates slot (isCopy slot) with
          | true =>
            refine ⟨.nullptr, .of_succ (.of_forall fun fuel => ?_)⟩
            simp only [searchField, hback, hitem, hassigns, hinv, if_true]
          | false =>
            obtain ⟨r, hr⟩ := ih pos' hback
            refine ⟨r, .of_succ ?_⟩
            simpa only [searchField, hback, hitem, hassigns, hinv, Bool.false_eq_true, if_false] using hr

/-- The search ends wherever it starts. -/
theorem getField_yields {f : Function T P (LValue P)} (ho : Origins f origins) (slot : LValue P)
    (field : ℕ) (start : Position) : ∃ r, Yields (getField f.blocks origins isCopy slot field start) r :=
  searchField_yields (ho.grounded start) (ho.grounded start) slot field

/-- The second walk goes the way of the first one. -/
theorem Back.checkSource (h : Back blocks origins quiet stop pos)
    (hs : checkSource blocks origins isCopy src stop fuel pos = some (.source slot)) :
    slot = src ∧
      Back blocks origins (fun item => quiet item ∧ item.invalidates src (isCopy src) = false) stop pos := by
  induction h generalizing fuel with
  | here hback =>
    cases fuel with
    | zero => cases hs
    | succ fuel =>
      simp only [Mir.checkSource, hback, if_true, Option.some.injEq, Lookup.source.injEq] at hs
      exact ⟨hs.symm, .here hback⟩
  | @further pos pos' item hback hitem hquiet _ ih =>
    cases fuel with
    | zero => cases hs
    | succ fuel =>
      simp only [Mir.checkSource, hback, hitem] at hs
      by_cases hstop : pos' = stop
      · rw [if_pos hstop, Option.some.injEq, Lookup.source.injEq] at hs
        exact ⟨hs.symm, .here (hstop ▸ hback)⟩
      rw [if_neg hstop] at hs
      by_cases hinv : item.invalidates src (isCopy src) = true
      · rw [if_pos hinv] at hs
        cases hs
      · rw [if_neg hinv] at hs
        obtain ⟨hsrc, hrest⟩ := ih hs
        exact ⟨hsrc, .further hback hitem ⟨hquiet, Bool.not_eq_true _ ▸ hinv⟩ hrest⟩

/-- What the search finds was assigned where the walk back stops. -/
theorem searchField_source
    (hs : searchField blocks origins isCopy slot field start fuel pos = some (.source src)) :
    ∃ stop item fuel', Back blocks origins (fun item => item.invalidates slot (isCopy slot) = false) stop pos ∧
      itemAt blocks stop = some item ∧ ∃ lv, item.assignsField slot field = some (.source lv) ∧
      checkSource blocks origins isCopy lv stop fuel' start = some (.source src) := by
  induction fuel generalizing pos with
  | zero => cases hs
  | succ fuel ih =>
    cases hback : stepBack blocks origins pos with
    | none => simp [searchField, hback] at hs
    | some pos' =>
      cases hitem : itemAt blocks pos' with
      | none => simp [searchField, hback, hitem] at hs
      | some item =>
        simp only [searchField, hback, hitem] at hs
        cases hassigns : item.assignsField slot field with
        | some found =>
          cases found with
          | source lv =>
            rw [hassigns] at hs
            exact ⟨pos', item, fuel, .here hback, hitem, lv, hassigns, hs⟩
          | nullptr | thrown => simp [hassigns] at hs
        | none =>
          rw [hassigns] at hs
          by_cases hinv : item.invalidates slot (isCopy slot) = true
          · simp [hinv] at hs
          · simp only [hinv, Bool.false_eq_true, if_false] at hs
            obtain ⟨stop, item', fuel', hrest, h⟩ := ih hs
            exact ⟨stop, item', fuel', .further hback hitem (Bool.not_eq_true _ ▸ hinv) hrest, h⟩

theorem getField_source
    (h : getField blocks origins isCopy slot field start fuel = some (.source src)) :
    ∃ stop item, Back blocks origins (fun item => item.invalidates slot (isCopy slot) = false ∧
        item.invalidates src (isCopy src) = false) stop start ∧
      itemAt blocks stop = some item ∧ item.assignsField slot field = some (.source src) := by
  obtain ⟨stop, item, fuel', hback, hitem, lv, hassigns, hcheck⟩ := searchField_source h
  obtain ⟨rfl, hback⟩ := hback.checkSource hcheck
  exact ⟨stop, item, hback, hitem, hassigns⟩

/-- The assignment that the search stops at. -/
theorem tuple_of_assignsField (h : item.assignsField slot field = some (.source src)) :
    ∃ vals, item = .statement (.assign slot (.tuple vals)) ∧ vals[field]? = some (.lvalue src) := by
  cases item with
  | terminator t => cases h
  | statement st =>
    cases st with
    | assign dst rv =>
      rw [Item.assignsField, Option.ite_none_right_eq_some, Option.some.injEq] at h
      obtain ⟨rfl, h⟩ := h
      cases rv with
      | tuple vals =>
        refine ⟨vals, rfl, ?_⟩
        rw [RValue.tupleField] at h
        cases hv : vals[field]? with
        | none => simp [hv] at h
        | some p => cases p <;> simp_all
      | _ => cases h
    | _ => cases h

end Searches

section Rewritten

variable {g : LValue P → ValUsage → LValue P}

theorem invalidatedBy_edited (hg : ∀ lv u, u ≠ .read → g lv u = lv) (val : LValue P) (c : Bool)
    (x : LValue P × ValUsage) :
    val.invalidatedBy c false (edited g x).1 (edited g x).2 = val.invalidatedBy c false x.1 x.2 := by
  obtain ⟨lv, u⟩ := x
  cases u with
  | read => rfl
  | move | write | borrow => simp [edited, hg lv]

/-- The search does not see what is made of the reads. -/
theorem alike_edited (hg : ∀ lv u, u ≠ .read → g lv u = lv) (st : Statement T P (LValue P)) :
    Item.Alike (.statement st) (.statement (Id.run (st.visit (editUses g) ())).1) where
  invalidates val c := by
    simp only [Item.invalidates, Item.lvalues, st.lvalues_edited, List.any_map, Function.comp_def,
      invalidatedBy_edited hg]
  assignsField slot field := by
    cases st with
    | assign dst src =>
      have hfield : (Id.run (src.visit (editUses g) ())).1.tupleField field = src.tupleField field := by
        cases src with
        | tuple vals =>
          have hvals : (Id.run (visitParams (editUses g) .move () vals)).1 = vals :=
            editedParams_of_fixed fun lv => hg lv .move (by decide)
          change (RValue.tuple (Id.run (visitParams (editUses g) .move () vals)).1).tupleField field = _
          rw [hvals]
        | _ => rfl
      change (if g dst .write = slot then
        some ((Id.run (src.visit (editUses g) ())).1.tupleField field) else none) = _
      rw [hg dst .write (by decide), hfield]
      rfl
    | _ => rfl

theorem SameWalks.checkSource (h : SameWalks blocks blocks') (fuel : ℕ) (pos : Position) :
    checkSource blocks' origins isCopy src stop fuel pos = checkSource blocks origins isCopy src stop fuel pos := by
  induction fuel generalizing pos with
  | zero => rfl
  | succ fuel ih =>
    simp only [Mir.checkSource, h.stepBack]
    cases Mir.stepBack blocks origins pos with
    | none => rfl
    | some pos' =>
      have hitem := h.itemAt pos'
      cases hi : Mir.itemAt blocks pos' <;> cases hi' : Mir.itemAt blocks' pos' <;> rw [hi, hi'] at hitem
      · simp only [hi, hi']
      · cases hitem
      · cases hitem
      · cases hitem with
        | some ha => simp only [hi, hi', ha.invalidates, ih]

theorem SameWalks.searchField (h : SameWalks blocks blocks') (fuel : ℕ) (pos : Position) :
    searchField blocks' origins isCopy slot field start fuel pos =
      searchField blocks origins isCopy slot field start fuel pos := by
  induction fuel generalizing pos with
  | zero => rfl
  | succ fuel ih =>
    simp only [Mir.searchField, h.stepBack]
    cases Mir.stepBack blocks origins pos with
    | none => rfl
    | some pos' =>
      have hitem := h.itemAt pos'
      cases hi : Mir.itemAt blocks pos' <;> cases hi' : Mir.itemAt blocks' pos' <;> rw [hi, hi'] at hitem
      · simp only [hi, hi']
      · cases hitem
      · cases hitem
      · cases hitem with
        | some ha => simp only [hi, hi', ha.invalidates, ha.assignsField, ih, h.checkSource]

theorem SameWalks.getField (h : SameWalks blocks blocks') :
    getField blocks' origins isCopy slot field start = getField blocks origins isCopy slot field start :=
  funext fun fuel => h.searchField fuel start

end Rewritten

end Mrustc.Mir
