import Mrustc.MatchRules.Recursion

/-! # Moves of the sort

The rules of two rows that a run holds together are not swapped, and so the sort swaps two rows in one order of them
only: what it moved apart it never moves back.
-/

namespace Mrustc.MatchRules
open AdjacentSwaps Comparison

section Moves

variable {P α : Type} {ordPath : P → P → Ordering} {view : α → List (PatternRule P)} {idx fuel : ℕ} {rows : List α}

/-- Where a step of a call comes from. -/
inductive StepOf (ordPath : P → P → Ordering) (fuel : ℕ) (view : α → List (PatternRule P)) (idx : ℕ) (rows : List α)
    (s : Step P α) : Prop
  | own (h : s.InColumn view idx rows)
  | inner (slice : List α) (hsub : slice ⊆ rows) (hfuel : ∀ x ∈ slice, sizeFrom (innerView view idx) 0 x < fuel)
    (hjoin : ∀ x ∈ slice, ∀ y ∈ slice,
      Joined (fun a b => PatternRule.headOrd ordPath a b = .eq) (ruleAt view idx x) (ruleAt view idx y))
    (hs : s ∈ (sortRulesetsFrom ordPath fuel (innerView view idx) 0 slice).steps)
  | next (slice : List α) (hsub : slice ⊆ rows) (hfuel : ∀ x ∈ slice, sizeFrom view (idx + 1) x < fuel)
    (htied : ∀ x ∈ slice, ∀ y ∈ slice, Tied ordPath (ruleAt view idx x) (ruleAt view idx y))
    (hs : s ∈ (sortRulesetsFrom ordPath fuel view (idx + 1) slice).steps)

theorem stepOf (hord : Partial ordPath) (hfuel : ∀ x ∈ rows, sizeFrom view idx x < fuel + 1) :
    ∀ s ∈ (sortRulesetsFrom ordPath (fuel + 1) view idx rows).steps, StepOf ordPath fuel view idx rows s := by
  have hsound : SoundRun ordPath (StepOf ordPath fuel view idx rows) rows id
      (sortRulesetsFrom ordPath (fuel + 1) view idx rows) := by
    apply sortRulesetsFrom_succ hord fuel rows fun _ hs => .own hs
    · intro slice hsub hlength hjoin
      have hless : ∀ x ∈ slice, sizeFrom (innerView view idx) 0 x < fuel := fun x hx => by
        have hx' := hfuel x (hsub hx)
        have hlt := sizeFrom_innerView_lt (hlength x hx)
        omega
      exact (sortRulesetsFrom_sound hord fuel _ 0 slice hless).imp fun s hs _ => .inner slice hsub hless hjoin hs
    · intro slice hsub hlength htied
      have hless : ∀ x ∈ slice, sizeFrom view (idx + 1) x < fuel := fun x hx => by
        have hx' := hfuel x (hsub hx)
        have hlt := sizeFrom_succ_lt (hlength x hx)
        omega
      exact (sortRulesetsFrom_sound hord fuel _ _ slice hless).imp fun s hs _ => .next slice hsub hless htied hs
  exact hsound.all

theorem steps_zero (hfuel : ∀ x ∈ rows, sizeFrom view idx x < 0) :
    (sortRulesetsFrom ordPath 0 view idx rows).steps = [] := by
  cases rows with
  | nil => rfl
  | cons x rest => exact absurd (hfuel x (.head _)) (Nat.not_lt_zero _)

/-- Only rows of a call are swapped in it. -/
theorem mem_of_moved (hord : Partial ordPath) (fuel : ℕ) {view : α → List (PatternRule P)} {idx : ℕ} {rows : List α}
    (hfuel : ∀ x ∈ rows, sizeFrom view idx x < fuel) {s : Step P α}
    (hs : s ∈ (sortRulesetsFrom ordPath fuel view idx rows).steps) {x y : α} (h : s.moved ordPath = some (x, y)) :
    x ∈ rows ∧ y ∈ rows := by
  induction fuel generalizing view idx rows with
  | zero => simp [steps_zero hfuel] at hs
  | succ fuel ih =>
    cases stepOf hord hfuel s hs with
    | own hown =>
      have hxy := swaps_of_inColumn hown h
      exact ⟨hxy.1, hxy.2.1⟩
    | inner slice hsub hless _ hs' => exact (ih hless hs').imp (hsub ·) (hsub ·)
    | next slice hsub hless _ hs' => exact (ih hless hs').imp (hsub ·) (hsub ·)

/-- Rows that equal one row rule by rule. -/
def JoinedRows (ordPath : P → P → Ordering) (view : α → List (PatternRule P)) (x y : α) : Prop :=
  ∀ idx, Joined (fun a b => PatternRule.ord ordPath a b = .ok .eq) (ruleAt view idx x) (ruleAt view idx y)

theorem JoinedRows.symm {x y : α} (h : JoinedRows ordPath view x y) : JoinedRows ordPath view y x :=
  fun idx => (h idx).symm

/-- The rules inside joined rules make joined rows. -/
theorem joinedRows_innerView {x y : α}
    (h : Joined (fun a b => PatternRule.ord ordPath a b = .ok .eq) (ruleAt view idx x) (ruleAt view idx y)) :
    JoinedRows ordPath (innerView view idx) x y := fun i =>
  h.imp (fun a => (innerRules a).getD i (.any [])) fun _ _ hab => ord_getD_of_ordAll (ordAll_innerRules hab) i

theorem joinedRows_of_tied {x y : α} (h : Tied ordPath (ruleAt view idx x) (ruleAt view idx y)) :
    JoinedRows ordPath (innerView view idx) x y := by
  rcases h with h | ⟨hx, hy⟩
  · exact joinedRows_innerView h
  · have hnil : ∀ a : PatternRule P, a.isAny → innerRules a = [] := fun a ha => by
      cases a <;> simp_all [PatternRule.isAny, innerRules]
    have hrule : ∀ z, (ruleAt view idx z).isAny → ∀ i, ruleAt (innerView view idx) i z = .any [] := fun z hz i => by
      rw [ruleAt, innerView, hnil _ hz, List.getD_nil]
    exact fun i => ⟨.any [], .inl (hrule x hx i), .inl (hrule y hy i)⟩

theorem not_swaps_of_tied (hord : Partial ordPath) {a b : PatternRule P} (h : Tied ordPath a b) :
    swapsRules ordPath a b ≠ .ok true := by
  rcases h with h | ⟨ha, hb⟩
  · exact not_swaps_of_joined hord (h.imp id fun _ _ => headOrd_of_ord)
  · intro hs
    simp [overlap_guard (swapsRules_eq_true hs).1] at ha

/-- Rows that are joined are not swapped. -/
theorem not_moved_of_joinedRows (hord : Partial ordPath) (fuel : ℕ) {view : α → List (PatternRule P)} {idx : ℕ}
    {rows : List α} (hfuel : ∀ x ∈ rows, sizeFrom view idx x < fuel) {x y : α} (h : JoinedRows ordPath view x y)
    {s : Step P α} (hs : s ∈ (sortRulesetsFrom ordPath fuel view idx rows).steps) :
    s.moved ordPath ≠ some (x, y) := by
  induction fuel generalizing view idx rows with
  | zero => simp [steps_zero hfuel] at hs
  | succ fuel ih =>
    cases stepOf hord hfuel s hs with
    | own hown =>
      intro hmoved
      exact not_swaps_of_tied hord (.inl (h idx)) (swaps_of_inColumn hown hmoved).2.2
    | inner slice _ hless _ hs' => exact ih hless (joinedRows_innerView (h idx)) hs'
    | next slice _ hless _ hs' => exact ih hless h hs'

/-- In calls of one view and column, two rows are swapped in one order of them only. -/
theorem moved_asymm (hord : Partial ordPath) (fuel : ℕ) {view : α → List (PatternRule P)} {idx : ℕ}
    {rows rows' : List α} (hfuel : ∀ x ∈ rows, sizeFrom view idx x < fuel)
    (hfuel' : ∀ x ∈ rows', sizeFrom view idx x < fuel) {s s' : Step P α}
    (hs : s ∈ (sortRulesetsFrom ordPath fuel view idx rows).steps)
    (hs' : s' ∈ (sortRulesetsFrom ordPath fuel view idx rows').steps) {x y : α}
    (h : s.moved ordPath = some (x, y)) : s'.moved ordPath ≠ some (y, x) := by
  intro h'
  induction fuel generalizing view idx rows rows' with
  | zero => simp [steps_zero hfuel] at hs
  | succ fuel ih =>
    cases stepOf hord hfuel s hs with
    | own hown =>
      have hswaps := (swaps_of_inColumn hown h).2.2
      cases stepOf hord hfuel' s' hs' with
      | own hown' => exact swapsRules_asymm hord hswaps (swaps_of_inColumn hown' h').2.2
      | inner slice hsub hless hjoin hin =>
        have hyx := mem_of_moved hord fuel hless hin h'
        exact not_swaps_of_joined hord (hjoin x hyx.2 y hyx.1) hswaps
      | next slice hsub hless htied hin =>
        have hyx := mem_of_moved hord fuel hless hin h'
        exact not_swaps_of_tied hord (htied x hyx.2 y hyx.1) hswaps
    | inner slice hsub hless hjoin hin =>
      have hxy := mem_of_moved hord fuel hless hin h
      cases stepOf hord hfuel' s' hs' with
      | own hown' =>
        exact not_swaps_of_joined hord (hjoin y hxy.2 x hxy.1) (swaps_of_inColumn hown' h').2.2
      | inner slice' hsub' hless' hjoin' hin' => exact ih hless hless' hin hin'
      | next slice' hsub' hless' htied' hin' =>
        have hyx := mem_of_moved hord fuel hless' hin' h'
        exact not_moved_of_joinedRows hord fuel hless (joinedRows_of_tied (htied' x hyx.2 y hyx.1)) hin h
    | next slice hsub hless htied hin =>
      have hxy := mem_of_moved hord fuel hless hin h
      cases stepOf hord hfuel' s' hs' with
      | own hown' =>
        exact not_swaps_of_tied hord (htied y hxy.2 x hxy.1) (swaps_of_inColumn hown' h').2.2
      | inner slice' hsub' hless' hjoin' hin' =>
        exact not_moved_of_joinedRows hord fuel hless' (joinedRows_of_tied (htied y hxy.2 x hxy.1)) hin' h'
      | next slice' hsub' hless' htied' hin' => exact ih hless hless' hin hin'

end Moves

end Mrustc.MatchRules
