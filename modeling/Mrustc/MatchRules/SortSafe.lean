import Mrustc.MatchRules.Moves

/-! # The sort is safe as far as its swaps are

The sort keeps the order of the rule sets that match a value, for every value, exactly when each step of it fits: it
does not stop the compiler, and it swaps no rule sets that both match a value on misjudged rules.
-/

namespace Mrustc.MatchRules
open Hir AdjacentSwaps Comparison

variable {P B : Type} (named : P → Val → Bool) (toFloat : Double → Double)

/-- The rule sets that match a value, in their order. -/
def matching (v : Val) (rows : List (PatternRuleset P B)) : List (PatternRuleset P B) :=
  rows.filter (·.matches named toFloat v)

/-- The arm that a value selects. -/
def selectArm (v : Val) (rows : List (PatternRuleset P B)) : Option ℕ :=
  (rows.find? (·.matches named toFloat v)).map PatternRuleset.armIdx

/-- The sort ends with the rule sets rearranged, those that match a value in their order, and every value selects the
arm that it did. -/
def SortsSafely (ordPath : P → P → Ordering) (rows : List (PatternRuleset P B)) : Prop :=
  ∃ rows', (sortRulesets ordPath rows).result = .ok rows' ∧ rows'.Perm rows ∧
    (∀ v, matching named toFloat v rows' = matching named toFloat v rows) ∧
    ∀ v, selectArm named toFloat v rows' = selectArm named toFloat v rows

/-- A step does not stop the compiler, and swaps no rule sets with a common value on misjudged rules. -/
def Step.Fits (ordPath : P → P → Ordering) (s : Step P (PatternRuleset P B)) : Prop :=
  s.Goes ordPath ∧ ∀ x y a b, s = .compare x y a b → swapsRules ordPath a b = .ok true → Misjudged a b →
    ¬ PatternRuleset.Overlap named toFloat x y

variable {named toFloat} {ordPath : P → P → Ordering} {rows : List (PatternRuleset P B)} {v : Val}

/-- The rules that a view gives of a rule set hold of what the rule set matches. -/
def Sees (named : P → Val → Bool) (toFloat : Double → Double) (v : Val)
    (view : PatternRuleset P B → List (PatternRule P)) : Prop :=
  ∀ x : PatternRuleset P B, x.matches named toFloat v → ∀ a ∈ view x, a.matches named toFloat v

theorem mem_allMatch {l : List (PatternRule P)} (h : PatternRule.allMatch named toFloat v l) :
    ∀ a ∈ l, a.matches named toFloat v := by
  induction l with
  | nil => simp
  | cons a l ih =>
    simp only [PatternRule.allMatch, Bool.and_eq_true] at h
    exact List.forall_mem_cons.mpr ⟨h.1, ih h.2⟩

theorem sees_rules : Sees (B := B) named toFloat v PatternRuleset.rules := fun _ hx => mem_allMatch hx

theorem Sees.ruleAt {view : PatternRuleset P B → List (PatternRule P)} (h : Sees named toFloat v view)
    {x : PatternRuleset P B} (hx : x.matches named toFloat v) (idx : ℕ) :
    (ruleAt view idx x).matches named toFloat v := by
  rw [MatchRules.ruleAt, List.getD_eq_getElem?_getD]
  cases hget : (view x)[idx]? with
  | none => rfl
  | some a => exact h x hx a (List.mem_of_getElem? hget)

theorem Sees.innerView {view : PatternRuleset P B → List (PatternRule P)} (h : Sees named toFloat v view) (idx : ℕ) :
    Sees named toFloat v (innerView view idx) := by
  intro x hx
  have hrule := h.ruleAt hx idx
  rw [MatchRules.innerView]
  cases hcase : MatchRules.ruleAt view idx x with
  | variant p i subRules =>
    simp only [hcase, PatternRule.matches, Bool.and_eq_true] at hrule
    exact mem_allMatch hrule.2
  | _ => simp [innerRules]

/-- A value that two compared rule sets match is matched by the rules that are compared. -/
theorem compare_sees (hord : Partial ordPath) (fuel : ℕ) {view : PatternRuleset P B → List (PatternRule P)} {idx : ℕ}
    (hfuel : ∀ x ∈ rows, sizeFrom view idx x < fuel) (h : Sees named toFloat v view) {x y : PatternRuleset P B}
    {a b : PatternRule P} (hs : .compare x y a b ∈ (sortRulesetsFrom ordPath fuel view idx rows).steps)
    (hx : x.matches named toFloat v) (hy : y.matches named toFloat v) :
    a.matches named toFloat v ∧ b.matches named toFloat v := by
  induction fuel generalizing view idx rows with
  | zero => simp [steps_zero hfuel] at hs
  | succ fuel ih =>
    cases stepOf hord hfuel _ hs with
    | own hown =>
      rcases hown with ⟨_, _, rfl, rfl⟩
      exact ⟨h.ruleAt hx idx, h.ruleAt hy idx⟩
    | inner slice _ hless _ hs' => exact ih hless (h.innerView idx) hs'
    | next slice _ hless _ hs' => exact ih hless h hs'

theorem sizeFrom_le_sum {x : PatternRuleset P B} (hx : x ∈ rows) :
    sizeFrom PatternRuleset.rules 0 x < (rows.map fun r => PatternRule.sizeAll r.rules).sum + 1 :=
  Nat.lt_succ_of_le (List.single_le_sum (fun _ _ => Nat.zero_le _) _ (List.mem_map_of_mem hx))

theorem sortRulesets_sound (hord : Partial ordPath) (rows : List (PatternRuleset P B)) :
    SoundRun ordPath (fun _ => True) rows id (sortRulesets ordPath rows) :=
  sortRulesetsFrom_sound hord _ _ _ rows fun _ => sizeFrom_le_sum

/-- The sort never wants fuel. -/
theorem sortRulesets_ends (hord : Partial ordPath) (rows : List (PatternRuleset P B)) :
    (sortRulesets ordPath rows).result ≠ .error .outOfFuel :=
  (sortRulesets_sound hord rows).fuelled

theorem selectArm_of_matching {rows' : List (PatternRuleset P B)}
    (h : matching named toFloat v rows' = matching named toFloat v rows) :
    selectArm named toFloat v rows' = selectArm named toFloat v rows := by
  simp only [matching] at h
  simp only [selectArm, ← List.head?_filter, h]

theorem sortsSafely_of_fits (hord : Partial ordPath)
    (h : ∀ s ∈ (sortRulesets ordPath rows).steps, s.Fits named toFloat ordPath) :
    SortsSafely named toFloat ordPath rows := by
  have hsound := sortRulesets_sound hord rows
  rcases hsound.goes_iff.mp fun s hs => (h s hs).1 with ⟨rows', hrows'⟩
  have hkeep : ∀ v, matching named toFloat v rows' = matching named toFloat v rows := by
    intro v
    apply (hsound.swaps rows' hrows').filter_eq
    rintro ⟨x, y⟩ he ⟨hx, hy⟩
    rcases List.mem_filterMap.mp he with ⟨s, hs, hmoved⟩
    rcases Step.moved_eq_some hmoved with ⟨a, b, rfl, hswaps⟩
    have hab := compare_sees hord _ (fun _ => sizeFrom_le_sum) sees_rules hs hx hy
    by_cases hm : Misjudged a b
    · exact (h _ hs).2 x y a b rfl hswaps hm ⟨v, hx, hy⟩
    · exact disjoint_of_swaps hswaps hm hab.1 hab.2
  exact ⟨rows', hrows', hsound.perm hrows', hkeep, fun v => selectArm_of_matching (hkeep v)⟩

open Classical in
/-- A pair that the sort swapped and that matches a common value stays swapped. -/
theorem matching_ne_of_moved (hord : Partial ordPath) {rows' : List (PatternRuleset P B)}
    (hrows' : (sortRulesets ordPath rows).result = .ok rows') {s : Step P (PatternRuleset P B)}
    (hs : s ∈ (sortRulesets ordPath rows).steps) {x y : PatternRuleset P B} (hmoved : s.moved ordPath = some (x, y))
    (hx : x.matches named toFloat v) (hy : y.matches named toFloat v) :
    matching named toFloat v rows' ≠ matching named toFloat v rows := by
  let R : PatternRuleset P B → PatternRuleset P B → Bool := fun u w => u = x ∧ w = y
  have hback : ∀ e ∈ (sortRulesets ordPath rows).steps.filterMap (Step.moved ordPath), R e.2 e.1 = false := by
    rintro ⟨u, w⟩ he
    rcases List.mem_filterMap.mp he with ⟨s', hs', hmoved'⟩
    by_contra hR
    simp only [R, Bool.not_eq_false, decide_eq_true_eq] at hR
    rcases hR with ⟨rfl, rfl⟩
    exact moved_asymm hord _ (fun _ => sizeFrom_le_sum) (fun _ => sizeFrom_le_sum) hs hs' hmoved hmoved'
  have hcount := ((sortRulesets_sound hord rows).swaps rows' hrows').inversions_add hback
  have hpos : 0 < ((sortRulesets ordPath rows).steps.filterMap (Step.moved ordPath)).countP fun e => R e.1 e.2 :=
    List.countP_pos_iff.mpr ⟨(x, y), List.mem_filterMap.mpr ⟨s, hs, hmoved⟩, by simp [R]⟩
  have hpart : ∀ u w, R u w → u.matches named toFloat v ∧ w.matches named toFloat v := by
    intro u w huw
    simp only [R, decide_eq_true_eq] at huw
    rw [huw.1, huw.2]
    exact ⟨hx, hy⟩
  intro heq
  have hsame := inversions_filter (R := R) (·.matches named toFloat v) hpart rows'
  rw [← inversions_filter (R := R) (·.matches named toFloat v) hpart rows] at hcount
  simp only [matching] at heq
  rw [heq] at hsame
  simp only [id] at hcount
  omega

theorem fits_of_sortsSafely (hord : Partial ordPath) (h : SortsSafely named toFloat ordPath rows) :
    ∀ s ∈ (sortRulesets ordPath rows).steps, s.Fits named toFloat ordPath := by
  rcases h with ⟨rows', hrows', _, hkeep, _⟩
  intro s hs
  refine ⟨(sortRulesets_sound hord rows).goes_iff.mpr ⟨rows', hrows'⟩ s hs, ?_⟩
  rintro x y a b rfl hswaps _ ⟨v, hx, hy⟩
  have hmoved : Step.moved ordPath (.compare x y a b) = some (x, y) := by simp [Step.moved, hswaps]
  exact matching_ne_of_moved hord hrows' hs hmoved hx hy (hkeep v)

/-- The overlap test is right about rules that are not misjudged, and the sort is safe exactly when its steps fit. -/
theorem sort_rulesets_safe_iff [LinearOrder P] (named : P → Val → Bool) (toFloat : Double → Double)
    (rows : List (PatternRuleset P B)) :
    (sortRulesets compare rows).result ≠ .error .outOfFuel ∧
    (∀ a b : PatternRule P, rulesOverlap compare a b = .ok false → ¬ Misjudged a b → ¬ Misjudged b a →
      ∀ v, ¬ (a.matches named toFloat v ∧ b.matches named toFloat v)) ∧
    (SortsSafely named toFloat compare rows ↔
      ∀ s ∈ (sortRulesets compare rows).steps, s.Fits named toFloat compare) := by
  have hord : Partial (compare : P → P → Ordering) := .of_transCmp _
  refine ⟨sortRulesets_ends hord rows, ?_, fits_of_sortsSafely hord, sortsSafely_of_fits hord⟩
  rintro a b ho hm hm' v ⟨ha, hb⟩
  exact disjoint_of_overlap ho hm hm' ha hb

/-- `b"ab"` before `[_, b'b']`: the byte string is moved behind the slice, and `b"ab"` selects the other arm. -/
theorem sort_rulesets_moves_byte_string :
    ∃ rows : List (PatternRuleset ℕ ℕ), ∃ v, rows.length = 2 ∧
      (∃ rows', (sortRulesets compare rows).result = .ok rows' ∧
        selectArm (fun _ _ => false) id v rows = some 0 ∧ selectArm (fun _ _ => false) id v rows' = some 1) ∧
      ¬ SortsSafely (fun _ _ => false) id compare rows := by
  let bytes : PatternRuleset ℕ ℕ := ⟨0, 0, [.value [255] (.bytes [97, 98])], []⟩
  let slice : PatternRuleset ℕ ℕ :=
    ⟨1, 0, [.slice [255] 2 [.any [255, 0], .value [255, 1] (.scalar (.uint 98 .u8))]], []⟩
  let v : Val := .ref (.seq [.scalar (.uint 97 .u8), .scalar (.uint 98 .u8)])
  have hresult : (sortRulesets compare [bytes, slice]).result = .ok [slice, bytes] := rfl
  have hbefore : selectArm (fun _ _ => false) id v [bytes, slice] = some 0 := by decide
  have hafter : selectArm (fun _ _ => false) id v [slice, bytes] = some 1 := by decide
  refine ⟨[bytes, slice], v, rfl, ⟨_, hresult, hbefore, hafter⟩, ?_⟩
  rintro ⟨rows', hrows', _, _, harm⟩
  rw [hresult, Except.ok.injEq] at hrows'
  have hsame := harm v
  rw [← hrows', hafter, hbefore] at hsame
  exact absurd hsame (by decide)

end Mrustc.MatchRules
