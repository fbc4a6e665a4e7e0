import Mrustc.MatchRules.Sorts

/-! # The recursion of the sort

Every call of the sort has fewer rules left of each of its rows. Its steps are those of its own column, those of the
sorts inside runs of compatible rules, and those of the sorts of the next column in runs of equal rules.
-/

namespace Mrustc.MatchRules
open Comparison

variable {P α : Type} {ordPath : P → P → Ordering} {view : α → List (PatternRule P)} {idx : ℕ}

theorem PatternRule.size_pos (a : PatternRule P) : 0 < a.size := by
  cases a <;> simp [PatternRule.size]

theorem sizeAll_innerRules_lt (a : PatternRule P) : PatternRule.sizeAll (innerRules a) < a.size := by
  cases a <;> simp [PatternRule.size, innerRules, PatternRule.sizeAll]

theorem sizeAll_drop {l : List (PatternRule P)} (h : idx < l.length) :
    PatternRule.sizeAll (l.drop idx) =
      (l.getD idx (.any [])).size + PatternRule.sizeAll (l.drop (idx + 1)) := by
  rw [List.drop_eq_getElem_cons h, PatternRule.sizeAll, List.getD_eq_getElem?_getD, List.getElem?_eq_getElem h,
    Option.getD_some]

/-- The rules left of a row, from a column on. -/
def sizeFrom (view : α → List (PatternRule P)) (idx : ℕ) (x : α) : ℕ := PatternRule.sizeAll ((view x).drop idx)

/-- The rules inside those of a column. -/
def innerView (view : α → List (PatternRule P)) (idx : ℕ) (x : α) : List (PatternRule P) :=
  innerRules (ruleAt view idx x)

theorem sizeFrom_succ_lt {x : α} (h : idx < (view x).length) : sizeFrom view (idx + 1) x < sizeFrom view idx x := by
  have hsize := sizeAll_drop h
  have hpos := PatternRule.size_pos ((view x).getD idx (.any []))
  simp only [sizeFrom]
  omega

theorem sizeFrom_innerView_lt {x : α} (h : idx < (view x).length) :
    sizeFrom (innerView view idx) 0 x < sizeFrom view idx x := by
  have hsize := sizeAll_drop h
  have hinner := sizeAll_innerRules_lt ((view x).getD idx (.any []))
  simp only [sizeFrom, innerView, ruleAt, List.drop_zero]
  omega

/-- The rules of two rows in a column equal one rule, or are wildcards both. -/
def Tied (ordPath : P → P → Ordering) (a b : PatternRule P) : Prop :=
  Joined (fun a b => PatternRule.ord ordPath a b = .ok .eq) a b ∨ a.isAny ∧ b.isAny

section Call

variable {p : Step P α → Prop}

theorem sortRulesetsInner_sound {sort : (α → List (PatternRule P)) → List α → Run (Step P α) (List α)}
    {rows : List α} (hp : ∀ x ∈ rows, p (.inner (ruleAt view idx x)))
    (h : SoundRun ordPath p rows id (sort (innerView view idx) rows)) :
    SoundRun ordPath p rows id (sortRulesetsInner sort view idx rows) := by
  cases rows with
  | nil => exact .pure rfl
  | cons first rest =>
    rw [sortRulesetsInner]
    split
    · exact .pure rfl
    · exact (checkInner_sound (first :: rest) hp).bind fun _ _ => h

/-- One call of the sort: what holds of the steps of its own column and of the calls that it makes holds of it. -/
theorem sortRulesetsFrom_succ (hord : Partial ordPath) (fuel : ℕ) (rows : List α)
    (hp : ∀ s : Step P α, s.InColumn view idx rows → p s)
    (hinner : ∀ slice, slice ⊆ rows → (∀ x ∈ slice, idx < (view x).length) →
      (∀ x ∈ slice, ∀ y ∈ slice,
        Joined (fun a b => PatternRule.headOrd ordPath a b = .eq) (ruleAt view idx x) (ruleAt view idx y)) →
      SoundRun ordPath p slice id (sortRulesetsFrom ordPath fuel (innerView view idx) 0 slice))
    (hnext : ∀ slice, slice ⊆ rows → (∀ x ∈ slice, idx < (view x).length) →
      (∀ x ∈ slice, ∀ y ∈ slice, Tied ordPath (ruleAt view idx x) (ruleAt view idx y)) →
      SoundRun ordPath p slice id (sortRulesetsFrom ordPath fuel view (idx + 1) slice)) :
    SoundRun ordPath p rows id (sortRulesetsFrom ordPath (fuel + 1) view idx rows) := by
  rcases rows with _ | ⟨x, _ | ⟨y, rest⟩⟩
  · exact .pure rfl
  · exact .pure rfl
  rw [sortRulesetsFrom]
  split
  · exact .pure rfl
  apply (assertColumns_sound (x :: y :: rest) fun _ _ => hp _ trivial).bind
  intro _ hcolumns
  have hlength := length_of_assertColumns hcolumns
  split
  next hsome =>
    have hbubble : SoundRun ordPath p (x :: y :: rest) id
        (bubble ordPath view idx ((x :: y :: rest).length ^ 2 + 1) (x :: y :: rest)) :=
      bubble_sound hord _ _ (Nat.lt_succ_of_le (AdjacentSwaps.inversions_le _ _)) hp
    apply hbubble.bind
    intro rows hrows
    have hsub : rows ⊆ x :: y :: rest := (hbubble.perm hrows).subset
    have hgroups : SoundRun ordPath p rows id (forAllRuns (ruleCompatible ordPath view idx)
        (sortRulesetsInner (fun view' => sortRulesetsFrom ordPath fuel view' 0) view idx) rows) :=
      forAllRuns_sound (fun _ _ _ => ruleCompatible_sound _ _ (hp _ trivial)) fun _ slice hslice hrun =>
        sortRulesetsInner_sound (fun _ _ => hp _ trivial) <|
          hinner slice (fun z hz => hsub (hslice hz)) (fun z hz => hlength z (hsub (hslice hz)))
            fun z hz z' hz' => joined_of_compatible hrun hz hz'
    apply hgroups.bind
    intro rows' hrows'
    have hsub' : rows' ⊆ x :: y :: rest := fun z hz => hsub ((hgroups.perm hrows').subset hz)
    split
    · exact forAllRuns_sound (fun _ _ _ => ruleSame_sound _ _ (hp _ trivial)) fun _ slice hslice hrun =>
        hnext slice (fun z hz => hsub' (hslice hz)) (fun z hz => hlength z (hsub' (hslice hz)))
          fun z hz z' hz' => .inl (joined_of_same hrun hz hz')
    · exact .pure rfl
  next hnone =>
    have hany : ∀ z ∈ x :: y :: rest, (ruleAt view idx z).isAny := by simpa using hnone
    split
    · exact hnext _ (List.Subset.refl _) hlength fun z hz z' hz' => .inr ⟨hany z hz, hany z' hz'⟩
    · exact .pure rfl

end Call

/-- With more fuel than any row has rules, the sort is a sound run. -/
theorem sortRulesetsFrom_sound (hord : Partial ordPath) (fuel : ℕ) (view : α → List (PatternRule P)) (idx : ℕ)
    (rows : List α) (hfuel : ∀ x ∈ rows, sizeFrom view idx x < fuel) :
    SoundRun ordPath (fun _ => True) rows id (sortRulesetsFrom ordPath fuel view idx rows) := by
  induction fuel generalizing view idx rows with
  | zero =>
    cases rows with
    | nil => exact .pure rfl
    | cons x rest => exact absurd (hfuel x (.head _)) (Nat.not_lt_zero _)
  | succ fuel ih =>
    apply sortRulesetsFrom_succ hord fuel rows fun _ _ => trivial
    · intro slice hsub hlength _
      apply ih
      intro x hx
      have hx' := hfuel x (hsub hx)
      have hlt := sizeFrom_innerView_lt (hlength x hx)
      omega
    · intro slice hsub hlength _
      apply ih
      intro x hx
      have hx' := hfuel x (hsub hx)
      have hlt := sizeFrom_succ_lt (hlength x hx)
      omega

end Mrustc.MatchRules
