import Mrustc.MatchRules.Steps

/-! # The parts of the sort

Every part of the sort is a sound run over its rows. The rounds of the bubble end because each lowers the inversions.
-/

namespace Mrustc.MatchRules
open AdjacentSwaps Comparison

variable {P α : Type} {ordPath : P → P → Ordering} {view : α → List (PatternRule P)} {idx : ℕ} {p : Step P α → Prop}

/-- A sound run of the sort's steps. -/
abbrev SoundRun {β : Type} (ordPath : P → P → Ordering) (p : Step P α → Prop) (rows : List α) (get : β → List α)
    (r : Run (Step P α) β) : Prop :=
  r.Sound (Step.Goes ordPath) p (Step.moved ordPath) rows get

theorem assertColumns_sound {rows : List α} (l : List α) (hp : ∀ x ∈ l, p (.column (view x) idx)) :
    SoundRun ordPath p rows (fun _ => rows) (assertColumns view idx l) := by
  induction l with
  | nil => exact .pure rfl
  | cons x l ih =>
    have hx : SoundRun ordPath p rows (fun _ => rows)
        (Run.step (.column (view x) idx) (if idx < (view x).length then .ok () else .error .assertColumn)) := by
      apply Run.Sound.silent (hp x (.head _))
      · simp only [Step.Goes]
        split <;> simp_all
      · rfl
    exact hx.bind fun _ _ => ih fun y hy => hp y (.tail _ hy)

theorem length_of_assertColumns {l : List α} (h : (assertColumns (P := P) view idx l).result = .ok ()) :
    ∀ x ∈ l, idx < (view x).length := by
  induction l with
  | nil => simp
  | cons x l ih =>
    rcases Run.result_bind_eq_ok.mp h with ⟨_, hx, hl⟩
    rw [Run.step_eq_ok] at hx
    intro y hy
    rcases List.mem_cons.mp hy with rfl | hy
    · by_contra hlt
      simp [hlt] at hx
    · exact ih hl y hy

theorem checkInner_sound {rows : List α} (l : List α) (hp : ∀ x ∈ l, p (.inner (ruleAt view idx x))) :
    SoundRun ordPath p rows (fun _ => rows) (checkInner view idx l) := by
  induction l with
  | nil => exact .pure rfl
  | cons x l ih =>
    have hx : SoundRun ordPath p rows (fun _ => rows) (Run.step (.inner (ruleAt view idx x))
        (if isVariant (ruleAt view idx x) then .ok () else .error .notVariant)) := by
      apply Run.Sound.silent (hp x (.head _))
      · simp only [Step.Goes]
        split <;> simp_all
      · rfl
    exact hx.bind fun _ _ => ih fun y hy => hp y (.tail _ hy)

section Bubble

/-- The comparison of two neighbours, and the rows after it. -/
theorem compare_sound (x y : α) (rest : List α) (hp : ∀ s : Step P α, s.InColumn view idx (x :: y :: rest) → p s) :
    SoundRun ordPath p (x :: y :: rest) (fun swap => if swap then y :: x :: rest else x :: y :: rest)
      (Run.step (.compare x y (ruleAt view idx x) (ruleAt view idx y))
        (swapsRules ordPath (ruleAt view idx x) (ruleAt view idx y))) := by
  apply Run.Sound.step
  · exact hp _ (by simp [Step.InColumn])
  · exact comparable_iff
  intro swap hswap
  cases swap
  · simpa [Step.moved, hswap] using Swaps.refl _
  · simpa [Step.moved, hswap] using Swaps.one x y rest

theorem bubblePass_sound (x : α) (l : List α) (hp : ∀ s : Step P α, s.InColumn view idx (x :: l) → p s) :
    SoundRun ordPath p (x :: l) Prod.fst (bubblePass ordPath view idx x l) := by
  induction l generalizing x with
  | nil => exact .pure rfl
  | cons y rest ih =>
    have hx : (x :: rest) ⊆ x :: y :: rest := by simp
    have hy : (y :: rest) ⊆ x :: y :: rest := by simp
    apply (compare_sound x y rest hp).bind
    intro swap _
    cases swap
    · apply ((ih y fun s hs => hp s (hs.mono hy)).cons x).bind
      rintro ⟨rows, actionTaken⟩ _
      exact .pure rfl
    · apply ((ih x fun s hs => hp s (hs.mono hx)).cons y).bind
      rintro ⟨rows, actionTaken⟩ _
      exact .pure rfl

/-- A round that took an action swapped something. -/
theorem moved_of_actionTaken {x : α} {l rows : List α}
    (h : (bubblePass ordPath view idx x l).result = .ok (rows, true)) :
    (bubblePass ordPath view idx x l).steps.filterMap (Step.moved ordPath) ≠ [] := by
  induction l generalizing x rows with
  | nil => simp [bubblePass] at h
  | cons y rest ih =>
    rcases Run.result_bind_eq_ok.mp h with ⟨swap, hswap, h⟩
    rw [bubblePass, Run.bind_of_ok hswap]
    simp only [Run.steps_step, List.filterMap_append, ne_eq, List.append_eq_nil_iff, not_and]
    rw [Run.step_eq_ok] at hswap
    cases swap
    · rcases Run.result_bind_eq_ok.mp h with ⟨⟨rows', actionTaken⟩, hrows, h⟩
      simp only [Run.result_pure, Except.ok.injEq, Prod.mk.injEq] at h
      intro _ hnil
      simp only [Bool.false_eq_true, if_false, Run.bind_of_ok hrows, List.append_eq_nil_iff, List.filterMap_append]
        at hnil
      exact ih (h.2 ▸ hrows) hnil.1
    · intro hnil
      simp [Step.moved, hswap] at hnil

/-- The pairs that a column has in the wrong order. -/
def swapped (ordPath : P → P → Ordering) (view : α → List (PatternRule P)) (idx : ℕ) (x y : α) : Bool :=
  match swapsRules ordPath (ruleAt view idx x) (ruleAt view idx y) with
  | .ok true => true
  | _ => false

theorem swapped_iff {x y : α} :
    swapped ordPath view idx x y ↔ swapsRules ordPath (ruleAt view idx x) (ruleAt view idx y) = .ok true := by
  unfold swapped
  split <;> simp_all

/-- The rules of the column decide what a step of it swaps. -/
theorem swaps_of_inColumn {rows : List α} {s : Step P α} {x y : α} (h : s.InColumn view idx rows)
    (he : s.moved ordPath = some (x, y)) :
    x ∈ rows ∧ y ∈ rows ∧ swapsRules ordPath (ruleAt view idx x) (ruleAt view idx y) = .ok true := by
  rcases Step.moved_eq_some he with ⟨a, b, rfl, hs⟩
  rcases h with ⟨hx, hy, rfl, rfl⟩
  exact ⟨hx, hy, hs⟩

/-- A round that took an action lowers the inversions. -/
theorem inversions_lt_of_actionTaken (hord : Partial ordPath) {x : α} {l rows : List α}
    (h : (bubblePass ordPath view idx x l).result = .ok (rows, true)) :
    inversions (swapped ordPath view idx) rows < inversions (swapped ordPath view idx) (x :: l) := by
  have hsound : SoundRun ordPath (Step.InColumn view idx (x :: l)) (x :: l) Prod.fst
      (bubblePass ordPath view idx x l) := bubblePass_sound x l fun _ hs => hs
  have hlog : ∀ e ∈ (bubblePass ordPath view idx x l).steps.filterMap (Step.moved ordPath),
      swapped ordPath view idx e.1 e.2 := by
    intro e he
    rcases List.mem_filterMap.mp he with ⟨s, hs, hse⟩
    exact swapped_iff.mpr (swaps_of_inColumn (hsound.all s hs) hse).2.2
  have hback : ∀ e ∈ (bubblePass ordPath view idx x l).steps.filterMap (Step.moved ordPath),
      swapped ordPath view idx e.2 e.1 = false := by
    intro e he
    rw [Bool.eq_false_iff, ne_eq, swapped_iff]
    exact swapsRules_asymm hord (swapped_iff.mp (hlog e he))
  have hcount := (hsound.swaps _ h).inversions_add hback
  dsimp only at hcount
  have hpos : 0 < ((bubblePass ordPath view idx x l).steps.filterMap (Step.moved ordPath)).countP
      fun e => swapped ordPath view idx e.1 e.2 := by
    rw [List.countP_eq_length.mpr hlog]
    exact List.length_pos_of_ne_nil (moved_of_actionTaken h)
  omega

theorem bubble_sound (hord : Partial ordPath) (fuel : ℕ) (rows : List α)
    (hfuel : inversions (swapped ordPath view idx) rows < fuel)
    (hp : ∀ s : Step P α, s.InColumn view idx rows → p s) :
    SoundRun ordPath p rows id (bubble ordPath view idx fuel rows) := by
  induction fuel generalizing rows with
  | zero => exact absurd hfuel (Nat.not_lt_zero _)
  | succ fuel ih =>
    cases rows with
    | nil => exact .pure rfl
    | cons x rest =>
      have hround : SoundRun ordPath p (x :: rest) Prod.fst (bubblePass ordPath view idx x rest) :=
        bubblePass_sound x rest hp
      apply hround.bind
      rintro ⟨rows, actionTaken⟩ hrows
      cases actionTaken
      · exact .pure rfl
      · have hlt := inversions_lt_of_actionTaken hord hrows
        have hsub : rows ⊆ x :: rest := (hround.perm hrows).subset
        exact ih rows (by omega) fun s hs => hp s (hs.mono hsub)

end Bubble

section Runs

variable {isEqual : α → α → Run (Step P α) Bool} {sort : List α → Run (Step P α) (List α)}

/-- Each row of the slice is its start or equals it. -/
def IsRun (isEqual : α → α → Run (Step P α) Bool) (start : α) (slice : List α) : Prop :=
  ∀ x ∈ slice, x = start ∨ (isEqual x start).result = .ok true

theorem IsRun.single (x : α) : IsRun isEqual x [x] := by
  simp [IsRun]

theorem IsRun.snoc {start x : α} {slice : List α} (h : IsRun isEqual start slice)
    (hx : (isEqual x start).result = .ok true) : IsRun isEqual start (slice ++ [x]) := by
  intro y hy
  rcases List.mem_append.mp hy with hy | hy
  · exact h y hy
  · rw [List.mem_singleton.mp hy]
    exact .inr hx

theorem forRuns_sound {rows : List α}
    (hequal : ∀ (l : List α) x y, SoundRun ordPath p l (fun _ => l) (isEqual x y))
    (hsort : ∀ start slice, slice ⊆ rows → IsRun isEqual start slice → SoundRun ordPath p slice id (sort slice))
    {start : α} {slice : List α} (rest : List α) (hslice : IsRun isEqual start slice) (hsub : slice ++ rest ⊆ rows) :
    SoundRun ordPath p (slice ++ rest) id (forRuns isEqual sort start slice rest) := by
  induction rest generalizing start slice with
  | nil =>
    rw [List.append_nil] at hsub ⊢
    exact hsort start slice hsub hslice
  | cons x rest ih =>
    have hsub' : slice ++ [x] ++ rest ⊆ rows := by simpa using hsub
    apply (hequal _ x start).bind
    intro equal hx
    cases equal
    · have hleft : slice ⊆ rows := fun y hy => hsub (List.mem_append_left _ hy)
      have hright : [x] ++ rest ⊆ rows := fun y hy => hsub (List.mem_append_right _ hy)
      have hdone := (hsort start slice hleft hslice).within [] (x :: rest)
      apply hdone.bind
      intro done _
      have hothers := (ih (.single x) hright).within done []
      rw [List.append_nil] at hothers
      apply hothers.bind
      intro others _
      exact .pure (by simp)
    · have hgo := ih (hslice.snoc hx) hsub'
      rwa [List.append_assoc] at hgo

/-- The rows run by run. -/
theorem forAllRuns_sound {rows : List α}
    (hequal : ∀ (l : List α) x y, SoundRun ordPath p l (fun _ => l) (isEqual x y))
    (hsort : ∀ start slice, slice ⊆ rows → IsRun isEqual start slice → SoundRun ordPath p slice id (sort slice)) :
    SoundRun ordPath p rows id (forAllRuns isEqual sort rows) := by
  cases rows with
  | nil => exact .pure rfl
  | cons x rest => exact forRuns_sound hequal hsort rest (.single x) (List.Subset.refl _)

theorem map_eq_ok_iff {ε β γ : Type} {e : Except ε β} {f : β → γ} :
    (∃ b, f <$> e = .ok b) ↔ ∃ b, e = .ok b := by
  cases e <;> simp [Functor.map, Except.map]

theorem ruleCompatible_sound {l : List α} (x y : α) (hp : p (.group (ruleAt view idx x) (ruleAt view idx y))) :
    SoundRun ordPath p l (fun _ => l) (ruleCompatible ordPath view idx x y) :=
  .silent hp map_eq_ok_iff.symm rfl

theorem ruleSame_sound {l : List α} (x y : α) (hp : p (.same (ruleAt view idx x) (ruleAt view idx y))) :
    SoundRun ordPath p l (fun _ => l) (ruleSame ordPath view idx x y) :=
  .silent hp map_eq_ok_iff.symm rfl

/-- The rules of a run of compatible rules equal one rule in their heads. -/
theorem joined_of_compatible {start x y : α} {slice : List α}
    (h : IsRun (ruleCompatible ordPath view idx) start slice) (hx : x ∈ slice) (hy : y ∈ slice) :
    Joined (fun a b => PatternRule.headOrd ordPath a b = .eq) (ruleAt view idx x) (ruleAt view idx y) := by
  have hhead : ∀ z, (ruleCompatible ordPath view idx z start).result = .ok true →
      (ruleAt view idx z).headOrd ordPath (ruleAt view idx start) = .eq := by
    intro z hz
    apply headOrd_of_compatible
    rw [ruleCompatible, Run.step_eq_ok] at hz
    cases ho : ordRuleCompatible ordPath (ruleAt view idx z) (ruleAt view idx start) <;> simp_all [Functor.map, Except.map]
  exact ⟨ruleAt view idx start, (h x hx).imp (congrArg _) (hhead x), (h y hy).imp (congrArg _) (hhead y)⟩

/-- The rules of a run of equal rules equal one rule. -/
theorem joined_of_same {start x y : α} {slice : List α} (h : IsRun (ruleSame ordPath view idx) start slice)
    (hx : x ∈ slice) (hy : y ∈ slice) :
    Joined (fun a b => PatternRule.ord ordPath a b = .ok .eq) (ruleAt view idx x) (ruleAt view idx y) := by
  have hord : ∀ z, (ruleSame ordPath view idx z start).result = .ok true →
      (ruleAt view idx z).ord ordPath (ruleAt view idx start) = .ok .eq := by
    intro z hz
    rw [ruleSame, Run.step_eq_ok] at hz
    cases ho : (ruleAt view idx z).ord ordPath (ruleAt view idx start) <;> simp_all [Functor.map, Except.map]
  exact ⟨ruleAt view idx start, (h x hx).imp (congrArg _) (hord x), (h y hy).imp (congrArg _) (hord y)⟩

end Runs

end Mrustc.MatchRules
