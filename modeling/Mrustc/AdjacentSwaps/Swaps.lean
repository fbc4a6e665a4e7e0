import Mathlib.Data.List.Perm.Basic
import Mathlib.Tactic

/-! # Adjacent swaps

A list is rearranged by swaps of neighbours, with a log of the pairs that changed their order. What the log leaves out
keeps its order, and the inversions of a relation fall with every logged pair of it.
-/

namespace Mrustc.AdjacentSwaps

variable {α : Type} {log log' : List (α × α)} {l l' l'' : List α}

/-- Each pair of the log stood as neighbours in this order and was swapped. -/
inductive Swaps : List (α × α) → List α → List α → Prop
  | refl (l : List α) : Swaps [] l l
  | swap (pre : List α) (x y : α) (post : List α) {log l'} (h : Swaps log (pre ++ y :: x :: post) l') :
    Swaps ((x, y) :: log) (pre ++ x :: y :: post) l'

namespace Swaps

theorem trans (h : Swaps log l l') (h' : Swaps log' l' l'') : Swaps (log ++ log') l l'' := by
  induction h with
  | refl l => exact h'
  | swap pre x y post _ ih => exact .swap pre x y post (ih h')

theorem one (x y : α) (post : List α) : Swaps [(x, y)] (x :: y :: post) (y :: x :: post) :=
  .swap [] x y post (.refl _)

/-- Swaps between what stays in front and what stays behind. -/
theorem within (before after : List α) (h : Swaps log l l') :
    Swaps log (before ++ l ++ after) (before ++ l' ++ after) := by
  induction h with
  | refl l => exact .refl _
  | swap pre x y post _ ih =>
    have ih' := Swaps.swap (before ++ pre) x y (post ++ after) (by simpa using ih)
    simpa using ih'

theorem cons (x : α) (h : Swaps log l l') : Swaps log (x :: l) (x :: l') := by
  simpa using h.within [x] []

/-- Two lists side by side. -/
theorem append {r r' : List α} (h : Swaps log l l') (h' : Swaps log' r r') :
    Swaps (log ++ log') (l ++ r) (l' ++ r') := by
  have hl : Swaps log (l ++ r) (l' ++ r) := by simpa using h.within [] r
  have hr : Swaps log' (l' ++ r) (l' ++ r') := by simpa using h'.within l' []
  exact hl.trans hr

theorem perm (h : Swaps log l l') : l'.Perm l := by
  induction h with
  | refl l => exact .refl l
  | swap pre x y post _ ih => exact ih.trans (.append_left pre (.swap x y post))

/-- Where no logged pair belongs to a part of the elements twice, the part keeps its order. -/
theorem filter_eq (h : Swaps log l l') (p : α → Bool) (hp : ∀ e ∈ log, ¬ (p e.1 ∧ p e.2)) :
    l'.filter p = l.filter p := by
  induction h with
  | refl l => rfl
  | swap pre x y post _ ih =>
    rw [ih fun e he => hp e (.tail _ he), List.filter_append, List.filter_append]
    have hxy : ¬ (p x ∧ p y) := hp (x, y) (.head _)
    congr 1
    by_cases hx : p x
    · have hy : ¬ p y := fun hy => hxy ⟨hx, hy⟩
      rw [List.filter_cons_of_neg hy, List.filter_cons_of_pos hx, List.filter_cons_of_pos hx,
        List.filter_cons_of_neg hy]
    · simp only [List.filter_cons, if_neg hx]

end Swaps

/-- The pairs of the relation that stand in its order, neighbours or not. -/
def inversions (R : α → α → Bool) : List α → ℕ
  | [] => 0
  | x :: l => l.countP (R x) + inversions R l

variable {R : α → α → Bool}

theorem inversions_le (R : α → α → Bool) (l : List α) : inversions R l ≤ l.length ^ 2 := by
  induction l with
  | nil => rfl
  | cons x l ih =>
    have hx : l.countP (R x) ≤ l.length := List.countP_le_length
    simp only [inversions, List.length_cons]
    nlinarith

theorem inversions_append (l r : List α) : inversions R (l ++ r) =
    inversions R l + inversions R r + (l.map fun x => r.countP (R x)).sum := by
  induction l with
  | nil => simp [inversions]
  | cons x l ih =>
    simp only [List.cons_append, inversions, List.countP_append, ih, List.map_cons, List.sum_cons]
    omega

/-- A swap gives up its own pair, and gains no other. -/
theorem inversions_swap (pre : List α) (x y : α) (post : List α) (h : R y x = false) :
    inversions R (pre ++ y :: x :: post) + (if R x y then 1 else 0) = inversions R (pre ++ x :: y :: post) := by
  have hsum : (pre.map fun z => (y :: x :: post).countP (R z)) = pre.map fun z => (x :: y :: post).countP (R z) :=
    List.map_congr_left fun z _ => (List.Perm.swap x y post).countP_eq (R z)
  rw [inversions_append, inversions_append, hsum]
  simp only [inversions, List.countP_cons, h]
  split <;> simp_all
  omega

namespace Swaps

/-- Swaps that never put a pair of the relation in order lower its inversions by the logged pairs of it. -/
theorem inversions_add (h : Swaps log l l') (hR : ∀ e ∈ log, R e.2 e.1 = false) :
    inversions R l' + log.countP (fun e => R e.1 e.2) = inversions R l := by
  induction h with
  | refl l => rfl
  | swap pre x y post _ ih =>
    have ih' := ih fun e he => hR e (.tail _ he)
    have hxy := inversions_swap pre x y post (hR (x, y) (.head _))
    simp only [List.countP_cons]
    omega

end Swaps

/-- The inversions among the elements of a part that holds both ends of every pair of the relation. -/
theorem inversions_filter (p : α → Bool) (h : ∀ x y, R x y → p x ∧ p y) (l : List α) :
    inversions R (l.filter p) = inversions R l := by
  induction l with
  | nil => rfl
  | cons x l ih =>
    rw [List.filter_cons]
    split
    next hx =>
      have hcount : (l.filter p).countP (R x) = l.countP (R x) := by
        rw [List.countP_filter]
        apply List.countP_congr
        intro y _
        simpa using fun hy => (h x y hy).2
      simp only [inversions, ih, hcount]
    next hx =>
      have hcount : l.countP (R x) = 0 := by
        rw [List.countP_eq_zero]
        intro y _ hy
        exact hx (h x y hy).1
      simp only [inversions, ih, hcount, Nat.zero_add]

end Mrustc.AdjacentSwaps
