import Mathlib.Data.List.Pairwise
import Mathlib.Tactic

/-! # Items placed one after the other

Each item starts at the first multiple of its alignment after the end of the one before it. An alignment of zero
asks for nothing.
-/

namespace Mrustc.Layout

/-- The least multiple of `a` from `n` on. -/
def roundUp (n a : ℕ) : ℕ := if a = 0 then n else (n + (a - 1)) / a * a

structure Item where
  size : ℕ
  align : ℕ
  deriving DecidableEq

/-- The start of each item. -/
def offsets : ℕ → List Item → List ℕ
  | _, [] => []
  | n, it :: its => roundUp n it.align :: offsets (roundUp n it.align + it.size) its

/-- The end of the last item. -/
def finish : ℕ → List Item → ℕ
  | n, [] => n
  | n, it :: its => finish (roundUp n it.align + it.size) its

/-- The items with their starts. -/
def placed (n : ℕ) (its : List Item) : List (Item × ℕ) := its.zip (offsets n its)

variable {n m a : ℕ} {it : Item} {its its' : List Item}

theorem le_roundUp (n a : ℕ) : n ≤ roundUp n a := by
  rw [roundUp]
  split
  case isTrue => exact le_rfl
  case isFalse h =>
    have hdm := Nat.div_add_mod' (n + (a - 1)) a
    have hlt := Nat.mod_lt (n + (a - 1)) (Nat.pos_of_ne_zero h)
    omega

theorem dvd_roundUp (ha : a ≠ 0) : a ∣ roundUp n a := by
  rw [roundUp, if_neg ha]
  exact Nat.dvd_mul_left _ _

theorem roundUp_le (h : n ≤ m) (ha : a ∣ m) : roundUp n a ≤ m := by
  rw [roundUp]
  split
  case isTrue => exact h
  case isFalse h0 =>
    obtain ⟨k, rfl⟩ := ha
    have hlt : n + (a - 1) < a * (k + 1) := by
      rw [mul_add, mul_one]
      omega
    have hdiv : (n + (a - 1)) / a ≤ k := Nat.lt_succ_iff.mp (Nat.div_lt_of_lt_mul hlt)
    rw [mul_comm a k]
    exact Nat.mul_le_mul_right a hdiv

theorem roundUp_of_dvd (h : a ∣ n) : roundUp n a = n := le_antisymm (roundUp_le le_rfl h) (le_roundUp n a)

@[simp] theorem roundUp_zero (a : ℕ) : roundUp 0 a = 0 := roundUp_of_dvd (dvd_zero a)

@[simp] theorem length_offsets (n : ℕ) (its : List Item) : (offsets n its).length = its.length := by
  induction its generalizing n with
  | nil => rfl
  | cons it its ih => rw [offsets, List.length_cons, List.length_cons, ih]

theorem placed_cons (n : ℕ) (it : Item) (its : List Item) :
    placed n (it :: its) = (it, roundUp n it.align) :: placed (roundUp n it.align + it.size) its := rfl

theorem le_finish (n : ℕ) (its : List Item) : n ≤ finish n its := by
  induction its generalizing n with
  | nil => exact le_rfl
  | cons it its ih =>
    have hround := le_roundUp n it.align
    have hrest := ih (roundUp n it.align + it.size)
    rw [finish]
    omega

/-- Items end before the end of the last one and start after the start of all. -/
theorem placed_bounds {p : Item × ℕ} (h : p ∈ placed n its) : n ≤ p.2 ∧ p.2 + p.1.size ≤ finish n its := by
  induction its generalizing n with
  | nil => cases h
  | cons it its ih =>
    have hround := le_roundUp n it.align
    rw [placed_cons] at h
    rcases List.mem_cons.mp h with rfl | h
    · exact ⟨hround, le_finish _ _⟩
    · have hrest := ih h
      refine ⟨?_, hrest.2⟩
      omega

theorem placed_aligned {p : Item × ℕ} (h : p ∈ placed n its) (ha : p.1.align ≠ 0) : p.1.align ∣ p.2 := by
  induction its generalizing n with
  | nil => cases h
  | cons it its ih =>
    rw [placed_cons] at h
    rcases List.mem_cons.mp h with rfl | h
    · exact dvd_roundUp ha
    · exact ih h

/-- Each item ends before the later ones start. -/
theorem placed_pairwise (n : ℕ) (its : List Item) : (placed n its).Pairwise fun p q => p.2 + p.1.size ≤ q.2 := by
  induction its generalizing n with
  | nil => exact .nil
  | cons it its ih =>
    rw [placed_cons, List.pairwise_cons]
    exact ⟨fun q hq => (placed_bounds hq).1, ih _⟩

theorem finish_append (n : ℕ) (its : List Item) (it : Item) :
    finish n (its ++ [it]) = roundUp (finish n its) it.align + it.size := by
  induction its generalizing n with
  | nil => rfl
  | cons x its ih =>
    rw [List.cons_append, finish, finish]
    exact ih _

end Mrustc.Layout
