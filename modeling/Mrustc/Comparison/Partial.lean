import Mathlib.Order.Compare
import Mathlib.Tactic

/-! # Comparisons with incomparable elements

A comparison may call an element less than anything, itself included, as one does that knows of numbers that are none.
What is left of an order is that a greater element is not less, and that equality is symmetric and transitive.
-/

namespace Mrustc.Comparison

structure Partial {α : Type} (cmp : α → α → Ordering) : Prop where
  gt_asymm : ∀ a b, cmp a b = .gt → cmp b a = .lt
  eq_symm : ∀ a b, cmp a b = .eq → cmp b a = .eq
  eq_trans : ∀ a b c, cmp a b = .eq → cmp b c = .eq → cmp a c = .eq

namespace Partial

variable {α β : Type} {cmp cmp' : α → α → Ordering}

theorem of_transCmp (cmp : α → α → Ordering) [Std.TransCmp cmp] : Partial cmp where
  gt_asymm _ _ := Std.OrientedCmp.gt_iff_lt.mp
  eq_symm _ _ := Std.OrientedCmp.eq_symm
  eq_trans _ _ _ := Std.TransCmp.eq_trans

/-- Elements compared by what a function gives for them. -/
theorem comap (f : β → α) (h : Partial cmp) : Partial fun a b => cmp (f a) (f b) where
  gt_asymm a b := h.gt_asymm (f a) (f b)
  eq_symm a b := h.eq_symm (f a) (f b)
  eq_trans a b c := h.eq_trans (f a) (f b) (f c)

/-- A second comparison decides where the first finds no difference. -/
theorem lex (h : Partial cmp) (h' : Partial cmp') : Partial fun a b => (cmp a b).then (cmp' a b) where
  gt_asymm a b hab := by
    cases hc : cmp a b with
    | lt => simp [hc] at hab
    | gt => simp [h.gt_asymm a b hc]
    | eq =>
      rw [hc, Ordering.eq_then] at hab
      rw [h.eq_symm a b hc, Ordering.eq_then, h'.gt_asymm a b hab]
  eq_symm a b hab := by
    rw [Ordering.then_eq_eq] at hab ⊢
    exact ⟨h.eq_symm a b hab.1, h'.eq_symm a b hab.2⟩
  eq_trans a b c hab hbc := by
    rw [Ordering.then_eq_eq] at hab hbc ⊢
    exact ⟨h.eq_trans a b c hab.1 hbc.1, h'.eq_trans a b c hab.2 hbc.2⟩

theorem list (h : Partial cmp) : Partial (List.compareLex cmp) where
  gt_asymm l r hlr := by
    induction l generalizing r with
    | nil => cases r <;> simp [List.compareLex] at hlr
    | cons a l ih =>
      cases r with
      | nil => rfl
      | cons b r =>
        rw [List.compareLex_cons_cons] at hlr ⊢
        cases hc : cmp a b with
        | lt => simp [hc] at hlr
        | gt => simp [h.gt_asymm a b hc]
        | eq =>
          rw [hc, Ordering.eq_then] at hlr
          rw [h.eq_symm a b hc, Ordering.eq_then, ih r hlr]
  eq_symm l r hlr := by
    induction l generalizing r with
    | nil => cases r <;> simp_all [List.compareLex]
    | cons a l ih =>
      cases r with
      | nil => simp [List.compareLex] at hlr
      | cons b r =>
        rw [List.compareLex_cons_cons, Ordering.then_eq_eq] at hlr ⊢
        exact ⟨h.eq_symm a b hlr.1, ih r hlr.2⟩
  eq_trans l r s hlr hrs := by
    induction l generalizing r s with
    | nil => cases r <;> simp_all [List.compareLex]
    | cons a l ih =>
      cases r with
      | nil => simp [List.compareLex] at hlr
      | cons b r =>
        cases s with
        | nil => simp [List.compareLex] at hrs
        | cons c s =>
          rw [List.compareLex_cons_cons, Ordering.then_eq_eq] at hlr hrs ⊢
          exact ⟨h.eq_trans a b c hlr.1 hrs.1, ih r s hlr.2 hrs.2⟩

end Partial

end Mrustc.Comparison
