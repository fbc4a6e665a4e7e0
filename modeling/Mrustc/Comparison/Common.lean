import Mathlib.Data.List.Forall2
import Mathlib.Data.Set.Defs
import Mathlib.Order.Compare
import Mathlib.Tactic

/-! # Comparing lists as far as both go

A loop over two lists at once that stops when either ends. With the lengths compared after it the order is the
lexicographic one. Lists that continue beyond the part of interest compare by that part, except for the two ways
to end that the loop does not notice.
-/

namespace Mrustc.Comparison

variable {α : Type}

/-- The first difference at a position that both lists have. -/
def common (cmp : α → α → Ordering) : List α → List α → Ordering
  | a :: as, b :: bs => (cmp a b).then (common cmp as bs)
  | _, _ => .eq

theorem common_cons (cmp : α → α → Ordering) (a b : α) (as bs : List α) :
    common cmp (a :: as) (b :: bs) = (cmp a b).then (common cmp as bs) := rfl

/-- The lists are equal to the comparison. -/
def Matches (cmp : α → α → Ordering) : List α → List α → Prop := List.Forall₂ fun a b => cmp a b = .eq

/-- The first list is a proper beginning of the second. -/
def EndsFirst (cmp : α → α → Ordering) : List α → List α → Prop
  | [], _ :: _ => True
  | a :: as, b :: bs => cmp a b = .eq ∧ EndsFirst cmp as bs
  | _, [] => False

/-- A comparison of values by what a function gives for them. -/
def comap {β : Type} (f : β → α) (cmp : α → α → Ordering) (a b : β) : Ordering := cmp (f a) (f b)

instance {β : Type} (f : β → α) (cmp : α → α → Ordering) [Std.TransCmp cmp] : Std.TransCmp (comap f cmp) where
  eq_swap {a b} := by
    have h : cmp (f a) (f b) = (cmp (f b) (f a)).swap := Std.OrientedCmp.eq_swap
    exact h
  isLE_trans {a b c} := by
    have h : (cmp (f a) (f b)).isLE → (cmp (f b) (f c)).isLE → (cmp (f a) (f c)).isLE := Std.TransCmp.isLE_trans
    exact h

/-- A comparison is a total order of the elements of a set. -/
structure TotalOrderOn (s : Set α) (cmp : α → α → Ordering) : Prop where
  swap : ∀ a ∈ s, ∀ b ∈ s, cmp b a = (cmp a b).swap
  trans : ∀ a ∈ s, ∀ b ∈ s, ∀ c ∈ s, (cmp a b).isLE → (cmp b c).isLE → (cmp a c).isLE

variable {cmp : α → α → Ordering} {as bs as' bs' : List α} {a b e : α}

/-- What agrees with a total order on a set is one there. -/
theorem TotalOrderOn.of_eq {s : Set α} {cmp' : α → α → Ordering} [Std.TransCmp cmp']
    (h : ∀ a ∈ s, ∀ b ∈ s, cmp a b = cmp' a b) : TotalOrderOn s cmp where
  swap a ha b hb := by
    rw [h a ha b hb, h b hb a ha]
    exact Std.OrientedCmp.eq_swap
  trans a ha b hb c hc := by
    rw [h a ha b hb, h b hb c hc, h a ha c hc]
    exact Std.TransCmp.isLE_trans

theorem common_then_length (as bs : List α) :
    (common cmp as bs).then (compare as.length bs.length) = List.compareLex cmp as bs := by
  induction as generalizing bs with
  | nil =>
    cases bs with
    | nil => rfl
    | cons b bs =>
      rw [List.compareLex_nil_cons]
      exact Nat.compare_eq_lt.mpr (Nat.succ_pos _)
  | cons a as ih =>
    cases bs with
    | nil =>
      rw [List.compareLex_cons_nil]
      exact Nat.compare_eq_gt.mpr (Nat.succ_pos _)
    | cons b bs =>
      have hlength : compare (a :: as).length (b :: bs).length = compare as.length bs.length := by
        simp [Nat.compare_eq_ite_lt]
      rw [hlength, common_cons, Ordering.then_assoc, ih bs, List.compareLex_cons_cons]

theorem common_swap [Std.OrientedCmp cmp] (as bs : List α) : common cmp bs as = (common cmp as bs).swap := by
  induction as generalizing bs with
  | nil => cases bs <;> rfl
  | cons a as ih =>
    cases bs with
    | nil => rfl
    | cons b bs =>
      have hswap : cmp b a = (cmp a b).swap := Std.OrientedCmp.eq_swap
      rw [common_cons, common_cons, Ordering.swap_then, ih bs, hswap]

theorem matches_iff_compareLex : Matches cmp as bs ↔ List.compareLex cmp as bs = .eq := by
  induction as generalizing bs with
  | nil => cases bs <;> simp [Matches, List.compareLex_nil_nil, List.compareLex_nil_cons]
  | cons a as ih =>
    cases bs with
    | nil => simp [Matches, List.compareLex_cons_nil]
    | cons b bs =>
      have : Matches cmp as bs ↔ List.compareLex cmp as bs = .eq := ih
      simp only [Matches, List.forall₂_cons, List.compareLex_cons_cons, Ordering.then_eq_eq] at this ⊢
      rw [this]

theorem common_append_of_matches (h : Matches cmp as bs) :
    common cmp (as ++ as') (bs ++ bs') = common cmp as' bs' := by
  induction h with
  | nil => rfl
  | cons hab _ ih => rw [List.cons_append, List.cons_append, common_cons, hab, ih, Ordering.eq_then]

theorem common_append_of_endsFirst (h : EndsFirst cmp as bs) : common cmp as (bs ++ bs') = .eq := by
  induction as generalizing bs with
  | nil => cases bs <;> rfl
  | cons a as ih =>
    cases bs with
    | nil => exact h.elim
    | cons b bs => rw [List.cons_append, common_cons, h.1, Ordering.eq_then, ih h.2]

theorem not_matches_of_endsFirst (h : EndsFirst cmp as bs) : ¬ Matches cmp as bs := by
  induction as generalizing bs with
  | nil =>
    cases bs with
    | nil => exact h.elim
    | cons b bs => simp [Matches]
  | cons a as ih =>
    cases bs with
    | nil => exact h.elim
    | cons b bs =>
      intro hmatches
      exact ih h.2 (List.forall₂_cons.mp hmatches).2

theorem common_flip (as bs : List α) : common (fun a b => cmp b a) bs as = common cmp as bs := by
  induction as generalizing bs with
  | nil => cases bs <;> rfl
  | cons a as ih =>
    cases bs with
    | nil => rfl
    | cons b bs => rw [common_cons, common_cons, ih]

theorem matches_flip : Matches (fun a b => cmp b a) bs as ↔ Matches cmp as bs :=
  ⟨List.Forall₂.flip, List.Forall₂.flip⟩

theorem matches_concat : Matches cmp (as ++ [a]) (bs ++ [b]) ↔ Matches cmp as bs ∧ cmp a b = .eq := by
  unfold Matches
  rw [← List.forall₂_reverse_iff, List.reverse_append, List.reverse_append]
  simp [List.forall₂_reverse_iff, and_comm]

/-- What two lists continue with is not taken for a part of them: it differs from every element of the other list,
no list ends where the other goes on, and the continuations of equal lists agree as far as both go. -/
structure Apart (cmp : α → α → Ordering) (as as' bs bs' : List α) : Prop where
  rest : Matches cmp as bs → common cmp as' bs' = .eq
  left : EndsFirst cmp as bs → as' ≠ []
  right : EndsFirst (fun a b => cmp b a) bs as → bs' ≠ []

/-- Where nothing is mistaken, the loop orders two lists lexicographically, the end after everything else. -/
theorem common_append (h : Apart cmp as as' bs bs') (hgt : ∀ a ∈ e :: as', ∀ b ∈ bs, cmp a b = .gt)
    (hlt : ∀ a ∈ as, ∀ b ∈ e :: bs', cmp a b = .lt) (he : cmp e e = .eq) :
    common cmp (as ++ as') (bs ++ bs') = List.compareLex cmp (as ++ [e]) (bs ++ [e]) := by
  induction as generalizing bs with
  | nil =>
    cases bs with
    | nil =>
      rw [List.nil_append, List.nil_append, h.rest .nil, List.nil_append, List.compareLex_cons_cons, he,
        List.compareLex_nil_nil, Ordering.eq_then]
    | cons b bs =>
      rcases List.exists_cons_of_ne_nil (h.left trivial) with ⟨a, as, rfl⟩
      rw [List.nil_append, List.cons_append, List.nil_append, List.cons_append, common_cons, List.compareLex_cons_cons,
        hgt a (by simp) b (by simp), hgt e (by simp) b (by simp)]
      rfl
  | cons a as ih =>
    cases bs with
    | nil =>
      rcases List.exists_cons_of_ne_nil (h.right trivial) with ⟨b, bs, rfl⟩
      rw [List.cons_append, List.nil_append, List.cons_append, List.nil_append, common_cons, List.compareLex_cons_cons,
        hlt a (by simp) b (by simp), hlt a (by simp) e (by simp)]
      rfl
    | cons b bs =>
      simp only [List.cons_append, common_cons, List.compareLex_cons_cons]
      by_cases hab : cmp a b = .eq
      · have hrest : Apart cmp as as' bs bs' :=
          ⟨fun h' => h.rest (.cons hab h'), fun h' => h.left ⟨hab, h'⟩, fun h' => h.right ⟨hab, h'⟩⟩
        rw [ih hrest (fun a ha b hb => hgt a ha b (List.mem_cons_of_mem _ hb))
          fun a ha b hb => hlt a (List.mem_cons_of_mem _ ha) b hb]
      · cases hcmp : cmp a b with
        | eq => exact absurd hcmp hab
        | lt => rfl
        | gt => rfl

end Mrustc.Comparison
