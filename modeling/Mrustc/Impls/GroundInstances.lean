import Mathlib.Order.ConditionallyCompleteLattice.Basic
import Mathlib.Tactic
import Mrustc.Impls.Matching

/-! # Ground instances

Types and numbers for the generics of a header. Const generics that stand for each other, as those of two headers do
where lengths stay as they are written, have numbers in common.
-/

namespace Mrustc.Impls

/-- Types and numbers for the generics. -/
structure Subst where
  types : ℕ → TypeRef
  values : ℕ → ℕ

def ConstGeneric.subst (s : Subst) : ConstGeneric → ConstGeneric
  | .generic binding => .evaluated (s.values binding)
  | .evaluated value => .evaluated value

def ArraySize.subst (s : Subst) : ArraySize → ArraySize
  | .generic binding => .known (s.values binding)
  | .known size => .known size

namespace Term

variable {k : Kind}

def subst (s : Subst) : {k : Kind} → Term k → Term k
  | _, .generic binding => s.types binding
  | _, .primitive ct => .primitive ct
  | _, .path p => .path (p.subst s)
  | _, .traitObject trait bs ms => .traitObject (trait.subst s) (bs.subst s) (ms.subst s)
  | _, .array inner n => .array (inner.subst s) (n.subst s)
  | _, .slice inner => .slice (inner.subst s)
  | _, .tuple elems => .tuple (elems.subst s)
  | _, .borrow t inner => .borrow t (inner.subst s)
  | _, .pointer t inner => .pointer t (inner.subst s)
  | _, .noTypes => .noTypes
  | _, .consType ty tys => .consType (ty.subst s) (tys.subst s)
  | _, .pathParams tys vals => .pathParams (tys.subst s) (vals.map (·.subst s))
  | _, .genericPath p ps => .genericPath p (ps.subst s)
  | _, .noPaths => .noPaths
  | _, .consPath p ps => .consPath (p.subst s) (ps.subst s)
  | _, .noBounds => .noBounds
  | _, .consBound name ty bs => .consBound name (ty.subst s) (bs.subst s)

/-- Without generics, nothing changes. -/
def Ground (t : Term k) : Prop := ∀ s, t.subst s = t

theorem ground_subst {s : Subst} (h : ∀ binding, (s.types binding).Ground) (t : Term k) : (t.subst s).Ground := by
  intro s'
  induction t with
  | generic binding => exact h binding s'
  | array inner n ih => cases n <;> simp [subst, ArraySize.subst, ih]
  | pathParams tys vals ih =>
    simp only [subst, ih, List.map_map, pathParams.injEq, true_and]
    apply List.map_congr_left
    intro val _
    cases val <;> rfl
  | _ => simp_all [subst]

/-- An instance is substituted as the original is with what stands for its generics. -/
theorem subst_instantiate {σ : Assignment} {s s' : Subst}
    (htypes : ∀ binding, s'.types binding = (σ.types binding).subst s)
    (hvalues : ∀ binding, (σ.values binding).subst s = .evaluated (s'.values binding))
    (hlengths : ∀ binding, s'.values binding = s.values binding) (t : Term k) :
    (t.instantiate σ).subst s = t.subst s' := by
  induction t with
  | generic binding => exact (htypes binding).symm
  | array inner n ih => cases n <;> simp [instantiate, subst, ArraySize.subst, ih, hlengths]
  | pathParams tys vals ih =>
    simp only [instantiate, subst, ih, List.map_map, pathParams.injEq, true_and]
    apply List.map_congr_left
    intro val _
    cases val with
    | generic binding => exact hvalues binding
    | evaluated value => rfl
  | _ => simp_all [instantiate, subst]

end Term

/-! ## The numbers of const generics that stand for each other -/

/-- What a value stands for after that many steps. -/
def ConstGeneric.steps (values : ℕ → ConstGeneric) : ℕ → ConstGeneric → ConstGeneric
  | 0, val => val
  | n + 1, .generic binding => (values binding).steps values n
  | _ + 1, .evaluated value => .evaluated value

/-- The number that a value stands for in the end. -/
def ConstGeneric.Reaches (values : ℕ → ConstGeneric) (val : ConstGeneric) (value : ℕ) : Prop :=
  ∃ n, val.steps values n = .evaluated value

section Settled

variable {values : ℕ → ConstGeneric} {val : ConstGeneric} {binding value value' : ℕ}

theorem steps_evaluated (n : ℕ) : (ConstGeneric.evaluated value).steps values n = .evaluated value := by
  cases n <;> rfl

theorem reaches_evaluated : (ConstGeneric.evaluated value).Reaches values value' ↔ value = value' := by
  simp [ConstGeneric.Reaches, steps_evaluated]

theorem reaches_generic :
    (ConstGeneric.generic binding).Reaches values value ↔ (values binding).Reaches values value := by
  constructor
  · rintro ⟨n, hn⟩
    cases n with
    | zero => cases hn
    | succ n => exact ⟨n, hn⟩
  · rintro ⟨n, hn⟩
    exact ⟨n + 1, hn⟩

/-- Const generics that stand for each other have numbers in common. -/
theorem exists_settled (values : ℕ → ConstGeneric) :
    ∃ number : ℕ → ℕ, ∀ binding,
      (values binding).subst ⟨fun _ => .tuple .noTypes, number⟩ = .evaluated (number binding) := by
  refine ⟨fun binding => sInf {value | (ConstGeneric.generic binding).Reaches values value}, fun binding => ?_⟩
  cases hval : values binding with
  | generic other =>
    have hsame : ∀ value, (ConstGeneric.generic binding).Reaches values value ↔
        (ConstGeneric.generic other).Reaches values value := by
      intro value
      rw [reaches_generic, hval]
    simp only [ConstGeneric.subst, hsame]
  | evaluated value =>
    have hreach : {value' | (ConstGeneric.generic binding).Reaches values value'} = {value} := by
      ext value'
      rw [Set.mem_ofPred_eq, reaches_generic, hval, reaches_evaluated, Set.mem_singleton_iff, eq_comm]
    have hnumber : sInf {value' | (ConstGeneric.generic binding).Reaches values value'} = value := by
      rw [hreach, csInf_singleton]
    exact congrArg ConstGeneric.evaluated hnumber.symm

end Settled

end Mrustc.Impls
