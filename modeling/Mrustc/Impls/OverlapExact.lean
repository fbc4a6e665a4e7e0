import Mathlib.Tactic
import Mrustc.Impls.GroundInstances
import Mrustc.Impls.OverlapTests

/-! # When the overlap is exact

Two impls are reported to overlap exactly if one header is an instance of the other, where array lengths count as they
are written. Such headers have a common ground instance, and others that have one are missed.
-/

namespace Mrustc.Impls
open Hir (SimplePath)

namespace TraitImpl

variable {arity : SimplePath → ℕ × ℕ} {trait : SimplePath} (a b : TraitImpl arity trait)

/-- The second header is the first one with its generics replaced, except for array lengths and the const generics that
are met first in one. -/
def HasInstance : Prop :=
  ∃ σ : Assignment, a.type.instantiate σ = b.type ∧ a.traitArgs.instantiate σ = b.traitArgs ∧
    ∀ binding ∈ lengthFirst (a.type.slots ++ a.traitArgs.slots), σ.values binding = .generic binding

/-- A header accepts its ground instances. -/
def Accepts (ty : TypeRef) (args : PathParams) : Prop :=
  ∃ s : Subst, (∀ binding, (s.types binding).Ground) ∧ a.type.subst s = ty ∧ a.traitArgs.subst s = args

/-- Some ground type and arguments are accepted by both. -/
def Common : Prop := ∃ ty args, ty.Ground ∧ args.Ground ∧ a.Accepts ty args ∧ b.Accepts ty args

def BoundsFixed : Prop := a.type.BoundsFixed ∧ a.traitArgs.BoundsFixed

variable {a b}

theorem Common.symm (h : Common a b) : Common b a := by
  rcases h with ⟨ty, args, hty, hargs, ha, hb⟩
  exact ⟨ty, args, hty, hargs, hb, ha⟩

/-- An instance has ground instances in common with the original. -/
theorem HasInstance.common (h : HasInstance a b) : Common a b := by
  rcases h with ⟨σ, htype, hargs, -⟩
  rcases exists_settled σ.values with ⟨number, hnumber⟩
  have hunit : (Term.tuple .noTypes).Ground := fun _ => rfl
  let s : Subst := ⟨fun _ => .tuple .noTypes, number⟩
  let s' : Subst := ⟨fun binding => (σ.types binding).subst s, number⟩
  have htypes : ∀ binding, s'.types binding = (σ.types binding).subst s := fun _ => rfl
  have hvalues : ∀ binding, (σ.values binding).subst s = .evaluated (s'.values binding) := hnumber
  have hlengths : ∀ binding, s'.values binding = s.values binding := fun _ => rfl
  have hground : ∀ {k : Kind} (t : Term k), (t.subst s).Ground := Term.ground_subst fun _ => hunit
  refine ⟨b.type.subst s, b.traitArgs.subst s, hground _, hground _,
    ⟨s', fun _ => hground _, ?_, ?_⟩, ⟨s, fun _ => hunit, rfl, rfl⟩⟩
  · rw [← htype, Term.subst_instantiate htypes hvalues hlengths]
  · rw [← hargs, Term.subst_instantiate htypes hvalues hlengths]

/-- The match of the headers decides whether one is an instance of the other. -/
theorem matchHeader_iff (ha : a.BoundsFixed) (htype : a.type.typesOverlap b.type = true)
    (hargs : a.traitArgs.typesOverlap b.traitArgs = true) :
    ∃ r, matchHeader a b = .ok r ∧ (r = true ↔ HasInstance a b) := by
  have hcovers : (Matcher.reinit a.types a.values).Covers a.types a.values := by simp [Matcher.Covers, Matcher.reinit]
  have hfits : ∀ σ, Fits σ (Matcher.reinit a.types a.values) := by
    intro σ
    constructor
    · intro i ty h
      rw [Matcher.reinit, List.getElem?_replicate] at h
      split at h <;> cases h
    · intro i val h
      rw [Matcher.reinit, List.getElem?_replicate] at h
      split at h <;> cases h
  -- the runs of both matches are one run of all requests
  have hruns : HasInstance a b ↔ ∃ m m', a.type.matchGenerics b.type (Matcher.reinit a.types a.values) = .ok m ∧
      a.traitArgs.matchGenerics b.traitArgs m = .ok m' := by
    simp only [Term.matchGenerics_eq_ok]
    constructor
    · rintro ⟨σ, hty, has, hstay⟩
      have hgranted := granted_andThen.mpr ⟨(Term.instantiate_eq_iff _ _).mp hty, (Term.instantiate_eq_iff _ _).mp has⟩
      rcases hgranted with ⟨rs, hrs, hholds, hsame⟩
      rcases andThen_eq_some.mp hrs with ⟨r, r', hr, hr', rfl⟩
      have hrange : ∀ q ∈ r ++ r', q.InRange a.types a.values := inRange_andThen hrs
        (fun r hr => Term.inRange_requests _ _ a.type_wellFormed hr)
        fun r hr => Term.inRange_requests _ _ a.args_wellFormed hr
      have hslots : (r ++ r').filterMap Request.slot? = a.type.slots ++ a.traitArgs.slots := by
        rw [List.filterMap_append, Term.slots_of_requests _ _ hr, Term.slots_of_requests _ _ hr']
      have hlengths : LengthsStay σ (Matcher.reinit a.types a.values) ((r ++ r').filterMap Request.slot?) := by
        rw [hslots]
        exact fun binding hmem _ => hstay binding hmem
      rcases (hfits σ).runs hcovers hrange hsame hholds hlengths with ⟨m', hm'⟩
      rcases runs_andThen.mp ⟨_, hrs, hm'⟩ with ⟨m, hm, hm'⟩
      exact ⟨m, m', hm, hm'⟩
    · rintro ⟨m, m', hm, hm'⟩
      rcases runs_andThen.mpr ⟨m, hm, hm'⟩ with ⟨rs, hrs, hrun⟩
      have hsame : ∀ q ∈ rs, q.SameLength := Term.sameLength_andThen hrs
        (fun r hr => Term.sameLength_of_overlap _ _ ha.1 htype Kind.noConfusion hr)
        fun r hr => Term.sameLength_of_overlap _ _ ha.2 hargs Kind.noConfusion hr
      rcases exists_of_runs hsame hrun with ⟨σ, -, hholds, hstay⟩
      have hgranted := granted_andThen.mp ⟨rs, hrs, hholds, hsame⟩
      refine ⟨σ, (Term.instantiate_eq_iff _ _).mpr hgranted.1, (Term.instantiate_eq_iff _ _).mpr hgranted.2, ?_⟩
      rcases andThen_eq_some.mp hrs with ⟨r, r', hr, hr', rfl⟩
      have hrange : ∀ q ∈ r ++ r', q.InRange a.types a.values := inRange_andThen hrs
        (fun r hr => Term.inRange_requests _ _ a.type_wellFormed hr)
        fun r hr => Term.inRange_requests _ _ a.args_wellFormed hr
      have hslots : (r ++ r').filterMap Request.slot? = a.type.slots ++ a.traitArgs.slots := by
        rw [List.filterMap_append, Term.slots_of_requests _ _ hr, Term.slots_of_requests _ _ hr']
      rw [← hslots]
      intro binding hmem
      apply hstay binding hmem
      rcases List.mem_filterMap.mp (mem_of_lengthFirst hmem) with ⟨q, hq, hslot⟩
      have hlt : binding < a.values := by
        have hrange := hrange q hq
        cases q <;> cases hslot
        exact hrange
      rw [Matcher.reinit, List.getElem?_replicate, if_pos hlt]
  rw [matchHeader]
  rcases Term.safe_matchGenerics a.type b.type a.type_wellFormed hcovers with ⟨m, hm, hcovers'⟩ | hm
  · rw [hm]
    dsimp only
    rcases Term.safe_matchGenerics a.traitArgs b.traitArgs a.args_wellFormed hcovers' with ⟨m', hm', -⟩ | hm'
    · rw [hm']
      exact ⟨true, rfl, by simp [hruns, hm, hm']⟩
    · rw [hm']
      exact ⟨false, rfl, by simp [hruns, hm, hm']⟩
  · rw [hm]
    exact ⟨false, rfl, by simp [hruns, hm]⟩

theorem HasInstance.typesOverlap (h : HasInstance a b) :
    a.type.typesOverlap b.type = true ∧ a.traitArgs.typesOverlap b.traitArgs = true := by
  rcases h with ⟨σ, htype, hargs, -⟩
  rw [← htype, ← hargs]
  exact ⟨Term.typesOverlap_instantiate σ _ Kind.noConfusion, Term.typesOverlap_instantiate σ _ Kind.noConfusion⟩

/-- Headers of one form are ordered, or mixed. -/
theorem ordHeader_of_overlap (htype : a.type.typesOverlap b.type = true)
    (hargs : a.traitArgs.typesOverlap b.traitArgs = true) :
    ordHeader a b = .ok () ∨ ordHeader a b = .error .mixedOrdering := by
  have htype := Term.ordSpecific_of_overlap _ _ a.type_wellFormed b.type_wellFormed (by simp) htype Kind.noConfusion .eq
  have hargs := Term.ordSpecific_of_overlap _ _ a.args_wellFormed b.args_wellFormed
    (Term.size_eq_of_hasArity a.hasArity b.hasArity) hargs Kind.noConfusion .eq
  rw [ordHeader]
  rcases htype with ⟨o, -, ho⟩ | ⟨-, ho⟩
  · rcases hargs with ⟨o', -, ho'⟩ | ⟨-, ho'⟩
    · rw [ho, ho']
      exact .inl rfl
    · rw [ho, ho']
      exact .inr rfl
  · rw [ho]
    exact .inr rfl

theorem orders_ordHeader {bad : Ordering} (h : Orders (· ≠ bad) False (a.type.ordSpecific b.type .eq))
    (h' : Orders (· ≠ bad) False (a.traitArgs.ordSpecific b.traitArgs .eq)) : ordHeader a b = .ok () := by
  rcases h with ⟨o, -, ho⟩ | ⟨hfalse, -⟩
  · rcases h' with ⟨o', -, ho'⟩ | ⟨hfalse, -⟩
    · rw [ordHeader, ho, ho']
      rfl
    · exact hfalse.elim
  · exact hfalse.elim

theorem HasInstance.ordHeader (h : HasInstance a b) : ordHeader a b = .ok () ∧ ordHeader b a = .ok () := by
  rcases h with ⟨σ, htype, hargs, -⟩
  have hlt : ∀ {k : Kind} (t : Term k), k ≠ .typeBounds →
      Orders (· ≠ .gt) False (t.ordSpecific (t.instantiate σ) .eq) := fun t hkind =>
    (Term.ordSpecific_instantiate σ t hkind Ordering.noConfusion .eq Ordering.noConfusion).1
      Ordering.noConfusion
  have hgt : ∀ {k : Kind} (t : Term k), k ≠ .typeBounds →
      Orders (· ≠ .lt) False ((t.instantiate σ).ordSpecific t .eq) := fun t hkind =>
    (Term.ordSpecific_instantiate σ t hkind Ordering.noConfusion .eq Ordering.noConfusion).2
      Ordering.noConfusion
  constructor
  · apply orders_ordHeader
    · rw [← htype]
      exact hlt _ Kind.noConfusion
    · rw [← hargs]
      exact hlt _ Kind.noConfusion
  · apply orders_ordHeader
    · rw [← htype]
      exact hgt _ Kind.noConfusion
    · rw [← hargs]
      exact hgt _ Kind.noConfusion

/-- Two impls are reported to overlap exactly if one header is an instance of the other. -/
theorem overlapsWith_iff (ha : a.BoundsFixed) (hb : b.BoundsFixed) :
    ∃ r, overlapsWith a b = .ok r ∧ (r = true ↔ HasInstance a b ∨ HasInstance b a) := by
  rw [overlapsWith]
  split
  next heq =>
    refine ⟨true, rfl, fun _ => .inl ?_, fun _ => rfl⟩
    refine ⟨⟨.generic, .generic⟩, ?_, ?_, fun _ _ => rfl⟩
    · rw [Term.instantiate_self, heq.1]
    · rw [Term.instantiate_self, heq.2]
  next =>
    by_cases htype : a.type.typesOverlap b.type = true
    · by_cases hargs : a.traitArgs.typesOverlap b.traitArgs = true
      · rw [htype, hargs]
        have htype' : b.type.typesOverlap a.type = true := by rw [Term.typesOverlap_comm, htype]
        have hargs' : b.traitArgs.typesOverlap a.traitArgs = true := by rw [Term.typesOverlap_comm, hargs]
        rcases matchHeader_iff ha htype hargs with ⟨r, hr, hiff⟩
        rcases matchHeader_iff hb htype' hargs' with ⟨r', hr', hiff'⟩
        rcases ordHeader_of_overlap htype hargs with hord | hord
        · rw [hord]
          cases r with
          | true =>
            refine ⟨true, ?_, fun _ => .inl (hiff.mp rfl), fun _ => rfl⟩
            simp only [Bool.not_true, Bool.false_eq_true, if_false, hr]
            rfl
          | false =>
            have hnot : ¬ HasInstance a b := fun h => Bool.noConfusion (hiff.mpr h)
            refine ⟨r', ?_, by simp [hnot, hiff']⟩
            simp only [Bool.not_true, Bool.false_eq_true, if_false, hr]
            exact hr'
        · rw [hord]
          refine ⟨false, rfl, Bool.noConfusion, ?_⟩
          rintro (h | h)
          · rw [h.ordHeader.1] at hord
            cases hord
          · rw [h.ordHeader.2] at hord
            cases hord
      · refine ⟨false, by simp [htype, hargs], Bool.noConfusion, ?_⟩
        rintro (h | h)
        · exact absurd h.typesOverlap.2 hargs
        · rw [Term.typesOverlap_comm] at hargs
          exact absurd h.typesOverlap.2 hargs
    · refine ⟨false, by simp [htype], Bool.noConfusion, ?_⟩
      rintro (h | h)
      · exact absurd h.typesOverlap.1 htype
      · rw [Term.typesOverlap_comm] at htype
        exact absurd h.typesOverlap.1 htype

/-- An impl without trait arguments of a trait without parameters. -/
def plain (types values : ℕ) (type : TypeRef) (h : type.WellFormed (fun _ => (0, 0)) types values) :
    TraitImpl (fun _ => (0, 0)) ⟨[], []⟩ where
  types
  values
  traitArgs := .pathParams .noTypes []
  type
  hasArity := rfl
  args_wellFormed := ⟨trivial, fun _ h => absurd h List.not_mem_nil⟩
  type_wellFormed := h

/-- `impl<T> Trait for (T, u32)` -/
def genericFirst : TraitImpl (fun _ => (0, 0)) ⟨[], []⟩ :=
  plain 1 0 (.tuple (.consType (.generic 0) (.consType (.primitive .u32) .noTypes))) ⟨Nat.one_pos, trivial, trivial⟩

/-- `impl<T> Trait for (u32, T)` -/
def genericSecond : TraitImpl (fun _ => (0, 0)) ⟨[], []⟩ :=
  plain 1 0 (.tuple (.consType (.primitive .u32) (.consType (.generic 0) .noTypes))) ⟨trivial, Nat.one_pos, trivial⟩

/-- `impl<const N: usize> Trait for [u8; N]` -/
def genericLength : TraitImpl (fun _ => (0, 0)) ⟨[], []⟩ :=
  plain 0 1 (.array (.primitive .u8) (.generic 0)) ⟨trivial, fun _ h => by cases h; exact Nat.one_pos⟩

/-- `impl Trait for [u8; 3]` -/
def knownLength : TraitImpl (fun _ => (0, 0)) ⟨[], []⟩ :=
  plain 0 0 (.array (.primitive .u8) (.known 3)) ⟨trivial, fun _ h => by cases h⟩

end TraitImpl

end Mrustc.Impls
