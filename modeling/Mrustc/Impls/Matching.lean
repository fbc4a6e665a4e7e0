import Mathlib.Tactic
import Mrustc.Impls.Overlap

/-! # What a match asks of the generics

Two headers of the same form ask for what each generic of the first stands for, in the order of the walk. The first
request for a generic is granted, and a later one has to agree unless it comes from an array length.
-/

namespace Mrustc.Impls
open Hir (SimplePath)

/-- What stands for the generics of an impl. -/
structure Assignment where
  types : ℕ → TypeRef
  values : ℕ → ConstGeneric

def ConstGeneric.instantiate (σ : Assignment) : ConstGeneric → ConstGeneric
  | .generic binding => σ.values binding
  | .evaluated value => .evaluated value

@[simp] theorem ConstGeneric.instantiate_generic (σ : Assignment) (binding : ℕ) :
    (ConstGeneric.generic binding).instantiate σ = σ.values binding := rfl

@[simp] theorem ConstGeneric.instantiate_evaluated (σ : Assignment) (value : ℕ) :
    (ConstGeneric.evaluated value).instantiate σ = .evaluated value := rfl

/-- The slot of a generic value. -/
def ConstGeneric.slot? : ConstGeneric → Option (ℕ × Bool)
  | .generic binding => some (binding, false)
  | .evaluated _ => none

/-- A request for a type, for the value of an argument, or for the value of an array length. -/
inductive Request
  | type (binding : ℕ) (ty : TypeRef)
  | value (binding : ℕ) (val : ConstGeneric)
  | length (binding : ℕ) (val : ConstGeneric)

/-- The const generic of a request, marked if it is of a length. -/
def Request.slot? : Request → Option (ℕ × Bool)
  | .type _ _ => none
  | .value binding _ => some (binding, false)
  | .length binding _ => some (binding, true)

/-- What an assignment has to do for a request. A length asks for nothing. -/
def Request.Holds (σ : Assignment) : Request → Prop
  | .type binding ty => σ.types binding = ty
  | .value binding val => σ.values binding = val
  | .length _ _ => True

/-- A length that is the same generic on both sides. -/
def Request.SameLength : Request → Prop
  | .type _ _ => True
  | .value _ _ => True
  | .length binding val => val = .generic binding

@[simp] theorem Request.holds_type {σ : Assignment} {binding : ℕ} {ty : TypeRef} :
    (Request.type binding ty).Holds σ ↔ σ.types binding = ty := Iff.rfl

@[simp] theorem Request.holds_value {σ : Assignment} {binding : ℕ} {val : ConstGeneric} :
    (Request.value binding val).Holds σ ↔ σ.values binding = val := Iff.rfl

@[simp] theorem Request.holds_length {σ : Assignment} {binding : ℕ} {val : ConstGeneric} :
    (Request.length binding val).Holds σ := trivial

@[simp] theorem Request.sameLength_type {binding : ℕ} {ty : TypeRef} : (Request.type binding ty).SameLength := trivial

@[simp] theorem Request.sameLength_value {binding : ℕ} {val : ConstGeneric} :
    (Request.value binding val).SameLength := trivial

@[simp] theorem Request.sameLength_length {binding : ℕ} {val : ConstGeneric} :
    (Request.length binding val).SameLength ↔ val = .generic binding := Iff.rfl

/-- The const generics that occur first in an array length. -/
def lengthFirst : List (ℕ × Bool) → List ℕ
  | [] => []
  | (binding, true) :: slots => binding :: (lengthFirst slots).filter (· ≠ binding)
  | (binding, false) :: slots => (lengthFirst slots).filter (· ≠ binding)

theorem mem_of_lengthFirst {slots : List (ℕ × Bool)} {binding : ℕ} (h : binding ∈ lengthFirst slots) :
    (binding, true) ∈ slots := by
  induction slots with
  | nil => cases h
  | cons slot slots ih =>
    rcases slot with ⟨other, _ | _⟩
    · exact List.mem_cons_of_mem _ (ih (List.mem_filter.mp h).1)
    · rcases List.mem_cons.mp h with rfl | h
      · exact List.mem_cons_self
      · exact List.mem_cons_of_mem _ (ih (List.mem_filter.mp h).1)

namespace Term

variable {k : Kind}

/-- The generics replaced, except in array lengths. -/
def instantiate (σ : Assignment) : {k : Kind} → Term k → Term k
  | _, .generic binding => σ.types binding
  | _, .primitive ct => .primitive ct
  | _, .path p => .path (p.instantiate σ)
  | _, .traitObject trait bs ms => .traitObject (trait.instantiate σ) (bs.instantiate σ) (ms.instantiate σ)
  | _, .array inner n => .array (inner.instantiate σ) n
  | _, .slice inner => .slice (inner.instantiate σ)
  | _, .tuple elems => .tuple (elems.instantiate σ)
  | _, .borrow t inner => .borrow t (inner.instantiate σ)
  | _, .pointer t inner => .pointer t (inner.instantiate σ)
  | _, .noTypes => .noTypes
  | _, .consType ty tys => .consType (ty.instantiate σ) (tys.instantiate σ)
  | _, .pathParams tys vals => .pathParams (tys.instantiate σ) (vals.map (·.instantiate σ))
  | _, .genericPath p ps => .genericPath p (ps.instantiate σ)
  | _, .noPaths => .noPaths
  | _, .consPath p ps => .consPath (p.instantiate σ) (ps.instantiate σ)
  | _, .noBounds => .noBounds
  | _, .consBound name ty bs => .consBound name (ty.instantiate σ) (bs.instantiate σ)

/-- The const generics in the order of the walk, marked in array lengths. -/
def slots : {k : Kind} → Term k → List (ℕ × Bool)
  | _, .generic _ => []
  | _, .primitive _ => []
  | _, .path p => p.slots
  | _, .traitObject trait bs ms => trait.slots ++ (ms.slots ++ bs.slots)
  | _, .array inner (.generic binding) => (binding, true) :: inner.slots
  | _, .array inner (.known _) => inner.slots
  | _, .slice inner => inner.slots
  | _, .tuple elems => elems.slots
  | _, .borrow _ inner => inner.slots
  | _, .pointer _ inner => inner.slots
  | _, .noTypes => []
  | _, .consType ty tys => ty.slots ++ tys.slots
  | _, .pathParams tys vals => tys.slots ++ vals.filterMap ConstGeneric.slot?
  | _, .genericPath _ ps => ps.slots
  | _, .noPaths => []
  | _, .consPath p ps => p.slots ++ ps.slots
  | _, .noBounds => []
  | _, .consBound _ ty bs => ty.slots ++ bs.slots

end Term

/-! ## The requests of a match -/

/-- The requests of two parts after each other. -/
def andThen (as bs : Option (List Request)) : Option (List Request) := do return (← as) ++ (← bs)

def sizeRequests : ArraySize → ArraySize → Option (List Request)
  | .generic binding, .generic binding' => some [.length binding (.generic binding')]
  | .generic binding, .known size => some [.length binding (.evaluated size)]
  | .known _, .generic _ => none
  | .known size, .known size' => if size = size' then some [] else none

def valueRequests : List ConstGeneric → List ConstGeneric → Option (List Request)
  | [], [] => some []
  | .generic binding :: vals, val :: vals' => andThen (some [.value binding val]) (valueRequests vals vals')
  | .evaluated value :: vals, val :: vals' => if .evaluated value = val then valueRequests vals vals' else none
  | _, _ => none

def Term.requests : {k : Kind} → Term k → Term k → Option (List Request)
  | _, .generic binding, ty => some [.type binding ty]
  | _, .primitive a, .primitive b => if a = b then some [] else none
  | _, .path a, .path b => a.requests b
  | _, .traitObject a bounds ms, .traitObject b bounds' ns =>
    andThen (a.requests b) (andThen (ms.requests ns) (bounds.requests bounds'))
  | _, .array a n, .array b n' => andThen (sizeRequests n n') (a.requests b)
  | _, .slice a, .slice b => a.requests b
  | _, .tuple as, .tuple bs => as.requests bs
  | _, .borrow t a, .borrow u b => if t = u then a.requests b else none
  | _, .pointer t a, .pointer u b => if t = u then a.requests b else none
  | _, .noTypes, .noTypes => some []
  | _, .consType a as, .consType b bs => andThen (a.requests b) (as.requests bs)
  | _, .pathParams as vals, .pathParams bs vals' => andThen (as.requests bs) (valueRequests vals vals')
  | _, .genericPath p as, .genericPath q bs => if p = q then as.requests bs else none
  | _, .noPaths, .noPaths => some []
  | _, .consPath a as, .consPath b bs => andThen (a.requests b) (as.requests bs)
  | _, .noBounds, .noBounds => some []
  | _, .consBound name a as, .consBound name' b bs =>
    if name = name' then andThen (a.requests b) (as.requests bs) else none
  | _, _, _ => none

theorem andThen_eq_some {as bs : Option (List Request)} {rs : List Request} :
    andThen as bs = some rs ↔ ∃ r r', as = some r ∧ bs = some r' ∧ rs = r ++ r' := by
  cases as <;> cases bs <;> simp [andThen, eq_comm]

/-! ## Requests and assignments -/

theorem sizeRequests_same {n n' : ArraySize} :
    n = n' ↔ ∃ rs, sizeRequests n n' = some rs ∧ ∀ r ∈ rs, r.SameLength := by
  cases n <;> cases n' <;> simp [sizeRequests, eq_comm]

theorem sizeRequests_holds {n n' : ArraySize} {rs : List Request} (h : sizeRequests n n' = some rs) (σ : Assignment) :
    ∀ r ∈ rs, r.Holds σ := by
  cases n <;> cases n' <;> simp [sizeRequests] at h
  · rw [← h]
    simp
  · rw [← h]
    simp
  · rw [h.2]
    simp

/-- The requests hold and the lengths are the same. -/
def Granted (σ : Assignment) (rs : Option (List Request)) : Prop :=
  ∃ r, rs = some r ∧ (∀ q ∈ r, q.Holds σ) ∧ ∀ q ∈ r, q.SameLength

theorem granted_andThen {σ : Assignment} {as bs : Option (List Request)} :
    Granted σ (andThen as bs) ↔ Granted σ as ∧ Granted σ bs := by
  constructor
  · rintro ⟨rs, hrs, hholds, hsame⟩
    rcases andThen_eq_some.mp hrs with ⟨r, r', has, hbs, rfl⟩
    exact ⟨⟨r, has, fun q hq => hholds q (List.mem_append_left _ hq), fun q hq => hsame q (List.mem_append_left _ hq)⟩,
      ⟨r', hbs, fun q hq => hholds q (List.mem_append_right _ hq), fun q hq => hsame q (List.mem_append_right _ hq)⟩⟩
  · rintro ⟨⟨r, has, hholds, hsame⟩, r', hbs, hholds', hsame'⟩
    refine ⟨r ++ r', andThen_eq_some.mpr ⟨r, r', has, hbs, rfl⟩, ?_, ?_⟩
    · exact fun q hq => (List.mem_append.mp hq).elim (hholds q) (hholds' q)
    · exact fun q hq => (List.mem_append.mp hq).elim (hsame q) (hsame' q)

theorem granted_size {σ : Assignment} {n n' : ArraySize} : Granted σ (sizeRequests n n') ↔ n = n' := by
  rw [sizeRequests_same]
  exact ⟨fun ⟨r, hr, _, hsame⟩ => ⟨r, hr, hsame⟩, fun ⟨r, hr, hsame⟩ => ⟨r, hr, sizeRequests_holds hr σ, hsame⟩⟩

@[simp] theorem granted_nil {σ : Assignment} : Granted σ (some []) := ⟨[], rfl, by simp, by simp⟩

@[simp] theorem not_granted_none {σ : Assignment} : ¬ Granted σ none := fun ⟨_, h, _⟩ => nomatch h

theorem granted_type {σ : Assignment} {binding : ℕ} {ty : TypeRef} :
    Granted σ (some [.type binding ty]) ↔ σ.types binding = ty := by
  simp [Granted]

theorem granted_value {σ : Assignment} {binding : ℕ} {val : ConstGeneric} :
    Granted σ (some [.value binding val]) ↔ σ.values binding = val := by
  simp [Granted]

theorem granted_values {σ : Assignment} {vals vals' : List ConstGeneric} :
    Granted σ (valueRequests vals vals') ↔ vals.map (·.instantiate σ) = vals' := by
  induction vals generalizing vals' with
  | nil => cases vals' <;> simp [valueRequests]
  | cons val vals ih =>
    cases vals' with
    | nil => cases val <;> simp [valueRequests]
    | cons val' vals' =>
      cases val with
      | generic binding => simp [valueRequests, granted_andThen, granted_value, ih]
      | evaluated value =>
        by_cases hval : .evaluated value = val'
        · subst hval
          simp [valueRequests, ih]
        · simp [valueRequests, hval]

theorem granted_if {σ : Assignment} {c : Prop} [Decidable c] {rs : Option (List Request)} :
    Granted σ (if c then rs else none) ↔ c ∧ Granted σ rs := by
  split <;> simp [*]

/-- A part is an instance with the same lengths exactly if the requests of the match are granted. -/
theorem Term.instantiate_eq_iff {k : Kind} {σ : Assignment} (a b : Term k) :
    a.instantiate σ = b ↔ Granted σ (a.requests b) := by
  induction a with
  | generic binding => exact granted_type.symm
  | primitive ct =>
    cases b with
    | primitive ct' =>
      exact (Iff.of_eq (primitive.injEq ct ct')).trans ((and_iff_left granted_nil).symm.trans granted_if.symm)
    | _ => exact iff_of_false (by rintro ⟨⟩) not_granted_none
  | path p ih =>
    cases b with
    | path p' => exact (Iff.of_eq (path.injEq _ p')).trans (ih p')
    | _ => exact iff_of_false (by rintro ⟨⟩) not_granted_none
  | traitObject trait bs ms ih ih' ih'' =>
    cases b with
    | traitObject trait' bs' ms' =>
      have hbounds := (ih' bs').and (ih'' ms')
      exact (Iff.of_eq (traitObject.injEq _ _ _ trait' bs' ms')).trans (((ih trait').and
        ((hbounds.trans and_comm).trans granted_andThen.symm)).trans granted_andThen.symm)
    | _ => exact iff_of_false (by rintro ⟨⟩) not_granted_none
  | array inner n ih =>
    cases b with
    | array inner' n' =>
      exact (Iff.of_eq (array.injEq _ n inner' n')).trans ((((ih inner').and granted_size.symm).trans and_comm).trans
        granted_andThen.symm)
    | _ => exact iff_of_false (by rintro ⟨⟩) not_granted_none
  | slice inner ih =>
    cases b with
    | slice inner' => exact (Iff.of_eq (slice.injEq _ inner')).trans (ih inner')
    | _ => exact iff_of_false (by rintro ⟨⟩) not_granted_none
  | tuple elems ih =>
    cases b with
    | tuple elems' => exact (Iff.of_eq (tuple.injEq _ elems')).trans (ih elems')
    | _ => exact iff_of_false (by rintro ⟨⟩) not_granted_none
  | borrow t inner ih =>
    cases b with
    | borrow t' inner' =>
      exact (Iff.of_eq (borrow.injEq t _ t' inner')).trans ((and_congr_right' (ih inner')).trans granted_if.symm)
    | _ => exact iff_of_false (by rintro ⟨⟩) not_granted_none
  | pointer t inner ih =>
    cases b with
    | pointer t' inner' =>
      exact (Iff.of_eq (pointer.injEq t _ t' inner')).trans ((and_congr_right' (ih inner')).trans granted_if.symm)
    | _ => exact iff_of_false (by rintro ⟨⟩) not_granted_none
  | noTypes =>
    cases b with
    | noTypes => exact iff_of_true rfl granted_nil
    | consType ty tys => exact iff_of_false (by rintro ⟨⟩) not_granted_none
  | consType ty tys ih ih' =>
    cases b with
    | noTypes => exact iff_of_false (by rintro ⟨⟩) not_granted_none
    | consType ty' tys' =>
      exact (Iff.of_eq (consType.injEq _ _ ty' tys')).trans (((ih ty').and (ih' tys')).trans granted_andThen.symm)
  | pathParams tys vals ih =>
    cases b with
    | pathParams tys' vals' =>
      exact (Iff.of_eq (pathParams.injEq _ _ tys' vals')).trans (((ih tys').and granted_values.symm).trans
        granted_andThen.symm)
  | genericPath p ps ih =>
    cases b with
    | genericPath q qs =>
      exact (Iff.of_eq (genericPath.injEq p _ q qs)).trans ((and_congr_right' (ih qs)).trans granted_if.symm)
  | noPaths =>
    cases b with
    | noPaths => exact iff_of_true rfl granted_nil
    | consPath p ps => exact iff_of_false (by rintro ⟨⟩) not_granted_none
  | consPath p ps ih ih' =>
    cases b with
    | noPaths => exact iff_of_false (by rintro ⟨⟩) not_granted_none
    | consPath p' ps' =>
      exact (Iff.of_eq (consPath.injEq _ _ p' ps')).trans (((ih p').and (ih' ps')).trans granted_andThen.symm)
  | noBounds =>
    cases b with
    | noBounds => exact iff_of_true rfl granted_nil
    | consBound name ty bs => exact iff_of_false (by rintro ⟨⟩) not_granted_none
  | consBound name ty bs ih ih' =>
    cases b with
    | noBounds => exact iff_of_false (by rintro ⟨⟩) not_granted_none
    | consBound name' ty' bs' =>
      exact (Iff.of_eq (consBound.injEq name _ _ name' ty' bs')).trans ((and_congr_right'
        (((ih ty').and (ih' bs')).trans granted_andThen.symm)).trans granted_if.symm)

/-! ## The const generics of the requests -/

theorem slots_of_sizeRequests {inner : TypeRef} {n n' : ArraySize} {rs : List Request}
    (h : sizeRequests n n' = some rs) : rs.filterMap Request.slot? ++ inner.slots = (Term.array inner n).slots := by
  cases n with
  | generic binding => cases n' <;> (cases h; rfl)
  | known size =>
    cases n' with
    | generic binding => cases h
    | known size' =>
      rw [sizeRequests] at h
      split at h <;> cases h
      rfl

theorem slots_of_valueRequests {vals vals' : List ConstGeneric} {rs : List Request}
    (h : valueRequests vals vals' = some rs) :
    rs.filterMap Request.slot? = (Term.pathParams .noTypes vals).slots := by
  induction vals generalizing vals' rs with
  | nil => cases vals' <;> cases h; rfl
  | cons val vals ih =>
    cases vals' with
    | nil => cases val <;> cases h
    | cons val' vals' =>
      cases val with
      | generic binding =>
        rcases andThen_eq_some.mp h with ⟨r, r', hr, hr', rfl⟩
        cases hr
        exact congrArg (_ :: ·) (ih hr')
      | evaluated value =>
        rw [valueRequests] at h
        split at h
        · exact ih h
        · cases h

/-- The requests come in the order of the walk. -/
theorem Term.slots_of_requests {k : Kind} (a b : Term k) {rs : List Request} (h : a.requests b = some rs) :
    rs.filterMap Request.slot? = a.slots := by
  induction a generalizing rs with
  | generic binding => cases h; rfl
  | primitive ct =>
    cases b with
    | primitive ct' =>
      rcases Option.ite_none_right_eq_some.mp h with ⟨-, h⟩
      cases h
      rfl
    | _ => cases h
  | path p ih =>
    cases b with
    | path p' => exact ih p' h
    | _ => cases h
  | traitObject trait bs ms ih ih' ih'' =>
    cases b with
    | traitObject trait' bs' ms' =>
      rcases andThen_eq_some.mp h with ⟨r, r', hr, hr', rfl⟩
      rcases andThen_eq_some.mp hr' with ⟨s, s', hs, hs', rfl⟩
      rw [List.filterMap_append, List.filterMap_append, ih _ hr, ih'' _ hs, ih' _ hs', slots]
    | _ => cases h
  | array inner n ih =>
    cases b with
    | array inner' n' =>
      rcases andThen_eq_some.mp h with ⟨r, r', hr, hr', rfl⟩
      rw [List.filterMap_append, ih _ hr', slots_of_sizeRequests hr]
    | _ => cases h
  | slice inner ih =>
    cases b with
    | slice inner' => exact ih inner' h
    | _ => cases h
  | tuple elems ih =>
    cases b with
    | tuple elems' => exact ih elems' h
    | _ => cases h
  | borrow t inner ih =>
    cases b with
    | borrow t' inner' =>
      exact ih inner' (Option.ite_none_right_eq_some.mp h).2
    | _ => cases h
  | pointer t inner ih =>
    cases b with
    | pointer t' inner' =>
      exact ih inner' (Option.ite_none_right_eq_some.mp h).2
    | _ => cases h
  | noTypes =>
    cases b with
    | noTypes => cases h; rfl
    | consType ty tys => cases h
  | consType ty tys ih ih' =>
    cases b with
    | noTypes => cases h
    | consType ty' tys' =>
      rcases andThen_eq_some.mp h with ⟨r, r', hr, hr', rfl⟩
      rw [List.filterMap_append, ih _ hr, ih' _ hr', slots]
  | pathParams tys vals ih =>
    cases b with
    | pathParams tys' vals' =>
      rcases andThen_eq_some.mp h with ⟨r, r', hr, hr', rfl⟩
      rw [List.filterMap_append, ih _ hr, slots_of_valueRequests hr']
      rfl
  | genericPath p ps ih =>
    cases b with
    | genericPath q qs =>
      exact ih qs (Option.ite_none_right_eq_some.mp h).2
  | noPaths =>
    cases b with
    | noPaths => cases h; rfl
    | consPath p ps => cases h
  | consPath p ps ih ih' =>
    cases b with
    | noPaths => cases h
    | consPath p' ps' =>
      rcases andThen_eq_some.mp h with ⟨r, r', hr, hr', rfl⟩
      rw [List.filterMap_append, ih _ hr, ih' _ hr', slots]
  | noBounds =>
    cases b with
    | noBounds => cases h; rfl
    | consBound name ty bs => cases h
  | consBound name ty bs ih ih' =>
    cases b with
    | noBounds => cases h
    | consBound name' ty' bs' =>
      rcases andThen_eq_some.mp (Option.ite_none_right_eq_some.mp h).2 with ⟨r, r', hr, hr', rfl⟩
      rw [List.filterMap_append, ih _ hr, ih' _ hr', slots]

end Mrustc.Impls
