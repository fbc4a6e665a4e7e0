import Mathlib.Tactic
import Mrustc.Impls.Matching

/-! # The runs of a match

A match succeeds exactly if its requests are granted one after the other, which they are exactly if an assignment
grants them that gives each const generic that is met first in a length the generic of the other side.
-/

namespace Mrustc.Impls
open Hir (SimplePath)

theorem bind_eq_ok {α β : Type} {x : Except Stop α} {f : α → Except Stop β} {c : β} :
    (x >>= f) = .ok c ↔ ∃ b, x = .ok b ∧ f b = .ok c := by
  cases x with
  | error e =>
    constructor
    · intro h
      cases h
    · rintro ⟨_, h, -⟩
      cases h
  | ok b =>
    constructor
    · intro h
      exact ⟨b, rfl, h⟩
    · rintro ⟨b', hb, h⟩
      cases hb
      exact h

def Request.run : Request → Matcher → Except Stop Matcher
  | .type binding ty, m => m.matchTy binding ty
  | .value binding val, m => m.matchVal binding val
  | .length binding val, m => m.dropped (m.matchVal binding val)

/-- The requests are granted one after the other. -/
def Runs (rs : Option (List Request)) (m m' : Matcher) : Prop :=
  ∃ r, rs = some r ∧ r.foldlM (fun m q => q.run m) m = .ok m'

theorem runs_andThen {as bs : Option (List Request)} {m m' : Matcher} :
    Runs (andThen as bs) m m' ↔ ∃ m₁, Runs as m m₁ ∧ Runs bs m₁ m' := by
  constructor
  · rintro ⟨rs, hrs, hrun⟩
    rcases andThen_eq_some.mp hrs with ⟨r, r', has, hbs, rfl⟩
    rw [List.foldlM_append] at hrun
    rcases bind_eq_ok.mp hrun with ⟨m₁, h, h'⟩
    exact ⟨m₁, ⟨r, has, h⟩, r', hbs, h'⟩
  · rintro ⟨m₁, ⟨r, has, h⟩, r', hbs, h'⟩
    refine ⟨r ++ r', andThen_eq_some.mpr ⟨r, r', has, hbs, rfl⟩, ?_⟩
    rw [List.foldlM_append]
    exact bind_eq_ok.mpr ⟨m₁, h, h'⟩

@[simp] theorem runs_nil {m m' : Matcher} : Runs (some []) m m' ↔ m = m' := by
  constructor
  · rintro ⟨r, hr, hrun⟩
    cases hr
    cases hrun
    rfl
  · rintro rfl
    exact ⟨[], rfl, rfl⟩

@[simp] theorem not_runs_none {m m' : Matcher} : ¬ Runs none m m' := by
  rintro ⟨_, h, -⟩
  cases h

theorem runs_single {q : Request} {m m' : Matcher} : Runs (some [q]) m m' ↔ q.run m = .ok m' := by
  constructor
  · rintro ⟨r, hr, hrun⟩
    cases hr
    rcases bind_eq_ok.mp hrun with ⟨m₁, h, h'⟩
    cases h'
    exact h
  · intro h
    exact ⟨[q], rfl, bind_eq_ok.mpr ⟨m', h, rfl⟩⟩

theorem runs_if {c : Prop} [Decidable c] {rs : Option (List Request)} {m m' : Matcher} :
    Runs (if c then rs else none) m m' ↔ c ∧ Runs rs m m' := by
  by_cases h : c <;> simp [h]

theorem if_eq_ok {α : Type} {c : Prop} [Decidable c] {e : Stop} {x : Except Stop α} {a : α} :
    (if c then x else .error e) = .ok a ↔ c ∧ x = .ok a := by
  by_cases h : c <;> simp [h]

theorem matchSize_eq_ok {n n' : ArraySize} {m m' : Matcher} :
    m.matchSize n n' = .ok m' ↔ Runs (sizeRequests n n') m m' := by
  cases n with
  | generic binding =>
    cases n' with
    | generic binding' =>
      rw [sizeRequests, runs_single]
      rfl
    | known size =>
      rw [sizeRequests, runs_single]
      rfl
  | known size =>
    cases n' with
    | generic binding => simp [Matcher.matchSize, sizeRequests]
    | known size' => by_cases h : size = size' <;> simp [Matcher.matchSize, sizeRequests, h]

theorem matchValues_eq_ok {vals vals' : List ConstGeneric} {m m' : Matcher} (hlength : vals.length = vals'.length) :
    m.matchValues vals vals' = .ok m' ↔ Runs (valueRequests vals vals') m m' := by
  induction vals generalizing vals' m with
  | nil =>
    cases vals' with
    | nil => simp [Matcher.matchValues, valueRequests]
    | cons val' vals' => cases hlength
  | cons val vals ih =>
    cases vals' with
    | nil => cases hlength
    | cons val' vals' =>
      have ih' : ∀ {m : Matcher}, m.matchValues vals vals' = .ok m' ↔ Runs (valueRequests vals vals') m m' :=
        ih (Nat.succ.inj hlength)
      cases val with
      | generic binding =>
        rw [Matcher.matchValues, bind_eq_ok, valueRequests, runs_andThen]
        simp only [ih', runs_single]
        rfl
      | evaluated value =>
        by_cases hval : .evaluated value = val' <;> simp [Matcher.matchValues, valueRequests, hval, ih']

theorem length_eq_of_valueRequests {vals vals' : List ConstGeneric} {rs : List Request}
    (h : valueRequests vals vals' = some rs) : vals.length = vals'.length := by
  induction vals generalizing vals' rs with
  | nil =>
    cases vals' with
    | nil => rfl
    | cons val' vals' => cases h
  | cons val vals ih =>
    cases vals' with
    | nil => cases val <;> cases h
    | cons val' vals' =>
      cases val with
      | generic binding =>
        rcases andThen_eq_some.mp h with ⟨r, r', -, hr', -⟩
        exact congrArg (· + 1) (ih hr')
      | evaluated value =>
        rw [valueRequests] at h
        split at h
        · exact congrArg (· + 1) (ih h)
        · cases h

/-- Parts that match are of one length. -/
theorem Term.size_eq_of_requests {k : Kind} {a b : Term k} {rs : List Request} (h : a.requests b = some rs)
    (hkind : k ≠ .typeRef) : a.size = b.size := by
  induction a generalizing rs with
  | noTypes => cases b <;> first | rfl | cases h
  | consType ty tys _ ih =>
    cases b with
    | noTypes => cases h
    | consType ty' tys' =>
      rcases andThen_eq_some.mp h with ⟨r, r', -, hr', -⟩
      exact congrArg (· + 1) (ih hr' hkind)
  | noPaths => cases b <;> first | rfl | cases h
  | consPath p ps _ ih =>
    cases b with
    | noPaths => cases h
    | consPath p' ps' =>
      rcases andThen_eq_some.mp h with ⟨r, r', -, hr', -⟩
      exact congrArg (· + 1) (ih hr' hkind)
  | noBounds => cases b <;> first | rfl | cases h
  | consBound name ty bs _ ih =>
    cases b with
    | noBounds => cases h
    | consBound name' ty' bs' =>
      rcases andThen_eq_some.mp (Option.ite_none_right_eq_some.mp h).2 with ⟨r, r', -, hr', -⟩
      exact congrArg (· + 1) (ih hr' hkind)
  | pathParams tys vals ih =>
    cases b with
    | pathParams tys' vals' =>
      rcases andThen_eq_some.mp h with ⟨r, r', hr, -, -⟩
      exact ih hr Kind.noConfusion
  | genericPath => cases b; rfl
  | _ => exact absurd rfl hkind

theorem Term.simplePath_eq_of_requests {a b : GenericPath} {rs : List Request} (h : a.requests b = some rs) :
    a.simplePath = b.simplePath := by
  cases a with
  | genericPath p ps =>
    cases b with
    | genericPath q qs => exact (Option.ite_none_right_eq_some.mp h).1

theorem refused {m m' : Matcher} : (.error .unequal : Except Stop Matcher) = .ok m' ↔ Runs none m m' :=
  iff_of_false (by rintro ⟨⟩) not_runs_none

theorem unless_eq_ok {α : Type} {c : Prop} [Decidable c] {e : Stop} {x : Except Stop α} {a : α} :
    (if ¬ c then .error e else x) = .ok a ↔ c ∧ x = .ok a := by
  rw [ite_not, if_eq_ok]

theorem unless_runs {c : Prop} [Decidable c] {e : Stop} {x : Except Stop Matcher} {rs : Option (List Request)}
    {m m' : Matcher} (h : x = .ok m' ↔ Runs rs m m') (hsome : ∀ r, rs = some r → c) :
    (if ¬ c then .error e else x) = .ok m' ↔ Runs rs m m' := by
  rw [unless_eq_ok, h]
  apply and_iff_right_of_imp
  rintro ⟨r, hr, -⟩
  exact hsome r hr

theorem unless_runs_if {c : Prop} [Decidable c] {e : Stop} {x : Except Stop Matcher} {rs : Option (List Request)}
    {m m' : Matcher} (h : x = .ok m' ↔ Runs rs m m') :
    (if ¬ c then .error e else x) = .ok m' ↔ Runs (if c then rs else none) m m' := by
  rw [unless_eq_ok, runs_if, h]

/-- Steps one after the other, each with its requests. -/
theorem bind_runs {x : Except Stop Matcher} {f : Matcher → Except Stop Matcher} {as bs : Option (List Request)}
    {m m' : Matcher} (h : ∀ m₁, x = .ok m₁ ↔ Runs as m m₁) (h' : ∀ m₁, f m₁ = .ok m' ↔ Runs bs m₁ m') :
    (x >>= f) = .ok m' ↔ Runs (andThen as bs) m m' := by
  rw [bind_eq_ok, runs_andThen]
  apply exists_congr
  intro m₁
  rw [h, h']

/-- A match succeeds exactly if its requests are granted. -/
theorem Term.matchGenerics_eq_ok {k : Kind} (a b : Term k) (m m' : Matcher) :
    a.matchGenerics b m = .ok m' ↔ Runs (a.requests b) m m' := by
  induction a generalizing m m' with
  | generic binding =>
    have hsingle : Runs (some [.type binding b]) m m' ↔ m.matchTy binding b = .ok m' := runs_single
    exact hsingle.symm
  | primitive ct =>
    cases b with
    | primitive ct' => exact if_eq_ok.trans ((and_congr_right' (by simp)).trans runs_if.symm)
    | _ => exact refused
  | path p ih =>
    cases b with
    | path p' => exact ih p' m m'
    | _ => exact refused
  | traitObject trait bs ms ih ih' ih'' =>
    cases b with
    | traitObject trait' bs' ms' =>
      have hbounds : ∀ m₁, (if bs.size ≠ bs'.size then .error .unequal else bs.matchGenerics bs' m₁) = .ok m' ↔
          Runs (bs.requests bs') m₁ m' := fun m₁ =>
        unless_runs (ih' bs' m₁ m') fun r hr => size_eq_of_requests hr Kind.noConfusion
      have hmarkers := fun m₁ => bind_runs (ih'' ms' m₁) hbounds
      apply unless_runs (unless_runs (bind_runs (ih trait' m) hmarkers) _)
      · intro r hr
        rcases andThen_eq_some.mp hr with ⟨r₁, -, hr₁, -⟩
        exact simplePath_eq_of_requests hr₁
      · intro r hr
        rcases andThen_eq_some.mp hr with ⟨-, r₂, -, hr₂, -⟩
        rcases andThen_eq_some.mp hr₂ with ⟨r₃, -, hr₃, -⟩
        exact size_eq_of_requests hr₃ Kind.noConfusion
    | _ => exact refused
  | array inner n ih =>
    cases b with
    | array inner' n' => exact bind_runs (fun m₁ => matchSize_eq_ok) fun m₁ => ih inner' m₁ m'
    | _ => exact refused
  | slice inner ih =>
    cases b with
    | slice inner' => exact ih inner' m m'
    | _ => exact refused
  | tuple elems ih =>
    cases b with
    | tuple elems' => exact unless_runs (ih elems' m m') fun r hr => size_eq_of_requests hr Kind.noConfusion
    | _ => exact refused
  | borrow t inner ih =>
    cases b with
    | borrow t' inner' => exact unless_runs_if (ih inner' m m')
    | _ => exact refused
  | pointer t inner ih =>
    cases b with
    | pointer t' inner' => exact unless_runs_if (ih inner' m m')
    | _ => exact refused
  | noTypes =>
    cases b with
    | noTypes => exact (by simp : Except.ok m = .ok m' ↔ m = m').trans runs_nil.symm
    | consType ty tys => exact refused
  | consType ty tys ih ih' =>
    cases b with
    | noTypes => exact refused
    | consType ty' tys' => exact bind_runs (ih ty' m) fun m₁ => ih' tys' m₁ m'
  | pathParams tys vals ih =>
    cases b with
    | pathParams tys' vals' =>
      apply unless_runs _ _
      · apply bind_runs (ih tys' m)
        intro m₁
        by_cases hlength : vals.length = vals'.length
        · exact (unless_eq_ok.trans (and_iff_right hlength)).trans (matchValues_eq_ok hlength)
        · apply iff_of_false
          · exact fun h => hlength (unless_eq_ok.mp h).1
          · rintro ⟨r, hr, -⟩
            exact hlength (length_eq_of_valueRequests hr)
      · intro r hr
        rcases andThen_eq_some.mp hr with ⟨r₁, -, hr₁, -⟩
        exact size_eq_of_requests hr₁ Kind.noConfusion
  | genericPath p ps ih =>
    cases b with
    | genericPath q qs => exact unless_runs_if (ih qs m m')
  | noPaths =>
    cases b with
    | noPaths => exact (by simp : Except.ok m = .ok m' ↔ m = m').trans runs_nil.symm
    | consPath p ps => exact refused
  | consPath p ps ih ih' =>
    cases b with
    | noPaths => exact refused
    | consPath p' ps' => exact bind_runs (ih p' m) fun m₁ => ih' ps' m₁ m'
  | noBounds =>
    cases b with
    | noBounds => exact (by simp : Except.ok m = .ok m' ↔ m = m').trans runs_nil.symm
    | consBound name ty bs => exact refused
  | consBound name ty bs ih ih' =>
    cases b with
    | noBounds => exact refused
    | consBound name' ty' bs' => exact unless_runs_if (bind_runs (ih ty' m) fun m₁ => ih' bs' m₁ m')

/-! ## No match aborts -/

def Matcher.Covers (m : Matcher) (types values : ℕ) : Prop := m.types.length = types ∧ m.values.length = values

/-- A step that matches or does not, for the same generics. -/
def Safe (types values : ℕ) (x : Except Stop Matcher) : Prop :=
  (∃ m, x = .ok m ∧ m.Covers types values) ∨ x = .error .unequal

section Safe

variable {types values : ℕ} {m : Matcher}

theorem safe_ok (h : m.Covers types values) : Safe types values (.ok m) := .inl ⟨m, rfl, h⟩

theorem safe_unequal : Safe types values (.error .unequal) := .inr rfl

theorem Safe.bind {x : Except Stop Matcher} {f : Matcher → Except Stop Matcher} (h : Safe types values x)
    (hf : ∀ m, m.Covers types values → Safe types values (f m)) : Safe types values (x >>= f) := by
  rcases h with ⟨m, rfl, hm⟩ | rfl
  · exact hf m hm
  · exact safe_unequal

theorem safe_if {c : Prop} [Decidable c] {x : Except Stop Matcher} (h : Safe types values x) :
    Safe types values (if c then .error .unequal else x) := by
  split
  · exact safe_unequal
  · exact h

theorem safe_when {c : Prop} [Decidable c] {x : Except Stop Matcher} (h : Safe types values x) :
    Safe types values (if c then x else .error .unequal) := by
  split
  · exact h
  · exact safe_unequal

theorem safe_matchTy (hm : m.Covers types values) {binding : ℕ} (h : binding < types) (ty : TypeRef) :
    Safe types values (m.matchTy binding ty) := by
  rw [Matcher.matchTy]
  split
  next hget =>
    rw [List.getElem?_eq_none_iff, hm.1] at hget
    omega
  next => exact safe_ok ⟨by simpa using hm.1, hm.2⟩
  next =>
    split
    · exact safe_ok hm
    · exact safe_unequal

theorem safe_matchVal (hm : m.Covers types values) {binding : ℕ} (h : binding < values) (val : ConstGeneric) :
    Safe types values (m.matchVal binding val) := by
  rw [Matcher.matchVal]
  split
  next hget =>
    rw [List.getElem?_eq_none_iff, hm.2] at hget
    omega
  next => exact safe_ok ⟨hm.1, by simpa using hm.2⟩
  next =>
    split
    · exact safe_ok hm
    · exact safe_unequal

theorem Safe.dropped {x : Except Stop Matcher} (h : Safe types values x) (hm : m.Covers types values) :
    Safe types values (m.dropped x) := by
  rcases h with ⟨m', rfl, hm'⟩ | rfl
  · exact safe_ok hm'
  · exact safe_ok hm

theorem safe_matchSize (hm : m.Covers types values) {n : ArraySize}
    (h : ∀ binding, n = .generic binding → binding < values) (n' : ArraySize) :
    Safe types values (m.matchSize n n') := by
  cases n with
  | generic binding => cases n' <;> exact (safe_matchVal hm (h binding rfl) _).dropped hm
  | known size =>
    cases n' with
    | generic binding => exact safe_unequal
    | known size' =>
      rw [Matcher.matchSize]
      split
      · exact safe_ok hm
      · exact safe_unequal

theorem safe_matchValues (hm : m.Covers types values) {vals : List ConstGeneric}
    (h : ∀ binding, ConstGeneric.generic binding ∈ vals → binding < values) (vals' : List ConstGeneric) :
    Safe types values (m.matchValues vals vals') := by
  induction vals generalizing m vals' with
  | nil => exact safe_ok hm
  | cons val vals ih =>
    have htail : ∀ binding, ConstGeneric.generic binding ∈ vals → binding < values := fun binding hmem =>
      h binding (List.mem_cons_of_mem _ hmem)
    cases vals' with
    | nil => cases val <;> exact safe_ok hm
    | cons val' vals' =>
      cases val with
      | generic binding =>
        rw [Matcher.matchValues]
        exact (safe_matchVal hm (h binding List.mem_cons_self) _).bind fun m hm => ih hm htail vals'
      | evaluated value =>
        rw [Matcher.matchValues]
        split
        · exact ih hm htail vals'
        · exact safe_unequal

/-- The match of a well-formed part does not abort. -/
theorem Term.safe_matchGenerics {arity : SimplePath → ℕ × ℕ} {k : Kind} (a b : Term k)
    (h : a.WellFormed arity types values) (hm : m.Covers types values) : Safe types values (a.matchGenerics b m) := by
  induction a generalizing m with
  | generic binding => exact safe_matchTy hm h b
  | primitive ct =>
    cases b with
    | primitive ct' => exact safe_when (safe_ok hm)
    | _ => exact safe_unequal
  | path p ih => cases b <;> first | exact ih _ h hm | exact safe_unequal
  | traitObject trait bs ms ih ih' ih'' =>
    cases b <;> try exact safe_unequal
    exact safe_if (safe_if ((ih _ h.1 hm).bind fun m hm => (ih'' _ h.2.2 hm).bind fun m hm => safe_if (ih' _ h.2.1 hm)))
  | array inner n ih =>
    cases b <;> try exact safe_unequal
    exact (safe_matchSize hm h.2 _).bind fun m hm => ih _ h.1 hm
  | slice inner ih => cases b <;> first | exact ih _ h hm | exact safe_unequal
  | tuple elems ih => cases b <;> first | exact safe_if (ih _ h hm) | exact safe_unequal
  | borrow t inner ih => cases b <;> first | exact safe_if (ih _ h hm) | exact safe_unequal
  | pointer t inner ih => cases b <;> first | exact safe_if (ih _ h hm) | exact safe_unequal
  | noTypes => cases b <;> first | exact safe_ok hm | exact safe_unequal
  | consType ty tys ih ih' =>
    cases b <;> try exact safe_unequal
    exact (ih _ h.1 hm).bind fun m hm => ih' _ h.2 hm
  | pathParams tys vals ih =>
    cases b
    exact safe_if ((ih _ h.1 hm).bind fun m hm => safe_if (safe_matchValues hm h.2 _))
  | genericPath p ps ih => cases b; exact safe_if (ih _ h.2 hm)
  | noPaths => cases b <;> first | exact safe_ok hm | exact safe_unequal
  | consPath p ps ih ih' =>
    cases b <;> try exact safe_unequal
    exact (ih _ h.1 hm).bind fun m hm => ih' _ h.2 hm
  | noBounds => cases b <;> first | exact safe_ok hm | exact safe_unequal
  | consBound name ty bs ih ih' =>
    cases b <;> try exact safe_unequal
    exact safe_if ((ih _ h.1 hm).bind fun m hm => ih' _ h.2 hm)

end Safe

/-! ## The requests are for the generics of the impl -/

def Request.InRange (types values : ℕ) : Request → Prop
  | .type binding _ => binding < types
  | .value binding _ => binding < values
  | .length binding _ => binding < values

section InRange

variable {types values : ℕ} {rs : List Request}

theorem inRange_andThen {as bs : Option (List Request)} (h : andThen as bs = some rs)
    (has : ∀ r, as = some r → ∀ q ∈ r, q.InRange types values)
    (hbs : ∀ r, bs = some r → ∀ q ∈ r, q.InRange types values) : ∀ q ∈ rs, q.InRange types values := by
  rcases andThen_eq_some.mp h with ⟨r, r', hr, hr', rfl⟩
  intro q hq
  rcases List.mem_append.mp hq with hq | hq
  · exact has r hr q hq
  · exact hbs r' hr' q hq

theorem inRange_sizeRequests {n n' : ArraySize} (h : sizeRequests n n' = some rs)
    (hn : ∀ binding, n = .generic binding → binding < values) : ∀ q ∈ rs, q.InRange types values := by
  cases n with
  | generic binding => cases n' <;> cases h <;> simpa [Request.InRange] using hn binding rfl
  | known size =>
    cases n' with
    | generic binding => cases h
    | known size' =>
      rw [sizeRequests] at h
      split at h <;> cases h
      simp

theorem inRange_valueRequests {vals vals' : List ConstGeneric} (h : valueRequests vals vals' = some rs)
    (hvals : ∀ binding, ConstGeneric.generic binding ∈ vals → binding < values) :
    ∀ q ∈ rs, q.InRange types values := by
  induction vals generalizing vals' rs with
  | nil => cases vals' <;> cases h; simp
  | cons val vals ih =>
    have htail : ∀ binding, ConstGeneric.generic binding ∈ vals → binding < values := fun binding hmem =>
      hvals binding (List.mem_cons_of_mem _ hmem)
    cases vals' with
    | nil => cases val <;> cases h
    | cons val' vals' =>
      cases val with
      | generic binding =>
        apply inRange_andThen h _ fun r hr => ih hr htail
        intro r hr
        cases hr
        simpa [Request.InRange] using hvals binding List.mem_cons_self
      | evaluated value =>
        rw [valueRequests] at h
        split at h
        · exact ih h htail
        · cases h

theorem Term.inRange_requests {arity : SimplePath → ℕ × ℕ} {k : Kind} (a b : Term k)
    (hwf : a.WellFormed arity types values) (h : a.requests b = some rs) : ∀ q ∈ rs, q.InRange types values := by
  induction a generalizing rs with
  | generic binding =>
    have hlt : binding < types := hwf
    cases h
    simpa [Request.InRange] using hlt
  | primitive ct =>
    cases b with
    | primitive ct' =>
      rcases Option.ite_none_right_eq_some.mp h with ⟨-, h⟩
      cases h
      simp
    | _ => cases h
  | path p ih => cases b <;> first | exact ih _ hwf h | cases h
  | traitObject trait bs ms ih ih' ih'' =>
    cases b with
    | traitObject trait' bs' ms' =>
      apply inRange_andThen h fun r hr => ih _ hwf.1 hr
      exact fun r hr => inRange_andThen hr (fun r hr => ih'' _ hwf.2.2 hr) fun r hr => ih' _ hwf.2.1 hr
    | _ => cases h
  | array inner n ih =>
    cases b with
    | array inner' n' =>
      exact inRange_andThen h (fun r hr => inRange_sizeRequests hr hwf.2) fun r hr => ih _ hwf.1 hr
    | _ => cases h
  | slice inner ih => cases b <;> first | exact ih _ hwf h | cases h
  | tuple elems ih => cases b <;> first | exact ih _ hwf h | cases h
  | borrow t inner ih =>
    cases b with
    | borrow t' inner' =>
      exact ih inner' hwf (Option.ite_none_right_eq_some.mp h).2
    | _ => cases h
  | pointer t inner ih =>
    cases b with
    | pointer t' inner' =>
      exact ih inner' hwf (Option.ite_none_right_eq_some.mp h).2
    | _ => cases h
  | noTypes => cases b <;> cases h; simp
  | consType ty tys ih ih' =>
    cases b with
    | noTypes => cases h
    | consType ty' tys' => exact inRange_andThen h (fun r hr => ih _ hwf.1 hr) fun r hr => ih' _ hwf.2 hr
  | pathParams tys vals ih =>
    cases b with
    | pathParams tys' vals' =>
      exact inRange_andThen h (fun r hr => ih _ hwf.1 hr) fun r hr => inRange_valueRequests hr hwf.2
  | genericPath p ps ih =>
    cases b with
    | genericPath q qs =>
      exact ih qs hwf.2 (Option.ite_none_right_eq_some.mp h).2
  | noPaths => cases b <;> cases h; simp
  | consPath p ps ih ih' =>
    cases b with
    | noPaths => cases h
    | consPath p' ps' => exact inRange_andThen h (fun r hr => ih _ hwf.1 hr) fun r hr => ih' _ hwf.2 hr
  | noBounds => cases b <;> cases h; simp
  | consBound name ty bs ih ih' =>
    cases b with
    | noBounds => cases h
    | consBound name' ty' bs' =>
      exact inRange_andThen (Option.ite_none_right_eq_some.mp h).2 (fun r hr => ih _ hwf.1 hr) fun r hr => ih' _ hwf.2 hr

theorem Request.InRange.safe_run {q : Request} {m : Matcher} (h : q.InRange types values)
    (hm : m.Covers types values) : Safe types values (q.run m) := by
  cases q with
  | type binding ty => exact safe_matchTy hm h ty
  | value binding val => exact safe_matchVal hm h val
  | length binding val => exact (safe_matchVal hm h val).dropped hm

end InRange

/-! ## The assignments of a run -/

/-- An assignment that agrees with what is matched already. -/
structure Fits (σ : Assignment) (m : Matcher) : Prop where
  types : ∀ binding ty, m.types[binding]? = some (some ty) → σ.types binding = ty
  values : ∀ binding val, m.values[binding]? = some (some val) → σ.values binding = val

/-- The generics that are not matched yet and met first in a length stand for those of the other side. -/
def LengthsStay (σ : Assignment) (m : Matcher) (slots : List (ℕ × Bool)) : Prop :=
  ∀ binding ∈ lengthFirst slots, m.values[binding]? = some none → σ.values binding = .generic binding

section Runs

variable {σ : Assignment} {m m' : Matcher} {binding : ℕ} {ty : TypeRef} {val : ConstGeneric}

theorem matchTy_eq_ok : m.matchTy binding ty = .ok m' ↔
    (m.types[binding]? = some none ∧ m' = {m with types := m.types.set binding (some ty)}) ∨
      (m.types[binding]? = some (some ty) ∧ m' = m) := by
  rw [Matcher.matchTy]
  split
  next h => simp [h]
  next h => simp [h, eq_comm]
  next ty' h => by_cases hty : ty = ty' <;> simp [h, hty, eq_comm]

theorem matchVal_eq_ok : m.matchVal binding val = .ok m' ↔
    (m.values[binding]? = some none ∧ m' = {m with values := m.values.set binding (some val)}) ∨
      (m.values[binding]? = some (some val) ∧ m' = m) := by
  rw [Matcher.matchVal]
  split
  next h => simp [h]
  next h => simp [h, eq_comm]
  next val' h => by_cases hval : val = val' <;> simp [h, hval, eq_comm]

theorem dropped_eq_ok : m.dropped (m.matchVal binding val) = .ok m' ↔
    (m.values[binding]? = some none ∧ m' = {m with values := m.values.set binding (some val)}) ∨
      ((∃ val', m.values[binding]? = some (some val')) ∧ m' = m) := by
  rw [Matcher.matchVal]
  split
  next h => simp [h, Matcher.dropped]
  next h => simp [h, Matcher.dropped, eq_comm]
  next val' h => by_cases hval : val = val' <;> simp [h, hval, Matcher.dropped, eq_comm]

theorem fits_set_types (h : m.types[binding]? = some none) :
    Fits σ {m with types := m.types.set binding (some ty)} ↔ Fits σ m ∧ σ.types binding = ty := by
  have hlt := (List.getElem?_eq_some_iff.mp h).1
  constructor
  · intro hfits
    refine ⟨⟨fun i t hi => ?_, hfits.values⟩, hfits.types binding ty (by simp [hlt])⟩
    apply hfits.types i t
    have hne : binding ≠ i := by
      rintro rfl
      rw [h] at hi
      cases hi
    simpa [List.getElem?_set_ne hne] using hi
  · rintro ⟨hfits, hty⟩
    refine ⟨fun i t hi => ?_, hfits.values⟩
    by_cases hi' : binding = i
    · subst hi'
      simp [hlt] at hi
      rw [hty, hi]
    · exact hfits.types i t (by simpa [List.getElem?_set_ne hi'] using hi)

theorem fits_set_values (h : m.values[binding]? = some none) :
    Fits σ {m with values := m.values.set binding (some val)} ↔ Fits σ m ∧ σ.values binding = val := by
  have hlt := (List.getElem?_eq_some_iff.mp h).1
  constructor
  · intro hfits
    refine ⟨⟨hfits.types, fun i v hi => ?_⟩, hfits.values binding val (by simp [hlt])⟩
    apply hfits.values i v
    have hne : binding ≠ i := by
      rintro rfl
      rw [h] at hi
      cases hi
    simpa [List.getElem?_set_ne hne] using hi
  · rintro ⟨hfits, hval⟩
    refine ⟨hfits.types, fun i v hi => ?_⟩
    by_cases hi' : binding = i
    · subst hi'
      simp [hlt] at hi
      rw [hval, hi]
    · exact hfits.values i v (by simpa [List.getElem?_set_ne hi'] using hi)

/-- An assignment for what is granted, seen from before the request. -/
theorem Fits.of_run {q : Request} {slots : List (ℕ × Bool)} (hrun : q.run m = .ok m') (hsame : q.SameLength)
    (hfits : Fits σ m') (hstay : LengthsStay σ m' slots) :
    Fits σ m ∧ q.Holds σ ∧ LengthsStay σ m (q.slot?.toList ++ slots) := by
  cases q with
  | type binding ty =>
    rcases matchTy_eq_ok.mp hrun with ⟨hget, rfl⟩ | ⟨hget, rfl⟩
    · have hfits' := (fits_set_types hget).mp hfits
      exact ⟨hfits'.1, hfits'.2, hstay⟩
    · exact ⟨hfits, hfits.types binding ty hget, hstay⟩
  | value binding val =>
    have hother : ∀ i ∈ lengthFirst ((binding, false) :: slots), i ∈ lengthFirst slots ∧ i ≠ binding := by
      simp [lengthFirst]
    rcases matchVal_eq_ok.mp hrun with ⟨hget, rfl⟩ | ⟨hget, rfl⟩
    · have hfits' := (fits_set_values hget).mp hfits
      refine ⟨hfits'.1, hfits'.2, fun i hi hnone => hstay i (hother i hi).1 ?_⟩
      simpa [List.getElem?_set_ne (hother i hi).2.symm] using hnone
    · exact ⟨hfits, hfits.values binding val hget, fun i hi => hstay i (hother i hi).1⟩
  | length binding val =>
    have hother : ∀ i ∈ lengthFirst ((binding, true) :: slots), i ≠ binding → i ∈ lengthFirst slots := by
      simp +contextual [lengthFirst]
    rcases dropped_eq_ok.mp hrun with ⟨hget, rfl⟩ | ⟨⟨val', hget⟩, rfl⟩
    · have hfits' := (fits_set_values hget).mp hfits
      refine ⟨hfits'.1, trivial, fun i hi hnone => ?_⟩
      by_cases hne : i = binding
      · rw [hne, hfits'.2]
        exact hsame
      · apply hstay i (hother i hi hne)
        simpa [List.getElem?_set_ne (Ne.symm hne)] using hnone
    · refine ⟨hfits, trivial, fun i hi hnone => hstay i (hother i hi ?_) hnone⟩
      rintro rfl
      rw [hget] at hnone
      cases hnone

/-- A request that holds is granted, or out of range. -/
theorem Fits.run {q : Request} {slots : List (ℕ × Bool)} (hfits : Fits σ m) (hholds : q.Holds σ)
    (hsame : q.SameLength) (hstay : LengthsStay σ m (q.slot?.toList ++ slots)) :
    q.run m = .error .bug ∨ ∃ m', q.run m = .ok m' ∧ Fits σ m' ∧ LengthsStay σ m' slots := by
  cases q with
  | type binding ty =>
    rw [Request.run, Matcher.matchTy]
    split
    next => exact .inl rfl
    next hget => exact .inr ⟨_, rfl, (fits_set_types hget).mpr ⟨hfits, hholds⟩, hstay⟩
    next ty' hget =>
      have heq : ty = ty' := by rw [← hfits.types binding ty' hget, hholds]
      rw [if_pos heq]
      exact .inr ⟨m, rfl, hfits, hstay⟩
  | value binding val =>
    have hother : ∀ i ∈ lengthFirst slots, i ≠ binding → i ∈ lengthFirst ((binding, false) :: slots) := by
      simp +contextual [lengthFirst]
    rw [Request.run, Matcher.matchVal]
    split
    next => exact .inl rfl
    next hget =>
      have hlt := (List.getElem?_eq_some_iff.mp hget).1
      refine .inr ⟨_, rfl, (fits_set_values hget).mpr ⟨hfits, hholds⟩, fun i hi hnone => ?_⟩
      have hne : i ≠ binding := by
        rintro rfl
        simp [hlt] at hnone
      apply hstay i (hother i hi hne)
      simpa [List.getElem?_set_ne hne.symm] using hnone
    next val' hget =>
      have heq : val = val' := by rw [← hfits.values binding val' hget, hholds]
      rw [if_pos heq]
      refine .inr ⟨m, rfl, hfits, fun i hi hnone => hstay i (hother i hi ?_) hnone⟩
      rintro rfl
      rw [hget] at hnone
      cases hnone
  | length binding val =>
    have hother : ∀ i ∈ lengthFirst slots, i ≠ binding → i ∈ lengthFirst ((binding, true) :: slots) := by
      simp +contextual [lengthFirst]
    cases hget : m.values[binding]? with
    | none =>
      left
      rw [Request.run, Matcher.matchVal, hget]
      rfl
    | some entry =>
      right
      cases entry with
      | none =>
        have hlt := (List.getElem?_eq_some_iff.mp hget).1
        have hval : σ.values binding = val := by
          rw [hstay binding List.mem_cons_self hget]
          exact hsame.symm
        refine ⟨_, dropped_eq_ok.mpr (.inl ⟨hget, rfl⟩), (fits_set_values hget).mpr ⟨hfits, hval⟩, fun i hi hnone => ?_⟩
        have hne : i ≠ binding := by
          rintro rfl
          simp [hlt] at hnone
        apply hstay i (hother i hi hne)
        simpa [List.getElem?_set_ne hne.symm] using hnone
      | some val' =>
        refine ⟨m, dropped_eq_ok.mpr (.inr ⟨⟨val', hget⟩, rfl⟩), hfits, fun i hi hnone => ?_⟩
        refine hstay i (hother i hi ?_) hnone
        rintro rfl
        rw [hget] at hnone
        cases hnone

/-- Some assignment fits what is matched. -/
theorem exists_fits (m : Matcher) : ∃ σ, Fits σ m := by
  refine ⟨⟨fun i => (m.types[i]?.join).getD (.tuple .noTypes), fun i => (m.values[i]?.join).getD (.generic i)⟩, ?_, ?_⟩
  · intro i ty h
    simp [h]
  · intro i val h
    simp [h]

/-- Requests that are granted hold for an assignment. -/
theorem exists_of_runs {rs : List Request} (hsame : ∀ q ∈ rs, q.SameLength)
    (hrun : rs.foldlM (fun m q => q.run m) m = .ok m') :
    ∃ σ, Fits σ m ∧ (∀ q ∈ rs, q.Holds σ) ∧ LengthsStay σ m (rs.filterMap Request.slot?) := by
  induction rs generalizing m with
  | nil =>
    rcases exists_fits m with ⟨σ, hσ⟩
    exact ⟨σ, hσ, by simp, by simp [LengthsStay, lengthFirst]⟩
  | cons q rs ih =>
    rw [List.foldlM_cons] at hrun
    rcases bind_eq_ok.mp hrun with ⟨m₁, hq, hrs⟩
    rcases ih (fun q hq => hsame q (List.mem_cons_of_mem _ hq)) hrs with ⟨σ, hfits, hholds, hstay⟩
    rcases hfits.of_run hq (hsame q List.mem_cons_self) hstay with ⟨hfits', hholds', hstay'⟩
    refine ⟨σ, hfits', ?_, ?_⟩
    · intro p hp
      rcases List.mem_cons.mp hp with rfl | hp
      · exact hholds'
      · exact hholds p hp
    · cases hslot : q.slot? <;> simpa [hslot] using hstay'

/-- Requests that hold for an assignment are granted. -/
theorem Fits.runs {types values : ℕ} {rs : List Request} (hm : m.Covers types values)
    (hrange : ∀ q ∈ rs, q.InRange types values) (hsame : ∀ q ∈ rs, q.SameLength) (hfits : Fits σ m)
    (hholds : ∀ q ∈ rs, q.Holds σ) (hstay : LengthsStay σ m (rs.filterMap Request.slot?)) :
    ∃ m', rs.foldlM (fun m q => q.run m) m = .ok m' := by
  induction rs generalizing m with
  | nil => exact ⟨m, rfl⟩
  | cons q rs ih =>
    have hstay' : LengthsStay σ m (q.slot?.toList ++ rs.filterMap Request.slot?) := by
      cases hslot : q.slot? <;> simpa [hslot] using hstay
    have hsafe := (hrange q List.mem_cons_self).safe_run hm
    rw [List.foldlM_cons]
    rcases hfits.run (hholds q List.mem_cons_self) (hsame q List.mem_cons_self) hstay' with
      hq | ⟨m₁, hq, hfits₁, hstay₁⟩
    · rw [hq] at hsafe
      rcases hsafe with ⟨m', hm', -⟩ | hm' <;> cases hm'
    · rw [hq] at hsafe ⊢
      rcases hsafe with ⟨m', hm', hcovers⟩ | hm'
      · cases hm'
        exact ih hcovers (fun q hq => hrange q (List.mem_cons_of_mem _ hq))
          (fun q hq => hsame q (List.mem_cons_of_mem _ hq)) hfits₁
          (fun q hq => hholds q (List.mem_cons_of_mem _ hq)) hstay₁
      · cases hm'

end Runs

end Mrustc.Impls
