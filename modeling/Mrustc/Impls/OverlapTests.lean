import Mathlib.Tactic
import Mrustc.Impls.MatchRuns

/-! # The tests before the match

Parts that pass the test of the forms have the same lengths, outside of the bounds of trait objects, and are ordered or
mixed. An instance passes the test and is ordered with the original, in both directions.
-/

namespace Mrustc.Impls
open Hir (SimplePath)

/-- An allowed ordering, or a mixed one if that is allowed. -/
def Orders (allowed : Ordering → Prop) (mixed : Prop) (x : Except Stop Ordering) : Prop :=
  (∃ o, allowed o ∧ x = .ok o) ∨ (mixed ∧ x = .error .mixedOrdering)

section Orders

variable {allowed : Ordering → Prop} {mixed : Prop} {x : Except Stop Ordering} {c : Prop} [Decidable c]

theorem orders_ok {o : Ordering} (h : allowed o) : Orders allowed mixed (.ok o) := .inl ⟨o, h, rfl⟩

theorem Orders.equal_or (heq : allowed .eq) (h : ¬ c → Orders allowed mixed x) :
    Orders allowed mixed (if c then .ok .eq else x) := by
  split
  · exact orders_ok heq
  next hc => exact h hc

theorem Orders.bug_or (h : Orders allowed mixed x) (hc : ¬ c) :
    Orders allowed mixed (if c then .error .bug else x) := by
  rw [if_neg hc]
  exact h

theorem Orders.bind {f : Ordering → Except Stop Ordering} (h : Orders allowed mixed x)
    (hf : ∀ o, allowed o → Orders allowed mixed (f o)) : Orders allowed mixed (x >>= f) := by
  rcases h with ⟨o, ho, rfl⟩ | ⟨hmixed, rfl⟩
  · exact hf o ho
  · exact .inr ⟨hmixed, rfl⟩

theorem Orders.first {y : Except Stop Ordering} (h : Orders allowed mixed x) (h' : Orders allowed mixed y) :
    Orders allowed mixed (x >>= fun o => if o ≠ .eq then pure o else y) := by
  apply h.bind
  intro o ho
  split
  · exact orders_ok ho
  · exact h'

theorem orders_join (rv a : Ordering) : Orders (fun _ => True) True (Term.join rv a) := by
  cases rv <;> cases a <;> first | exact .inl ⟨_, trivial, rfl⟩ | exact .inr ⟨trivial, rfl⟩

theorem orders_join_of_ne {bad rv a : Ordering} (hrv : rv ≠ bad) (ha : a ≠ bad) (hbad : .eq ≠ bad) :
    Orders (· ≠ bad) False (Term.join rv a) := by
  cases bad <;> cases rv <;> cases a <;> first | contradiction | exact .inl ⟨_, Ordering.noConfusion, rfl⟩

end Orders

namespace Term

variable {k : Kind}

theorem instantiate_self (t : Term k) : t.instantiate ⟨.generic, .generic⟩ = t := by
  induction t with
  | pathParams tys vals ih =>
    simp only [instantiate, ih, pathParams.injEq, true_and]
    conv_rhs => rw [← List.map_id vals]
    apply List.map_congr_left
    intro val _
    cases val <;> rfl
  | _ => simp_all [instantiate]

/-! ## What overlaps -/

section Forms

variable {a b : TypeRef} {x y : Bool}

theorem alike : (if Kind.typeRef = .typeRef ∧ a = b then true else x) = true ↔ a = b ∨ x = true := by
  by_cases h : a = b <;> simp [h]

theorem unlike (hne : a ≠ b) : ¬ (if Kind.typeRef = .typeRef ∧ a = b then true else false) = true := by
  simp [hne]

theorem alike_comm (h : x = y) : (if Kind.typeRef = .typeRef ∧ a = b then true else x) =
    if Kind.typeRef = .typeRef ∧ b = a then true else y := by
  rw [h]
  by_cases hab : a = b
  · simp [hab]
  · simp [hab, Ne.symm hab]

theorem alike_of_eq (h : x = true) : (if Kind.typeRef = .typeRef ∧ a = b then true else x) = true :=
  alike.mpr (.inr h)

theorem overlap_primitive {ct ct' : Hir.CoreType} : (primitive ct).typesOverlap (primitive ct') = true ↔ ct = ct' := by
  apply alike.trans
  rw [primitive.injEq, decide_eq_true_iff, or_self]

theorem overlap_path {p p' : GenericPath} : (path p).typesOverlap (path p') = true ↔
    p = p' ∨ p.typesOverlap p' = true := by
  apply alike.trans
  rw [path.injEq]

theorem overlap_traitObject {t t' : GenericPath} {bs bs' : Term .typeBounds} {ms ms' : Term .genericPaths} :
    (traitObject t bs ms).typesOverlap (traitObject t' bs' ms') = true ↔ (t = t' ∧ bs = bs' ∧ ms = ms') ∨
      (t.typesOverlap t' = true ∧ ms.size = ms'.size) ∧ ms.typesOverlap ms' = true := by
  apply alike.trans
  rw [traitObject.injEq, Bool.and_eq_true_iff, Bool.and_eq_true_iff, decide_eq_true_iff]

theorem overlap_array {inner inner' : TypeRef} {n n' : ArraySize} :
    (array inner n).typesOverlap (array inner' n') = true ↔
      (inner = inner' ∧ n = n') ∨ n = n' ∧ inner.typesOverlap inner' = true := by
  apply alike.trans
  rw [array.injEq, Bool.and_eq_true_iff, decide_eq_true_iff]

theorem overlap_slice {inner inner' : TypeRef} : (slice inner).typesOverlap (slice inner') = true ↔
    inner = inner' ∨ inner.typesOverlap inner' = true := by
  apply alike.trans
  rw [slice.injEq]

theorem overlap_tuple {elems elems' : Term .types} : (tuple elems).typesOverlap (tuple elems') = true ↔
    elems = elems' ∨ elems.size = elems'.size ∧ elems.typesOverlap elems' = true := by
  apply alike.trans
  rw [tuple.injEq, Bool.and_eq_true_iff, decide_eq_true_iff]

theorem overlap_borrow {t t' : Hir.BorrowType} {inner inner' : TypeRef} :
    (borrow t inner).typesOverlap (borrow t' inner') = true ↔
      (t = t' ∧ inner = inner') ∨ t = t' ∧ inner.typesOverlap inner' = true := by
  apply alike.trans
  rw [borrow.injEq, Bool.and_eq_true_iff, decide_eq_true_iff]

theorem overlap_pointer {t t' : Hir.BorrowType} {inner inner' : TypeRef} :
    (pointer t inner).typesOverlap (pointer t' inner') = true ↔
      (t = t' ∧ inner = inner') ∨ t = t' ∧ inner.typesOverlap inner' = true := by
  apply alike.trans
  rw [pointer.injEq, Bool.and_eq_true_iff, decide_eq_true_iff]

theorem overlap_consType {ty ty' : TypeRef} {tys tys' : Term .types} :
    (consType ty tys).typesOverlap (consType ty' tys') = true ↔
      ty.typesOverlap ty' = true ∧ tys.typesOverlap tys' = true :=
  Bool.and_eq_true_iff

theorem overlap_genericPath {p q : SimplePath} {ps qs : PathParams} :
    (genericPath p ps).typesOverlap (genericPath q qs) = true ↔ p = q ∧ ps.typesOverlap qs = true :=
  Bool.and_eq_true_iff.trans (and_congr_left' decide_eq_true_iff)

theorem overlap_consPath {p p' : GenericPath} {ps ps' : Term .genericPaths} :
    (consPath p ps).typesOverlap (consPath p' ps') = true ↔ p.typesOverlap p' = true ∧ ps.typesOverlap ps' = true :=
  Bool.and_eq_true_iff

end Forms

theorem typesOverlap_comm (a b : Term k) : a.typesOverlap b = b.typesOverlap a := by
  have hsame : ∀ {α : Type} [DecidableEq α] (x y : α), decide (x = y) = decide (y = x) := fun x y => by
    rw [Bool.eq_iff_iff, decide_eq_true_iff, decide_eq_true_iff, eq_comm]
  induction a with
  | generic binding => cases b <;> exact alike_comm rfl
  | primitive ct =>
    cases b with
    | primitive ct' => exact alike_comm (hsame ct ct')
    | _ => exact alike_comm rfl
  | path p ih =>
    cases b with
    | path p' => exact alike_comm (ih p')
    | _ => exact alike_comm rfl
  | traitObject trait bs ms ih _ ih' =>
    cases b with
    | traitObject trait' bs' ms' =>
      exact alike_comm (congrArg₂ and (congrArg₂ and (ih trait') (hsame ms.size ms'.size)) (ih' ms'))
    | _ => exact alike_comm rfl
  | array inner n ih =>
    cases b with
    | array inner' n' => exact alike_comm (congrArg₂ and (hsame n n') (ih inner'))
    | _ => exact alike_comm rfl
  | slice inner ih =>
    cases b with
    | slice inner' => exact alike_comm (ih inner')
    | _ => exact alike_comm rfl
  | tuple elems ih =>
    cases b with
    | tuple elems' => exact alike_comm (congrArg₂ and (hsame elems.size elems'.size) (ih elems'))
    | _ => exact alike_comm rfl
  | borrow t inner ih =>
    cases b with
    | borrow t' inner' => exact alike_comm (congrArg₂ and (hsame t t') (ih inner'))
    | _ => exact alike_comm rfl
  | pointer t inner ih =>
    cases b with
    | pointer t' inner' => exact alike_comm (congrArg₂ and (hsame t t') (ih inner'))
    | _ => exact alike_comm rfl
  | noTypes => cases b <;> rfl
  | consType ty tys ih ih' =>
    cases b with
    | noTypes => rfl
    | consType ty' tys' => exact congrArg₂ and (ih ty') (ih' tys')
  | pathParams tys vals ih =>
    cases b with
    | pathParams tys' vals' => exact ih tys'
  | genericPath p ps ih =>
    cases b with
    | genericPath q qs => exact congrArg₂ and (hsame p q) (ih qs)
  | noPaths => cases b <;> rfl
  | consPath p ps ih ih' =>
    cases b with
    | noPaths => rfl
    | consPath p' ps' => exact congrArg₂ and (ih p') (ih' ps')
  | noBounds => cases b <;> rfl
  | consBound name ty bs _ _ => cases b <;> rfl

theorem size_instantiate (σ : Assignment) (a : Term k) (hkind : k ≠ .typeRef) : (a.instantiate σ).size = a.size := by
  induction a with
  | consType ty tys _ ih => exact congrArg (· + 1) (ih hkind)
  | pathParams tys vals ih => exact ih Kind.noConfusion
  | consPath p ps _ ih => exact congrArg (· + 1) (ih hkind)
  | consBound name ty bs _ ih => exact congrArg (· + 1) (ih hkind)
  | genericPath p ps => rfl
  | noTypes => rfl
  | noPaths => rfl
  | noBounds => rfl
  | _ => exact absurd rfl hkind

/-- An instance has the form of the original. -/
theorem typesOverlap_instantiate (σ : Assignment) (a : Term k) (hkind : k ≠ .typeBounds) :
    a.typesOverlap (a.instantiate σ) = true := by
  induction a with
  | generic binding => exact alike_of_eq rfl
  | primitive ct => exact overlap_primitive.mpr rfl
  | path p ih => exact alike_of_eq (ih Kind.noConfusion)
  | traitObject trait bs ms ih _ ih' =>
    have hsize := size_instantiate σ ms Kind.noConfusion
    exact overlap_traitObject.mpr (.inr ⟨⟨ih Kind.noConfusion, hsize.symm⟩, ih' Kind.noConfusion⟩)
  | array inner n ih => exact overlap_array.mpr (.inr ⟨rfl, ih Kind.noConfusion⟩)
  | slice inner ih => exact alike_of_eq (ih Kind.noConfusion)
  | tuple elems ih =>
    have hsize := size_instantiate σ elems Kind.noConfusion
    exact overlap_tuple.mpr (.inr ⟨hsize.symm, ih Kind.noConfusion⟩)
  | borrow t inner ih => exact overlap_borrow.mpr (.inr ⟨rfl, ih Kind.noConfusion⟩)
  | pointer t inner ih => exact overlap_pointer.mpr (.inr ⟨rfl, ih Kind.noConfusion⟩)
  | noTypes => rfl
  | consType ty tys ih ih' => exact overlap_consType.mpr ⟨ih Kind.noConfusion, ih' Kind.noConfusion⟩
  | pathParams tys vals ih => exact ih Kind.noConfusion
  | genericPath p ps ih => exact overlap_genericPath.mpr ⟨rfl, ih Kind.noConfusion⟩
  | noPaths => rfl
  | consPath p ps ih ih' => exact overlap_consPath.mpr ⟨ih Kind.noConfusion, ih' Kind.noConfusion⟩
  | noBounds => exact absurd rfl hkind
  | consBound name ty bs _ _ => exact absurd rfl hkind

theorem simplePath_instantiate (σ : Assignment) (a : GenericPath) : (a.instantiate σ).simplePath = a.simplePath := by
  cases a
  rfl

theorem simplePath_eq_of_overlap {a b : GenericPath} (h : a.typesOverlap b = true) : a.simplePath = b.simplePath := by
  cases a with
  | genericPath p ps =>
    cases b with
    | genericPath q qs => exact (overlap_genericPath.mp h).1

theorem size_eq_of_hasArity {a b : PathParams} {n : ℕ × ℕ} (ha : a.HasArity n) (hb : b.HasArity n) :
    a.size = b.size := by
  cases a with
  | pathParams tys vals =>
    cases b with
    | pathParams tys' vals' => exact congrArg Prod.fst (Eq.trans (Eq.trans rfl ha) hb.symm)

/-- The ordering with an instance is not mixed, in either direction. -/
theorem ordSpecific_instantiate (σ : Assignment) (a : Term k) (hkind : k ≠ .typeBounds) {bad : Ordering}
    (hbad : .eq ≠ bad) (rv : Ordering) (hrv : rv ≠ bad) :
    (.lt ≠ bad → Orders (· ≠ bad) False (a.ordSpecific (a.instantiate σ) rv)) ∧
      (.gt ≠ bad → Orders (· ≠ bad) False ((a.instantiate σ).ordSpecific a rv)) := by
  induction a generalizing rv with
  | generic binding =>
    constructor
    · intro hlt
      rw [instantiate]
      cases σ.types binding <;> exact .inl ⟨_, by assumption, rfl⟩
    · intro hgt
      rw [instantiate]
      cases σ.types binding <;> exact .inl ⟨_, by assumption, rfl⟩
  | primitive ct => exact ⟨fun _ => .inl ⟨.eq, hbad, if_pos ⟨rfl, rfl⟩⟩, fun _ => .inl ⟨.eq, hbad, if_pos ⟨rfl, rfl⟩⟩⟩
  | path p ih =>
    have ih := ih Kind.noConfusion .eq hbad
    have hpath := simplePath_instantiate σ p
    exact ⟨fun hlt => .equal_or hbad fun _ => (ih.1 hlt).bug_or (not_not.mpr hpath.symm),
      fun hgt => .equal_or hbad fun _ => (ih.2 hgt).bug_or (not_not.mpr hpath)⟩
  | traitObject trait bs ms ih _ ih' =>
    have ih := ih Kind.noConfusion .eq hbad
    have ih' := ih' Kind.noConfusion .eq hbad
    have hpath := simplePath_instantiate σ trait
    have hsize := size_instantiate σ ms Kind.noConfusion
    constructor
    · intro hlt
      apply Orders.equal_or hbad
      exact fun _ => (((ih.1 hlt).first (ih'.1 hlt)).bug_or (not_not.mpr hsize.symm)).bug_or (not_not.mpr hpath.symm)
    · intro hgt
      apply Orders.equal_or hbad
      exact fun _ => (((ih.2 hgt).first (ih'.2 hgt)).bug_or (not_not.mpr hsize)).bug_or (not_not.mpr hpath)
  | array inner n ih =>
    have ih := ih Kind.noConfusion .eq hbad
    exact ⟨fun hlt => .equal_or hbad fun _ => (ih.1 hlt).bug_or (not_not.mpr rfl),
      fun hgt => .equal_or hbad fun _ => (ih.2 hgt).bug_or (not_not.mpr rfl)⟩
  | slice inner ih =>
    have ih := ih Kind.noConfusion .eq hbad
    exact ⟨fun hlt => .equal_or hbad fun _ => ih.1 hlt, fun hgt => .equal_or hbad fun _ => ih.2 hgt⟩
  | tuple elems ih =>
    have ih := ih Kind.noConfusion .eq hbad
    have hsize := size_instantiate σ elems Kind.noConfusion
    exact ⟨fun hlt => .equal_or hbad fun _ => (ih.1 hlt).bug_or (not_not.mpr hsize.symm),
      fun hgt => .equal_or hbad fun _ => (ih.2 hgt).bug_or (not_not.mpr hsize)⟩
  | borrow t inner ih =>
    have ih := ih Kind.noConfusion .eq hbad
    exact ⟨fun hlt => .equal_or hbad fun _ => (ih.1 hlt).bug_or (not_not.mpr rfl),
      fun hgt => .equal_or hbad fun _ => (ih.2 hgt).bug_or (not_not.mpr rfl)⟩
  | pointer t inner ih =>
    have ih := ih Kind.noConfusion .eq hbad
    exact ⟨fun hlt => .equal_or hbad fun _ => (ih.1 hlt).bug_or (not_not.mpr rfl),
      fun hgt => .equal_or hbad fun _ => (ih.2 hgt).bug_or (not_not.mpr rfl)⟩
  | noTypes => exact ⟨fun _ => orders_ok hrv, fun _ => orders_ok hrv⟩
  | consType ty tys ih ih' =>
    have ih := ih Kind.noConfusion .eq hbad
    have ih' := ih' Kind.noConfusion
    constructor
    · intro hlt
      exact (ih.1 hlt).bind fun a ha => (orders_join_of_ne hrv ha hbad).bind fun rv hrv => (ih' rv hrv).1 hlt
    · intro hgt
      exact (ih.2 hgt).bind fun a ha => (orders_join_of_ne hrv ha hbad).bind fun rv hrv => (ih' rv hrv).2 hgt
  | pathParams tys vals ih =>
    have ih := ih Kind.noConfusion .eq hbad
    have hsize := size_instantiate σ tys Kind.noConfusion
    exact ⟨fun hlt => (ih.1 hlt).bug_or (not_not.mpr hsize.symm), fun hgt => (ih.2 hgt).bug_or (not_not.mpr hsize)⟩
  | genericPath p ps ih => exact ih Kind.noConfusion .eq hbad
  | noPaths => exact ⟨fun _ => orders_ok hbad, fun _ => orders_ok hbad⟩
  | consPath p ps ih ih' =>
    have ih := ih Kind.noConfusion .eq hbad
    have ih' := ih' Kind.noConfusion .eq hbad
    have hpath := simplePath_instantiate σ p
    exact ⟨fun hlt => ((ih.1 hlt).first (ih'.1 hlt)).bug_or (not_not.mpr hpath.symm),
      fun hgt => ((ih.2 hgt).first (ih'.2 hgt)).bug_or (not_not.mpr hpath)⟩
  | noBounds => exact absurd rfl hkind
  | consBound name ty bs _ _ => exact absurd rfl hkind

/-- Parts of one form are ordered, or mixed. -/
theorem ordSpecific_of_overlap {arity : SimplePath → ℕ × ℕ} {types values types' values' : ℕ} (a b : Term k)
    (ha : a.WellFormed arity types values) (hb : b.WellFormed arity types' values') (hsize : a.size = b.size)
    (h : a.typesOverlap b = true) (hkind : k ≠ .typeBounds) (rv : Ordering) :
    Orders (fun _ => True) True (a.ordSpecific b rv) := by
  induction a generalizing rv with
  | generic binding => cases b <;> exact orders_ok trivial
  | primitive ct =>
    cases b with
    | generic binding => exact orders_ok trivial
    | primitive ct' =>
      apply Orders.equal_or trivial
      intro hne
      exact absurd ⟨rfl, congrArg primitive (overlap_primitive.mp h)⟩ hne
    | _ => exact absurd h (unlike (by rintro ⟨⟩))
  | path p ih =>
    cases b with
    | generic binding => exact orders_ok trivial
    | path p' =>
      have hparts := overlap_path.mp h
      apply Orders.equal_or trivial
      intro hne
      have hparts := hparts.resolve_left fun heq => hne ⟨rfl, congrArg path heq⟩
      have hpath : p.simplePath = p'.simplePath := simplePath_eq_of_overlap hparts
      exact (ih p' ha hb (by simp) hparts Kind.noConfusion .eq).bug_or (not_not.mpr hpath)
    | _ => exact absurd h (unlike (by rintro ⟨⟩))
  | traitObject trait bs ms ih _ ih' =>
    cases b with
    | generic binding => exact orders_ok trivial
    | traitObject trait' bs' ms' =>
      have hparts := overlap_traitObject.mp h
      apply Orders.equal_or trivial
      intro hne
      rcases hparts.resolve_left fun ⟨h₁, h₂, h₃⟩ => hne ⟨rfl, by rw [h₁, h₂, h₃]⟩ with ⟨⟨hpath, hsize⟩, hmarkers⟩
      have htrait := ih trait' ha.1 hb.1 (by simp) hpath Kind.noConfusion .eq
      have hmarkers := ih' ms' ha.2.2 hb.2.2 hsize hmarkers Kind.noConfusion .eq
      exact ((htrait.first hmarkers).bug_or (not_not.mpr hsize)).bug_or (not_not.mpr (simplePath_eq_of_overlap hpath))
    | _ => exact absurd h (unlike (by rintro ⟨⟩))
  | array inner n ih =>
    cases b with
    | generic binding => exact orders_ok trivial
    | array inner' n' =>
      have hparts := overlap_array.mp h
      apply Orders.equal_or trivial
      intro hne
      rcases hparts.resolve_left fun ⟨h₁, h₂⟩ => hne ⟨rfl, by rw [h₁, h₂]⟩ with ⟨hn, hinner⟩
      exact (ih inner' ha.1 hb.1 (by simp) hinner Kind.noConfusion .eq).bug_or (not_not.mpr hn)
    | _ => exact absurd h (unlike (by rintro ⟨⟩))
  | slice inner ih =>
    cases b with
    | generic binding => exact orders_ok trivial
    | slice inner' =>
      have hparts := overlap_slice.mp h
      apply Orders.equal_or trivial
      intro hne
      have hinner := hparts.resolve_left fun heq => hne ⟨rfl, congrArg slice heq⟩
      exact ih inner' ha hb (by simp) hinner Kind.noConfusion .eq
    | _ => exact absurd h (unlike (by rintro ⟨⟩))
  | tuple elems ih =>
    cases b with
    | generic binding => exact orders_ok trivial
    | tuple elems' =>
      have hparts := overlap_tuple.mp h
      apply Orders.equal_or trivial
      intro hne
      rcases hparts.resolve_left fun heq => hne ⟨rfl, congrArg tuple heq⟩ with ⟨hsize, helems⟩
      exact (ih elems' ha hb hsize helems Kind.noConfusion .eq).bug_or (not_not.mpr hsize)
    | _ => exact absurd h (unlike (by rintro ⟨⟩))
  | borrow t inner ih =>
    cases b with
    | generic binding => exact orders_ok trivial
    | borrow t' inner' =>
      have hparts := overlap_borrow.mp h
      apply Orders.equal_or trivial
      intro hne
      rcases hparts.resolve_left fun ⟨h₁, h₂⟩ => hne ⟨rfl, by rw [h₁, h₂]⟩ with ⟨ht, hinner⟩
      exact (ih inner' ha hb (by simp) hinner Kind.noConfusion .eq).bug_or (not_not.mpr ht)
    | _ => exact absurd h (unlike (by rintro ⟨⟩))
  | pointer t inner ih =>
    cases b with
    | generic binding => exact orders_ok trivial
    | pointer t' inner' =>
      have hparts := overlap_pointer.mp h
      apply Orders.equal_or trivial
      intro hne
      rcases hparts.resolve_left fun ⟨h₁, h₂⟩ => hne ⟨rfl, by rw [h₁, h₂]⟩ with ⟨ht, hinner⟩
      exact (ih inner' ha hb (by simp) hinner Kind.noConfusion .eq).bug_or (not_not.mpr ht)
    | _ => exact absurd h (unlike (by rintro ⟨⟩))
  | noTypes =>
    cases b with
    | noTypes => exact orders_ok trivial
    | consType ty tys => simp [size] at hsize
  | consType ty tys ih ih' =>
    cases b with
    | noTypes => simp [size] at hsize
    | consType ty' tys' =>
      have hparts := overlap_consType.mp h
      have hsize : tys.size = tys'.size := Nat.succ.inj hsize
      apply (ih ty' ha.1 hb.1 (by simp) hparts.1 Kind.noConfusion .eq).bind
      intro o _
      apply (orders_join rv o).bind
      exact fun rv _ => ih' tys' ha.2 hb.2 hsize hparts.2 Kind.noConfusion rv
  | pathParams tys vals ih =>
    cases b with
    | pathParams tys' vals' =>
      have hparts : tys.typesOverlap tys' = true := h
      exact (ih tys' ha.1 hb.1 hsize hparts Kind.noConfusion .eq).bug_or (not_not.mpr hsize)
  | genericPath p ps ih =>
    cases b with
    | genericPath q qs =>
      have hparts := overlap_genericPath.mp h
      have hsize : ps.size = qs.size := size_eq_of_hasArity (hparts.1 ▸ ha.1) hb.1
      exact ih qs ha.2 hb.2 hsize hparts.2 Kind.noConfusion .eq
  | noPaths =>
    cases b with
    | noPaths => exact orders_ok trivial
    | consPath p ps => simp [size] at hsize
  | consPath p ps ih ih' =>
    cases b with
    | noPaths => simp [size] at hsize
    | consPath p' ps' =>
      have hparts := overlap_consPath.mp h
      have hpath := ih p' ha.1 hb.1 (by simp) hparts.1 Kind.noConfusion .eq
      have hrest := ih' ps' ha.2 hb.2 (Nat.succ.inj hsize) hparts.2 Kind.noConfusion .eq
      exact (hpath.first hrest).bug_or (not_not.mpr (simplePath_eq_of_overlap hparts.1))
  | noBounds => exact absurd rfl hkind
  | consBound name ty bs _ _ => exact absurd rfl hkind

/-- No const generic is the length of an array in a bound of a trait object. -/
def BoundsFixed : {k : Kind} → Term k → Prop
  | _, .path p => p.BoundsFixed
  | _, .traitObject trait bs ms => trait.BoundsFixed ∧ ms.BoundsFixed ∧ ∀ binding, (binding, true) ∉ bs.slots
  | _, .array inner _ => inner.BoundsFixed
  | _, .slice inner => inner.BoundsFixed
  | _, .tuple elems => elems.BoundsFixed
  | _, .borrow _ inner => inner.BoundsFixed
  | _, .pointer _ inner => inner.BoundsFixed
  | _, .consType ty tys => ty.BoundsFixed ∧ tys.BoundsFixed
  | _, .pathParams tys _ => tys.BoundsFixed
  | _, .genericPath _ ps => ps.BoundsFixed
  | _, .consPath p ps => p.BoundsFixed ∧ ps.BoundsFixed
  | _, _ => True

theorem sameLength_self {a : Term k} {rs : List Request} (h : a.requests a = some rs) : ∀ q ∈ rs, q.SameLength := by
  rcases (instantiate_eq_iff a a).mp (instantiate_self a) with ⟨r, hr, -, hsame⟩
  rw [h] at hr
  cases hr
  exact hsame

theorem sameLength_of_slots {a b : Term k} {rs : List Request} (h : a.requests b = some rs)
    (hslots : ∀ binding, (binding, true) ∉ a.slots) : ∀ q ∈ rs, q.SameLength := by
  intro q hq
  cases q with
  | type binding ty => trivial
  | value binding val => trivial
  | length binding val =>
    refine absurd ?_ (hslots binding)
    rw [← slots_of_requests a b h]
    exact List.mem_filterMap.mpr ⟨_, hq, rfl⟩

theorem sameLength_andThen {as bs : Option (List Request)} {rs : List Request} (h : andThen as bs = some rs)
    (has : ∀ r, as = some r → ∀ q ∈ r, q.SameLength) (hbs : ∀ r, bs = some r → ∀ q ∈ r, q.SameLength) :
    ∀ q ∈ rs, q.SameLength := by
  rcases andThen_eq_some.mp h with ⟨r, r', hr, hr', rfl⟩
  intro q hq
  rcases List.mem_append.mp hq with hq | hq
  · exact has r hr q hq
  · exact hbs r' hr' q hq

theorem sameLength_values {vals vals' : List ConstGeneric} {rs : List Request}
    (h : valueRequests vals vals' = some rs) : ∀ q ∈ rs, q.SameLength := by
  induction vals generalizing vals' rs with
  | nil =>
    cases vals' with
    | nil => cases h; simp
    | cons val' vals' => cases h
  | cons val vals ih =>
    cases vals' with
    | nil => cases val <;> cases h
    | cons val' vals' =>
      cases val with
      | generic binding => exact sameLength_andThen h (by simp) fun r hr => ih hr
      | evaluated value =>
        rw [valueRequests] at h
        split at h
        · exact ih h
        · cases h

/-- Parts of one form have the same lengths. -/
theorem sameLength_of_overlap (a b : Term k) (hfixed : a.BoundsFixed) (h : a.typesOverlap b = true)
    (hkind : k ≠ .typeBounds) {rs : List Request} (hrs : a.requests b = some rs) : ∀ q ∈ rs, q.SameLength := by
  induction a generalizing rs with
  | generic binding => cases hrs; simp
  | primitive ct =>
    cases b with
    | primitive ct' =>
      rcases Option.ite_none_right_eq_some.mp hrs with ⟨-, hrs⟩
      cases hrs
      simp
    | _ => cases hrs
  | path p ih =>
    cases b with
    | path p' =>
      rcases overlap_path.mp h with rfl | hparts
      · exact sameLength_self (a := p) hrs
      · exact ih p' hfixed hparts Kind.noConfusion hrs
    | _ => cases hrs
  | traitObject trait bs ms ih _ ih' =>
    cases b with
    | traitObject trait' bs' ms' =>
      have hparts := overlap_traitObject.mp h
      rcases hparts with ⟨rfl, rfl, rfl⟩ | ⟨⟨htrait, -⟩, hmarkers⟩
      · exact sameLength_self hrs
      · apply sameLength_andThen hrs fun r hr => ih trait' hfixed.1 htrait Kind.noConfusion hr
        intro r hr
        exact sameLength_andThen hr (fun r hr => ih' ms' hfixed.2.1 hmarkers Kind.noConfusion hr) fun r hr =>
          sameLength_of_slots hr hfixed.2.2
    | _ => cases hrs
  | array inner n ih =>
    cases b with
    | array inner' n' =>
      have hparts := overlap_array.mp h
      rcases hparts with ⟨rfl, rfl⟩ | ⟨rfl, hinner⟩
      · exact sameLength_self hrs
      · apply sameLength_andThen hrs _ fun r hr => ih inner' hfixed hinner Kind.noConfusion hr
        intro r hr
        rcases sizeRequests_same.mp (rfl : n = n) with ⟨r', hr', hsame⟩
        rw [hr] at hr'
        cases hr'
        exact hsame
    | _ => cases hrs
  | slice inner ih =>
    cases b with
    | slice inner' =>
      rcases overlap_slice.mp h with rfl | hparts
      · exact sameLength_self (a := inner) hrs
      · exact ih inner' hfixed hparts Kind.noConfusion hrs
    | _ => cases hrs
  | tuple elems ih =>
    cases b with
    | tuple elems' =>
      have hparts := overlap_tuple.mp h
      rcases hparts with rfl | ⟨-, hparts⟩
      · exact sameLength_self (a := elems) hrs
      · exact ih elems' hfixed hparts Kind.noConfusion hrs
    | _ => cases hrs
  | borrow t inner ih =>
    cases b with
    | borrow t' inner' =>
      have hparts := overlap_borrow.mp h
      rcases hparts with ⟨rfl, rfl⟩ | ⟨rfl, hinner⟩
      · exact sameLength_self hrs
      · exact ih inner' hfixed hinner Kind.noConfusion (Option.ite_none_right_eq_some.mp hrs).2
    | _ => cases hrs
  | pointer t inner ih =>
    cases b with
    | pointer t' inner' =>
      have hparts := overlap_pointer.mp h
      rcases hparts with ⟨rfl, rfl⟩ | ⟨rfl, hinner⟩
      · exact sameLength_self hrs
      · exact ih inner' hfixed hinner Kind.noConfusion (Option.ite_none_right_eq_some.mp hrs).2
    | _ => cases hrs
  | noTypes =>
    cases b with
    | noTypes => cases hrs; simp
    | consType ty tys => cases hrs
  | consType ty tys ih ih' =>
    cases b with
    | noTypes => cases hrs
    | consType ty' tys' =>
      have hparts := overlap_consType.mp h
      exact sameLength_andThen hrs (fun r hr => ih ty' hfixed.1 hparts.1 Kind.noConfusion hr) fun r hr =>
        ih' tys' hfixed.2 hparts.2 Kind.noConfusion hr
  | pathParams tys vals ih =>
    cases b with
    | pathParams tys' vals' =>
      have hparts : tys.typesOverlap tys' = true := h
      exact sameLength_andThen hrs (fun r hr => ih tys' hfixed hparts Kind.noConfusion hr) fun r hr =>
        sameLength_values hr
  | genericPath p ps ih =>
    cases b with
    | genericPath q qs =>
      have hparts := overlap_genericPath.mp h
      exact ih qs hfixed hparts.2 Kind.noConfusion (Option.ite_none_right_eq_some.mp hrs).2
  | noPaths =>
    cases b with
    | noPaths => cases hrs; simp
    | consPath p ps => cases hrs
  | consPath p ps ih ih' =>
    cases b with
    | noPaths => cases hrs
    | consPath p' ps' =>
      have hparts := overlap_consPath.mp h
      exact sameLength_andThen hrs (fun r hr => ih p' hfixed.1 hparts.1 Kind.noConfusion hr) fun r hr =>
        ih' ps' hfixed.2 hparts.2 Kind.noConfusion hr
  | noBounds => exact absurd rfl hkind
  | consBound name ty bs _ _ => exact absurd rfl hkind

end Term

end Mrustc.Impls
