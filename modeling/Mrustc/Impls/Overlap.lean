import Mrustc.Impls.HeaderTypes

/-! # The overlap of two impls

`TraitImpl::overlaps_with` for impls without bounds: a test of the forms, an ordering by specificity that gives up
where it is mixed, and a match of one header with the other, in either direction.
-/

namespace Mrustc.Impls
open Hir (SimplePath)

/-- What ends a function early: the result `Unequal`, the exception for a mixed ordering, or an abort. -/
inductive Stop
  | unequal
  | mixedOrdering
  | bug
  deriving DecidableEq

/-! ## The test of the forms -/

namespace Term

/-- `types_overlap`. Only types are compared as a whole first. -/
def typesOverlap : {k : Kind} → Term k → Term k → Bool
  | k, a, b =>
    if k = .typeRef ∧ a = b then true
    else
      match k, a, b with
      | _, .generic _, _ => true
      | _, _, .generic _ => true
      | _, .primitive a, .primitive b => a = b
      | _, .path a, .path b => typesOverlap a b
      | _, .traitObject a _ ms, .traitObject b _ ns =>
        typesOverlap a b && ms.size = ns.size && typesOverlap ms ns
      | _, .array a n, .array b m => n = m && typesOverlap a b
      | _, .slice a, .slice b => typesOverlap a b
      | _, .tuple as, .tuple bs => as.size = bs.size && typesOverlap as bs
      | _, .borrow t a, .borrow u b => t = u && typesOverlap a b
      | _, .pointer t a, .pointer u b => t = u && typesOverlap a b
      -- lists are compared up to the end of the shorter one, and values are not
      | _, .consType a as, .consType b bs => typesOverlap a b && typesOverlap as bs
      | _, .noTypes, _ => true
      | _, _, .noTypes => true
      | _, .pathParams as _, .pathParams bs _ => typesOverlap as bs
      | _, .genericPath p as, .genericPath q bs => p = q && typesOverlap as bs
      | _, .consPath a as, .consPath b bs => typesOverlap a b && typesOverlap as bs
      | _, .noPaths, _ => true
      | _, _, .noPaths => true
      | _, _, _ => false

/-! ## The ordering by specificity -/

/-- The ordering of a list so far with that of its next element. -/
def join (rv a : Ordering) : Except Stop Ordering :=
  if a = .eq then .ok rv else if rv ≠ .eq ∧ a ≠ rv then .error .mixedOrdering else .ok a

/-- `type_ord_specific`, and `typelist_ord_specific` after elements with the ordering `rv`. Type bounds and values are
not looked at. -/
def ordSpecific : {k : Kind} → Term k → Term k → Ordering → Except Stop Ordering
  | _, .generic _, .generic _, _ => .ok .eq
  | _, .generic _, _, _ => .ok .lt
  | _, _, .generic _, _ => .ok .gt
  | k, a, b, rv =>
    if k = .typeRef ∧ a = b then .ok .eq
    else
      match k, a, b with
      | _, .path a, .path b => if a.simplePath ≠ b.simplePath then .error .bug else ordSpecific a b .eq
      | _, .traitObject a _ ms, .traitObject b _ ns =>
        if a.simplePath ≠ b.simplePath then .error .bug
        else if ms.size ≠ ns.size then .error .bug
        else do
          let ord ← ordSpecific a b .eq
          if ord ≠ .eq then return ord
          ordSpecific ms ns .eq
      | _, .array a n, .array b m => if n ≠ m then .error .bug else ordSpecific a b .eq
      | _, .slice a, .slice b => ordSpecific a b .eq
      | _, .tuple as, .tuple bs => if as.size ≠ bs.size then .error .bug else ordSpecific as bs .eq
      | _, .borrow t a, .borrow u b => if t ≠ u then .error .bug else ordSpecific a b .eq
      | _, .pointer t a, .pointer u b => if t ≠ u then .error .bug else ordSpecific a b .eq
      | _, .noTypes, .noTypes => .ok rv
      | _, .consType a as, .consType b bs => do
        let rv ← join rv (← ordSpecific a b .eq)
        ordSpecific as bs rv
      | _, .pathParams as _, .pathParams bs _ => if as.size ≠ bs.size then .error .bug else ordSpecific as bs .eq
      | _, .genericPath _ as, .genericPath _ bs => ordSpecific as bs .eq
      | _, .noPaths, .noPaths => .ok .eq
      -- the markers of a trait object, up to the first that differ
      | _, .consPath a as, .consPath b bs =>
        if a.simplePath ≠ b.simplePath then .error .bug
        else do
          let ord ← ordSpecific a b .eq
          if ord ≠ .eq then return ord
          ordSpecific as bs .eq
      | _, _, _ => .error .bug

end Term

/-! ## The match of one header with another -/

/-- `ImplTyMatcher`: what the generics of an impl are matched with. -/
structure Matcher where
  types : List (Option TypeRef)
  values : List (Option ConstGeneric)

namespace Matcher

def reinit (types values : ℕ) : Matcher := ⟨List.replicate types none, List.replicate values none⟩

def matchTy (m : Matcher) (binding : ℕ) (ty : TypeRef) : Except Stop Matcher :=
  match m.types[binding]? with
  | none => .error .bug
  | some none => .ok {m with types := m.types.set binding (some ty)}
  | some (some ty') => if ty = ty' then .ok m else .error .unequal

def matchVal (m : Matcher) (binding : ℕ) (val : ConstGeneric) : Except Stop Matcher :=
  match m.values[binding]? with
  | none => .error .bug
  | some none => .ok {m with values := m.values.set binding (some val)}
  | some (some val') => if val = val' then .ok m else .error .unequal

/-- A match whose outcome is dropped. -/
def dropped (m : Matcher) : Except Stop Matcher → Except Stop Matcher
  | .ok m => .ok m
  | .error .bug => .error .bug
  | .error _ => .ok m

/-- The outcome for a generic length does not count. -/
def matchSize (m : Matcher) : ArraySize → ArraySize → Except Stop Matcher
  | .generic binding, .generic binding' => m.dropped (m.matchVal binding (.generic binding'))
  | .generic binding, .known size => m.dropped (m.matchVal binding (.evaluated size))
  | .known _, .generic _ => .error .unequal
  | .known size, .known size' => if size = size' then .ok m else .error .unequal

def matchValues (m : Matcher) : List ConstGeneric → List ConstGeneric → Except Stop Matcher
  | .generic binding :: vals, val :: vals' => do (← m.matchVal binding val).matchValues vals vals'
  | .evaluated value :: vals, val :: vals' =>
    if .evaluated value = val then m.matchValues vals vals' else .error .unequal
  | _, _ => .ok m

end Matcher

namespace Term

/-- `cmp_type`, `cmp_path` and `match_test_generics_fuzz`. What follows an unequal part cannot change the outcome. -/
def matchGenerics : {k : Kind} → Term k → Term k → Matcher → Except Stop Matcher
  | _, .generic binding, ty, m => m.matchTy binding ty
  | _, .primitive a, .primitive b, m => if a = b then .ok m else .error .unequal
  | _, .path a, .path b, m => matchGenerics a b m
  | _, .traitObject a bounds ms, .traitObject b bounds' ns, m =>
    if a.simplePath ≠ b.simplePath then .error .unequal
    else if ms.size ≠ ns.size then .error .unequal
    else do
      let m ← matchGenerics a b m
      let m ← matchGenerics ms ns m
      if bounds.size ≠ bounds'.size then .error .unequal else matchGenerics bounds bounds' m
  | _, .array a n, .array b n', m => do matchGenerics a b (← m.matchSize n n')
  | _, .slice a, .slice b, m => matchGenerics a b m
  | _, .tuple as, .tuple bs, m => if as.size ≠ bs.size then .error .unequal else matchGenerics as bs m
  | _, .borrow t a, .borrow u b, m => if t ≠ u then .error .unequal else matchGenerics a b m
  | _, .pointer t a, .pointer u b, m => if t ≠ u then .error .unequal else matchGenerics a b m
  | _, .noTypes, .noTypes, m => .ok m
  | _, .consType a as, .consType b bs, m => do matchGenerics as bs (← matchGenerics a b m)
  | _, .pathParams as vals, .pathParams bs vals', m =>
    if as.size ≠ bs.size then .error .unequal
    else do
      let m ← matchGenerics as bs m
      if vals.length ≠ vals'.length then .error .unequal else m.matchValues vals vals'
  | _, .genericPath p as, .genericPath q bs, m => if p ≠ q then .error .unequal else matchGenerics as bs m
  | _, .noPaths, .noPaths, m => .ok m
  | _, .consPath a as, .consPath b bs, m => do matchGenerics as bs (← matchGenerics a b m)
  | _, .noBounds, .noBounds, m => .ok m
  | _, .consBound name a as, .consBound name' b bs, m =>
    if name ≠ name' then .error .unequal else do matchGenerics as bs (← matchGenerics a b m)
  | _, _, _, _ => .error .unequal

end Term

/-! ## The impls -/

/-- An impl of a trait without bounds: the numbers of its type and const generics, and its header. -/
structure TraitImpl (arity : SimplePath → ℕ × ℕ) (trait : SimplePath) where
  types : ℕ
  values : ℕ
  traitArgs : PathParams
  type : TypeRef
  hasArity : traitArgs.HasArity (arity trait)
  args_wellFormed : traitArgs.WellFormed arity types values
  type_wellFormed : type.WellFormed arity types values

namespace TraitImpl

variable {arity : SimplePath → ℕ × ℕ} {trait : SimplePath} (a b : TraitImpl arity trait)

/-- The match of a header with another one. -/
def matchHeader : Except Stop Bool :=
  match a.type.matchGenerics b.type (Matcher.reinit a.types a.values) with
  | .error .bug => .error .bug
  | .error _ => .ok false
  | .ok m =>
    match a.traitArgs.matchGenerics b.traitArgs m with
    | .error .bug => .error .bug
    | .error _ => .ok false
    | .ok _ => .ok true

/-- The two orderings that may be mixed. -/
def ordHeader : Except Stop Unit := do
  let _ ← a.type.ordSpecific b.type .eq
  let _ ← a.traitArgs.ordSpecific b.traitArgs .eq

/-- `overlaps_with`. There are no bounds to be checked after a match. -/
def overlapsWith : Except Stop Bool :=
  if a.type = b.type ∧ a.traitArgs = b.traitArgs then .ok true
  else if !a.type.typesOverlap b.type then .ok false
  else if !a.traitArgs.typesOverlap b.traitArgs then .ok false
  else
    match ordHeader a b with
    | .error .mixedOrdering => .ok false
    | .error e => .error e
    | .ok _ => do
      if ← matchHeader a b then return true
      matchHeader b a

end TraitImpl

end Mrustc.Impls
