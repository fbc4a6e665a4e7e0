import Mrustc.Hir.Path

/-! # The types in the headers of impls

Type generics, primitives, named types, tuples, slices, borrows, pointers, arrays and trait objects, with the const
generics in array lengths and path arguments, numbered as in the impl. The classes of the source are the kinds of one
family, so that a function over them is one recursion. Lifetimes, which no comparison looks at, and the source traits
of the bounds of a trait object are left out, and a literal is its number.
-/

namespace Mrustc.Impls
open Hir (SimplePath RcString CoreType BorrowType)

inductive ConstGeneric
  | generic (binding : ℕ)
  | evaluated (value : ℕ)
  deriving DecidableEq

inductive ArraySize
  | generic (binding : ℕ)
  | known (size : ℕ)
  deriving DecidableEq

/-- A class of the source, or a list of its values. -/
inductive Kind
  | typeRef
  | types
  | pathParams
  | genericPath
  | genericPaths
  | typeBounds
  deriving DecidableEq

inductive Term : Kind → Type
  | generic (binding : ℕ) : Term .typeRef
  | primitive (ct : CoreType) : Term .typeRef
  | path (path : Term .genericPath) : Term .typeRef
  | traitObject (trait : Term .genericPath) (typeBounds : Term .typeBounds) (markers : Term .genericPaths) :
    Term .typeRef
  | array (inner : Term .typeRef) (size : ArraySize) : Term .typeRef
  | slice (inner : Term .typeRef) : Term .typeRef
  | tuple (elems : Term .types) : Term .typeRef
  | borrow (type : BorrowType) (inner : Term .typeRef) : Term .typeRef
  | pointer (type : BorrowType) (inner : Term .typeRef) : Term .typeRef
  | noTypes : Term .types
  | consType (ty : Term .typeRef) (tys : Term .types) : Term .types
  | pathParams (types : Term .types) (values : List ConstGeneric) : Term .pathParams
  | genericPath (path : SimplePath) (params : Term .pathParams) : Term .genericPath
  | noPaths : Term .genericPaths
  | consPath (path : Term .genericPath) (paths : Term .genericPaths) : Term .genericPaths
  | noBounds : Term .typeBounds
  | consBound (name : RcString) (type : Term .typeRef) (bounds : Term .typeBounds) : Term .typeBounds
  deriving DecidableEq

abbrev TypeRef := Term .typeRef
abbrev PathParams := Term .pathParams
abbrev GenericPath := Term .genericPath

namespace Term

variable {k : Kind}

/-- The length of a list, that of the types for `PathParams`. -/
def size : {k : Kind} → Term k → ℕ
  | _, .consType _ tys => tys.size + 1
  | _, .pathParams tys _ => tys.size
  | _, .consPath _ ps => ps.size + 1
  | _, .consBound _ _ bs => bs.size + 1
  | _, _ => 0

@[simp] theorem size_typeRef (ty : TypeRef) : ty.size = 0 := by
  cases ty <;> rfl

@[simp] theorem size_genericPath (p : GenericPath) : p.size = 0 := by
  cases p
  rfl

/-- The path of a generic path. -/
def simplePath : GenericPath → SimplePath
  | .genericPath p _ => p

def params : GenericPath → PathParams
  | .genericPath _ ps => ps

/-- The numbers of type and of value arguments. -/
def HasArity : PathParams → ℕ × ℕ → Prop
  | .pathParams tys vals, n => (tys.size, vals.length) = n

/-- All generics are those of an impl with this many, and each path has the numbers of arguments of its item. -/
def WellFormed (arity : SimplePath → ℕ × ℕ) (types values : ℕ) : {k : Kind} → Term k → Prop
  | _, .generic binding => binding < types
  | _, .primitive _ => True
  | _, .path p => p.WellFormed arity types values
  | _, .traitObject trait bs ms =>
    trait.WellFormed arity types values ∧ bs.WellFormed arity types values ∧ ms.WellFormed arity types values
  | _, .array inner size => inner.WellFormed arity types values ∧ ∀ binding, size = .generic binding → binding < values
  | _, .slice inner => inner.WellFormed arity types values
  | _, .tuple elems => elems.WellFormed arity types values
  | _, .borrow _ inner => inner.WellFormed arity types values
  | _, .pointer _ inner => inner.WellFormed arity types values
  | _, .noTypes => True
  | _, .consType ty tys => ty.WellFormed arity types values ∧ tys.WellFormed arity types values
  | _, .pathParams tys vals =>
    tys.WellFormed arity types values ∧ ∀ binding, ConstGeneric.generic binding ∈ vals → binding < values
  | _, .genericPath p ps => ps.HasArity (arity p) ∧ ps.WellFormed arity types values
  | _, .noPaths => True
  | _, .consPath p ps => p.WellFormed arity types values ∧ ps.WellFormed arity types values
  | _, .noBounds => True
  | _, .consBound _ ty bs => ty.WellFormed arity types values ∧ bs.WellFormed arity types values

end Term

end Mrustc.Impls
