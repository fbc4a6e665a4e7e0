import Mathlib.Tactic

/-! # Types and item paths of the HIR

Lifetimes, source spans, type bindings and cached pointers are left out: no function
modelled here looks at them. A trait object has no bounds on its associated types,
since the lowering from the AST rejects them.
-/

namespace Mrustc.Hir

/-- A reference-counted string, compared by content. -/
abbrev RcString := List Char

inductive CoreType
  | usize | isize | u8 | i8 | u16 | i16 | u32 | i32 | u64 | i64 | u128 | i128
  | f32 | f64 | bool | char | str
  deriving DecidableEq, Repr

inductive BorrowType
  | shared | unique | owned
  deriving DecidableEq, Repr

/-- An absolute path without generic parameters. -/
structure SimplePath where
  crateName : RcString
  components : List RcString
  deriving DecidableEq, Repr

mutual

inductive TypeRef
  | infer (index : ℕ)
  | diverge
  | primitive (ct : CoreType)
  | path (path : Path)
  | generic (binding : ℕ)
  | traitObject (trait : GenericPath) (typeBounds : List AtyEqual) (markers : List GenericPath)
  | erasedType
  | array (inner : TypeRef) (size : ArraySize)
  | slice (inner : TypeRef)
  | tuple (elems : List TypeRef)
  | borrow (type : BorrowType) (inner : TypeRef)
  | pointer (type : BorrowType) (inner : TypeRef)
  | namedFunction (path : Path)
  | function (isUnsafe isVariadic : Bool) (abi : RcString) (args : List TypeRef) (ret : TypeRef)
  | closure
  | generator

/-- The bound `name = type` on an associated type of `sourceTrait`. -/
inductive AtyEqual
  | mk (name : RcString) (sourceTrait : GenericPath) (type : TypeRef)

inductive ArraySize
  | unevaluated (value : ConstGeneric)
  | known (size : UInt64)

inductive ConstGeneric
  | infer (index : ℕ)
  | unevaluated
  | generic (binding : ℕ)
  | evaluated (bytes : List UInt8) (relocations : List Reloc)

inductive Reloc
  | mk (ofs len : ℕ) (p : Option Path) (bytes : List UInt8)

inductive PathParams
  | mk (types : List TypeRef) (values : List ConstGeneric)

inductive GenericPath
  | mk (path : SimplePath) (params : PathParams)

inductive Path
  | generic (path : GenericPath)
  | ufcsInherent (type : TypeRef) (item : RcString) (params : PathParams)
  | ufcsKnown (type : TypeRef) (trait : GenericPath) (item : RcString) (params : PathParams)
  | ufcsUnknown (type : TypeRef) (item : RcString) (params : PathParams)

end

mutual

/-- The type as `TypeRef::operator==` compares it, with the names and source traits of the
associated types of trait objects dropped as well. Variadic functions are not told apart. -/
def TypeRef.key : TypeRef → TypeRef
  | .path p => .path p.key
  | .traitObject t bs ms => .traitObject t.key (atyKeys bs) (genericPathKeys ms)
  | .array inner size => .array inner.key size
  | .slice inner => .slice inner.key
  | .tuple ts => .tuple (typeKeys ts)
  | .borrow b inner => .borrow b inner.key
  | .pointer b inner => .pointer b inner.key
  | .namedFunction p => .namedFunction p.key
  | .function u _ abi args ret => .function u false abi (typeKeys args) ret.key
  | .infer i => .infer i
  | .diverge => .diverge
  | .primitive ct => .primitive ct
  | .generic b => .generic b
  | .erasedType => .erasedType
  | .closure => .closure
  | .generator => .generator

def typeKeys : List TypeRef → List TypeRef
  | [] => []
  | t :: ts => t.key :: typeKeys ts

def AtyEqual.key : AtyEqual → AtyEqual
  | .mk _ _ t => .mk [] (.mk ⟨[], []⟩ (.mk [] [])) t.key

def atyKeys : List AtyEqual → List AtyEqual
  | [] => []
  | b :: bs => b.key :: atyKeys bs

def PathParams.key : PathParams → PathParams
  | .mk ts vs => .mk (typeKeys ts) vs

def GenericPath.key : GenericPath → GenericPath
  | .mk p pp => .mk p pp.key

def genericPathKeys : List GenericPath → List GenericPath
  | [] => []
  | g :: gs => g.key :: genericPathKeys gs

def Path.key : Path → Path
  | .generic g => .generic g.key
  | .ufcsInherent t item pp => .ufcsInherent t.key item pp.key
  | .ufcsKnown t tr item pp => .ufcsKnown t.key tr.key item pp.key
  | .ufcsUnknown t item pp => .ufcsUnknown t.key item pp.key

end

/-- Equal types, up to lifetimes and the associated-type names of trait objects. -/
def TypeRef.Same (t u : TypeRef) : Prop := t.key = u.key

/-- Equal paths, up to lifetimes and the associated-type names of trait objects. -/
def Path.Same (p q : Path) : Prop := p.key = q.key

section Every

variable (name : RcString → Prop) (markers : ℕ → Prop)

/-- Every name in the path satisfies `name`. -/
def SimplePath.Every (p : SimplePath) : Prop := name p.crateName ∧ ∀ c ∈ p.components, name c

mutual

/-- Every name in the type satisfies `name`, every number of markers of a trait object in it
satisfies `markers`. -/
def TypeRef.Every : TypeRef → Prop
  | .path p => p.Every
  | .traitObject t bs ms => t.Every ∧ AtysEvery bs ∧ markers ms.length ∧ GenericPathsEvery ms
  | .array inner _ => inner.Every
  | .slice inner => inner.Every
  | .tuple ts => TypesEvery ts
  | .borrow _ inner => inner.Every
  | .pointer _ inner => inner.Every
  | .namedFunction p => p.Every
  | .function _ _ abi args ret => name abi ∧ TypesEvery args ∧ ret.Every
  | _ => True

def TypesEvery : List TypeRef → Prop
  | [] => True
  | t :: ts => t.Every ∧ TypesEvery ts

def AtyEqual.Every : AtyEqual → Prop
  | .mk _ _ t => t.Every

def AtysEvery : List AtyEqual → Prop
  | [] => True
  | b :: bs => b.Every ∧ AtysEvery bs

def PathParams.Every : PathParams → Prop
  | .mk ts _ => TypesEvery ts

def GenericPath.Every : GenericPath → Prop
  | .mk p pp => SimplePath.Every name p ∧ pp.Every

def GenericPathsEvery : List GenericPath → Prop
  | [] => True
  | g :: gs => g.Every ∧ GenericPathsEvery gs

def Path.Every : Path → Prop
  | .generic g => g.Every
  | .ufcsInherent t item pp => t.Every ∧ name item ∧ pp.Every
  | .ufcsKnown t tr item pp => t.Every ∧ tr.Every ∧ name item ∧ pp.Every
  | .ufcsUnknown t item pp => t.Every ∧ name item ∧ pp.Every

end

end Every

end Mrustc.Hir
