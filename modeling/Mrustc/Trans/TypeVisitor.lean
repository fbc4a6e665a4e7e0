import Mrustc.Hir.Path
import Mathlib.Order.Basic
import Mathlib.Order.Defs.LinearOrder

/-! # The walk over the types of a program

`TypeVisitor` lists the types that are used, those that a definition needs before it. An entry is full, or shallow
where only a pointer to the type was seen. Items give the fields of a named type, already monomorphised, and the
vtable type of a trait object. Where the visitor calls itself, the visits of an arm are a list.
-/

namespace Mrustc.Enumerate
open Hir (CoreType)

/-- Types over the paths of items and the traits of objects, as far as the visitor looks into them. -/
inductive TypeRef (P D : Type)
  | infer
  | generic
  | erasedType
  | closure
  | generator
  | diverge
  | primitive (ct : CoreType)
  | path (p : P)
  | traitObject (d : D)
  | array (inner : TypeRef P D) (size : Option ℕ)
  | slice (inner : TypeRef P D)
  | borrow (inner : TypeRef P D)
  | pointer (inner : TypeRef P D)
  | tuple (elems : List (TypeRef P D))
  | namedFunction (p : P)
  | function (rettype : TypeRef P D) (argTypes : List (TypeRef P D))

/-- The binding of a path. Only enums with data have variants to visit. -/
inductive Binding (P D : Type)
  | unbound
  | opaqueType
  | externType
  | struct (fields : List (TypeRef P D))
  | union (variants : List (TypeRef P D))
  | enum (variants : List (TypeRef P D))

/-- The items of the crates. -/
structure Items (P D : Type) where
  binding : P → Binding P D
  /-- `get_vtable_type`, none for an object without a data trait -/
  vtable : D → Option (TypeRef P D)

inductive Mode
  | shallow
  | normal
  | deep
  deriving DecidableEq

/-- The `BUG`s of the visitor. -/
inductive Bug
  | inferHit
  | genericHit
  | closureHit
  | generatorHit
  | unboundHit
  | opaqueHit
  | unknownArraySize
  | typeRecursion
  deriving DecidableEq

variable {P D : Type}

/-- The mode for what a type points to. -/
def Mode.pointee : Mode → Mode
  | deep => deep
  | _ => shallow

/-- The visits of the arms of a shallow visit. -/
def shallowArm (items : Items P D) : TypeRef P D → Except Bug (List (TypeRef P D × Mode))
  | .infer => .error .inferHit
  | .path p =>
    match items.binding p with
    | .unbound => .error .unboundHit
    | .opaqueType => .error .opaqueHit
    | _ => .ok []
  | .array _ none => .error .unknownArraySize
  | .function rettype argTypes => .ok ((rettype, .shallow) :: argTypes.map fun ty => (ty, .shallow))
  | .pointer inner => .ok [(inner, .shallow)]
  | .borrow inner => .ok [(inner, .shallow)]
  | _ => .ok []

/-- The visits of the arms of the other modes. Fields are visited in the normal mode. -/
def arm (items : Items P D) (mode : Mode) : TypeRef P D → Except Bug (List (TypeRef P D × Mode))
  | .infer => .error .inferHit
  | .generic => .error .genericHit
  | .erasedType => .ok []
  | .closure => .error .closureHit
  | .generator => .error .generatorHit
  | .diverge => .ok []
  | .primitive _ => .ok []
  | .path p =>
    match items.binding p with
    | .unbound => .error .unboundHit
    | .opaqueType => .error .opaqueHit
    | .externType => .ok []
    | .struct fields => .ok (fields.map fun ty => (ty, .normal))
    | .union variants => .ok (variants.map fun ty => (ty, .normal))
    | .enum variants => .ok (variants.map fun ty => (ty, .normal))
  | .traitObject d =>
    match items.vtable d with
    | some vtableTy => .ok [(vtableTy, .normal)]
    | none => .ok []
  | .array _ none => .error .unknownArraySize
  | .array inner (some _) => .ok [(inner, mode)]
  | .slice inner => .ok [(inner, mode)]
  | .borrow inner => .ok [(inner, mode.pointee)]
  | .pointer inner => .ok [(inner, mode.pointee)]
  | .tuple elems => .ok (elems.map fun ty => (ty, mode))
  | .namedFunction _ => .ok []
  | .function rettype argTypes => .ok ((rettype, mode.pointee) :: argTypes.map fun ty => (ty, mode.pointee))

/-- `out_list`, `visited_map` and `active_set`. The flag of an entry is set for a shallow one. -/
structure State (P D : Type) where
  out : List (TypeRef P D × Bool)
  visited : List ℕ
  active : List (TypeRef P D)

/-- A visit that fails, or one that takes more fuel. -/
inductive Fault
  | bug (b : Bug)
  | fuel
  deriving DecidableEq

variable [LinearOrder (TypeRef P D)]

namespace State

def empty : State P D := ⟨[], [], []⟩

variable (st : State P D) (ty : TypeRef P D)

/-- The comparison of `lower_bound`. -/
def before (i : ℕ) : Bool :=
  match st.out[i]? with
  | some entry => entry.1 < ty
  | none => false

/-- The first position in the index that is not before a type. -/
def lowerBound : ℕ := (st.visited.takeWhile (st.before ty)).length

/-- The index of a type in the list, with its entry. -/
def find : Option (ℕ × (TypeRef P D × Bool)) := do
  let i ← st.visited[st.lowerBound ty]?
  let entry ← st.out[i]?
  if entry.1 = ty then some (i, entry) else none

/-- Whether a visit returns at once. -/
def done (mode : Mode) : Bool :=
  match st.find ty with
  | some (_, entry) => entry.2 = false ∨ mode = .shallow
  | none => false

/-- The index for the entry to be pushed. -/
def reindex (shallow : Bool) : List ℕ :=
  match st.find ty with
  | none => st.visited.insertIdx (st.lowerBound ty) st.out.length
  | some (_, entry) =>
    if ¬ shallow ∧ entry.2 then st.visited.set (st.lowerBound ty) st.out.length else st.visited

def push (shallow : Bool) : State P D :=
  {st with out := st.out ++ [(ty, shallow)], visited := st.reindex ty shallow}

end State

/-- `visit_type` -/
def visitType (items : Items P D) : ℕ → TypeRef P D → Mode → State P D → Except Fault (State P D)
  | 0, _, _, _ => .error .fuel
  | n + 1, ty, mode, st =>
    if st.done ty mode then .ok st
    else if mode = .shallow then
      match shallowArm items ty with
      | .error b => .error (.bug b)
      | .ok parts =>
        match parts.foldlM (fun st part => visitType items n part.1 part.2 st) st with
        | .error e => .error e
        | .ok st => .ok (st.push ty true)
    else if ty ∈ st.active then .error (.bug .typeRecursion)
    else
      match arm items mode ty with
      | .error b => .error (.bug b)
      | .ok parts =>
        match parts.foldlM (fun st part => visitType items n part.1 part.2 st)
            {st with active := ty :: st.active} with
        | .error e => .error e
        | .ok st => .ok ({st with active := st.active.erase ty}.push ty false)

/-- A sequence of visits. -/
def visitAll (items : Items P D) (fuel : ℕ) (calls : List (TypeRef P D × Mode)) (st : State P D) :
    Except Fault (State P D) :=
  calls.foldlM (fun st call => visitType items fuel call.1 call.2 st) st

end Mrustc.Enumerate
