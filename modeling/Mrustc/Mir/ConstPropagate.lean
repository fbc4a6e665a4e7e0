import Mrustc.Mir.ConstFold
import Mrustc.Mir.Edits

/-! # Propagating constants within a block

The part of `MIR_Optimise_ConstPropagate` that walks over a block and keeps what it knows of the values,
variants and drop flags of locals. A failed assertion gives nothing. Pointers have 64 bits.
-/

namespace Mrustc.Mir

open Hir (CoreType)

variable {T P L : Type}

/-- The rvalue with its parameters exchanged. -/
def RValue.mapParams (f : Param P L → Param P L) : RValue T P L → RValue T P L
  | .sizedArray val count => .sizedArray (f val) count
  | .binOp l op r => .binOp (f l) op (f r)
  | .makeDst ptrVal metaVal => .makeDst (f ptrVal) (f metaVal)
  | .tuple vals => .tuple (vals.map f)
  | .array vals => .array (vals.map f)
  | .unionVariant path index val => .unionVariant path index (f val)
  | .enumVariant path index vals => .enumVariant path index (vals.map f)
  | .struct_ path vals => .struct_ path (vals.map f)
  | rv => rv

namespace ConstPropagate

/-- What the pass asks of the rest of the compiler: the primitive of a type, the value of an immutable static
of a primitive type, and the value of an enum variant by the lvalue that holds it. -/
structure Context (T P : Type) where
  ops : DoubleOps
  asPrimitive : T → Option CoreType
  staticValue : P → Option (Constant P)
  enumValue : LValue P → ℕ → Option ℕ

/-- `known_values`, `known_values_var` and `known_drop_flags` -/
structure Knowledge (P : Type) where
  values : LValue P → Option (Constant P)
  variants : LValue P → Option ℕ
  dropFlags : ℕ → Option Bool

namespace Knowledge

def empty : Knowledge P := ⟨fun _ => none, fun _ => none, fun _ => none⟩

variable [DecidableEq P]

def erase (k : Knowledge P) (lv : LValue P) : Knowledge P :=
  { k with
    values := Function.update k.values lv none
    variants := Function.update k.variants lv none }

/-- `std::map::insert`, which keeps what is there. -/
def insertValue (k : Knowledge P) (lv : LValue P) (c : Constant P) : Knowledge P :=
  { k with values := Function.update k.values lv (some ((k.values lv).getD c)) }

def insertVariant (k : Knowledge P) (lv : LValue P) (idx : ℕ) : Knowledge P :=
  { k with variants := Function.update k.variants lv (some ((k.variants lv).getD idx)) }

def setFlag (k : Knowledge P) (idx : ℕ) (val : Bool) : Knowledge P :=
  { k with dropFlags := Function.update k.dropFlags idx (some val) }

/-- The mutated lvalues of a statement are no longer known. -/
def forgetWritten (k : Knowledge P) (lvs : List (LValue P × ValUsage)) : Knowledge P :=
  lvs.foldl (fun k x => if x.2 = .write then k.erase x.1 else k) k

/-- An lvalue that is borrowed uniquely is no longer known. -/
def forgetBorrowed (k : Knowledge P) : RValue T P (LValue P) → Knowledge P
  | .borrow .unique lv => k.erase lv
  | _ => k

end Knowledge

section Edit

variable (k : Knowledge P)

/-- A known index becomes a field. -/
def editIndex : Wrapper → Wrapper
  | .index l =>
    match k.values (.newLocal l) with
    | some (.uint v .usize) => .field v
    | _ => .index l
  | w => w

/-- The assertions on a known index. -/
def indexOk : Wrapper → Bool
  | .index l =>
    match k.values (.newLocal l) with
    | none | some (.const _) | some (.generic _) => true
    | some (.uint v .usize) => v < 2 ^ 30
    | some _ => false
  | _ => true

/-- The item that a dereferenced slot is known to point to. -/
def derefSource (root : Storage P) : Option (Option P) :=
  match root with
  | .static _ => none
  | root =>
    match k.values ⟨root, []⟩ with
    | some (.itemAddr p) => some p
    | _ => none

/-- `edit_lval` -/
def editLval (lv : LValue P) : LValue P :=
  match lv.wrappers.map (editIndex k), derefSource k lv.root with
  | .deref :: ws, some (some p) => ⟨.static p, ws⟩
  | ws, _ => ⟨lv.root, ws⟩

/-- The indices pass their assertions, and a dereferenced item is not null. -/
def lvalOk (lv : LValue P) : Bool :=
  lv.wrappers.all (indexOk k) && !(lv.wrappers.head? == some .deref && derefSource k lv.root matches some none)

def editStatement (st : Statement T P (LValue P)) : Option (Statement T P (LValue P)) :=
  if st.lvalues.all fun x => lvalOk k x.1 then some (Id.run (st.visit (edit (editLval k)) ())).1 else none

def editTerminator (t : Terminator T P (LValue P)) : Option (Terminator T P (LValue P)) :=
  if t.lvalues.all fun x => lvalOk k x.1 then some (Id.run (t.visit (edit (editLval k)) ())).1 else none

end Edit

section Rewrite

variable [DecidableEq P] [Ord P] (cx : Context T P) (k : Knowledge P)

/-- `check_lv` -/
def checkLv (lv : LValue P) : Option (Constant P) :=
  match k.values lv with
  | some c => some c
  | none =>
    match lv with
    | ⟨.static p, []⟩ => cx.staticValue p
    | _ => none

/-- The constant to put in the place of an lvalue. An `ItemAddr` without an item means "no expansion". -/
def expansion (lv : LValue P) : Option (Constant P) := (checkLv cx k lv).filter (· ≠ .itemAddr none)

/-- `check_param` -/
def checkParam : Param P (LValue P) → Param P (LValue P)
  | .lvalue lv =>
    match expansion cx k lv with
    | some c => .constant c
    | none => .lvalue lv
  | p => p

/-- The source of an assignment after an evaluation. -/
def evaluated (src : RValue T P (LValue P)) : ConstFold.Folded P → Option (RValue T P (LValue P))
  | .error _ => none
  | .ok none => some src
  | .ok (some c) => some (.constant c)

/-- The cast of an enum variant with the value `v`. -/
def castVariant (src : RValue T P (LValue P)) (v : ℕ) : CoreType → Option (RValue T P (LValue P))
  | .u8 => some (.constant (.uint v .u8))
  | .u16 => some (.constant (.uint v .u16))
  | .u32 => some (.constant (.uint v .u32))
  | .u64 => some (.constant (.uint v .u64))
  | .u128 => some (.constant (.uint v .u128))
  | .usize => some (.constant (.uint v .usize))
  | .i8 => some (.constant (.int v .i8))
  | .i16 => some (.constant (.int v .i16))
  | .i32 => some (.constant (.int v .i32))
  | .i64 => some (.constant (.int v .i64))
  | .i128 => some (.constant (.int v .i128))
  | .isize => some (.constant (.int v .isize))
  | .f32 | .f64 | .char | .bool => some src
  | .str => none

def castSource (lv : LValue P) (type : T) : Option (RValue T P (LValue P)) :=
  match (checkLv cx k lv).filter fun c => !c matches .itemAddr _ with
  | some nv =>
    match cx.asPrimitive type with
    | none => some (.cast lv type)
    | some te => evaluated (.cast lv type) (ConstFold.foldCast 64 cx.ops nv te)
  | none =>
    match k.variants lv with
    | none => some (.cast lv type)
    | some idx => do
      let ct ← cx.asPrimitive type
      let v ← cx.enumValue lv idx
      castVariant (.cast lv type) v ct

/-- The operand that an operator leaves as it is, or its constant result. -/
def noOp {L : Type} (l : Param P L) (op : BinOp) (r : Param P L) : Option (Param P L) :=
  match op with
  | .add | .sub =>
    match r with
    | .constant (.uint 0 _) => some l
    | _ => none
  | .mod =>
    match r with
    | .constant (.uint 1 t) => some (.constant (.uint 0 t))
    | _ => none
  | .div =>
    match r with
    | .constant (.uint 1 _) => some l
    | _ => none
  | .mul =>
    match l, r with
    | .constant (.uint 0 t), _ | _, .constant (.uint 0 t) => some (.constant (.uint 0 t))
    | .constant (.uint 1 _), r => some r
    | l, .constant (.uint 1 _) => some l
    | _, _ => none
  | _ => none

def ofParam : Param P (LValue P) → Option (RValue T P (LValue P))
  | .lvalue lv => some (.use lv)
  | .borrow _ _ => none
  | .constant c => some (.constant c)

/-- The source for an operator on checked operands. -/
def binOpSource (l : Param P (LValue P)) (op : BinOp) (r : Param P (LValue P)) :
    Option (RValue T P (LValue P)) :=
  match l, r with
  | .constant cl, .constant cr =>
    evaluated (.binOp l op r) (ConstFold.foldBinOp 64 cx.ops cl op cr)
  | l, r =>
    match noOp l op r with
    | none => some (.binOp l op r)
    | some p => ofParam p

def uniOpSource (lv : LValue P) (op : UniOp) : Option (RValue T P (LValue P)) :=
  match k.values lv with
  | none => some (.uniOp lv op)
  | some val => evaluated (.uniOp lv op) (ConstFold.foldUniOp 64 op val)

/-- What becomes of the source of an assignment. -/
def assignSource (src : RValue T P (LValue P)) : Option (RValue T P (LValue P)) :=
  match src with
  | .use lv =>
    match expansion cx k lv with
    | some c => some (.constant c)
    | none => some (.use lv)
  | .borrow .shared ⟨.static p, []⟩ => some (.constant (.itemAddr (some p)))
  | .cast lv type => castSource cx k lv type
  | .binOp l op r => binOpSource cx (checkParam cx k l) op (checkParam cx k r)
  | .uniOp lv op => uniOpSource k lv op
  -- The metadata is not populated yet.
  | .makeDst _ (.constant (.itemAddr none)) => some src
  | src => some (src.mapParams (checkParam cx k))

def rewrite : Statement T P (LValue P) → Option (Statement T P (LValue P) × Knowledge P)
  | .assign dst src => do return (.assign dst (← assignSource cx k src), k.forgetBorrowed src)
  | .setDropFlag idx newVal other =>
    match other with
    | none => some (.setDropFlag idx newVal none, k.setFlag idx newVal)
    | some o =>
      match k.dropFlags o with
      | some b => some (.setDropFlag idx newVal (some o), k.setFlag idx (newVal != b))
      | none => some (.setDropFlag idx newVal (some o), k)
  | .drop kind slot (some flagIdx) =>
    match k.dropFlags flagIdx with
    | some true => some (.drop kind slot none, k)
    | some false => some (.scopeEnd [], k)
    | none => some (.drop kind slot (some flagIdx), k)
  | st => some (st, k)

/-- Locates `temp = SOME_CONST` and records the value. -/
def record : Statement T P (LValue P) → Option (Knowledge P)
  | .assign dst src =>
    if dst.isLocal then
      match src with
      | .constant c => some (k.insertValue dst c)
      | .enumVariant _ idx _ => some (k.insertVariant dst idx)
      | .use lv =>
        if lv.isLocal then
          match k.values lv, k.variants lv with
          | some _, some _ => none
          | some c, none => some (k.insertValue dst c)
          | none, some idx => some (k.insertVariant dst idx)
          | none, none => some k
        else some k
      | _ => some k
    else some k
  | _ => some k

def statement (st : Statement T P (LValue P)) : Option (Statement T P (LValue P) × Knowledge P) := do
  let st ← editStatement k st
  let (st, k) ← rewrite cx k st
  return (st, ← record (k.forgetWritten st.lvalues) st)

def statements (k : Knowledge P) :
    List (Statement T P (LValue P)) → Option (List (Statement T P (LValue P)) × Knowledge P)
  | [] => some ([], k)
  | st :: sts => do
    let (st, k) ← statement cx k st
    let (sts, k) ← statements k sts
    return (st :: sts, k)

def terminator (t : Terminator T P (LValue P)) : Option (Terminator T P (LValue P)) := do
  match ← editTerminator k t with
  | .switch val targets =>
    match k.variants val with
    | none => return .switch val targets
    | some idx => return .goto (← targets[idx]?)
  | .if_ cond bbTrue bbFalse =>
    match k.values cond with
    | none | some (.const _) | some (.generic _) => return .if_ cond bbTrue bbFalse
    | some (.bool v) => return .goto (if v then bbTrue else bbFalse)
    | some _ => none
  | .call retBlock panicBlock retVal fcn args =>
    return .call retBlock panicBlock retVal fcn (args.map (checkParam cx k))
  | t => return t

end Rewrite

end ConstPropagate

/-- The walk of `MIR_Optimise_ConstPropagate` over one block. -/
def constPropagate [DecidableEq P] [Ord P] (cx : ConstPropagate.Context T P)
    (bb : BasicBlock T P (LValue P)) : Option (BasicBlock T P (LValue P)) := do
  let (sts, k) ← ConstPropagate.statements cx .empty bb.statements
  return ⟨sts, ← ConstPropagate.terminator cx k bb.terminator⟩

end Mrustc.Mir
