import Mrustc.Hir.Path

/-! # The MIR

HIR types `T` (array sizes among them) and item paths `P` are parameters. Everything above an lvalue
is generic in the lvalues `L`, so that rvalues can also be written over the values read from them.
-/

namespace Mrustc.Mir

open Hir (RcString CoreType BorrowType)

abbrev BasicBlockId := ℕ

inductive Storage (P : Type)
  | return_
  | argument (idx : ℕ)
  | local_ (idx : ℕ)
  | static (path : P)
  deriving DecidableEq, Repr

inductive Wrapper
  | deref
  | field (idx : ℕ)
  | downcast (idx : ℕ)
  | index (idx : ℕ)
  deriving DecidableEq, Repr

structure LValue (P : Type) where
  root : Storage P
  wrappers : List Wrapper
  deriving DecidableEq, Repr

inductive BinOp
  | add | addOv | sub | subOv | mul | mulOv | div | divOv | mod
  | bitOr | bitAnd | bitXor | bitShr | bitShl
  | eq | ne | gt | ge | lt | le
  deriving DecidableEq, Repr

inductive UniOp
  | inv | neg
  deriving DecidableEq, Repr

/-- Compile-time known values. A float is given by its bits. -/
inductive Constant (P : Type)
  | int (v : ℤ) (t : CoreType)
  | uint (v : ℕ) (t : CoreType)
  | float (bits : UInt64) (t : CoreType)
  | bool (v : Bool)
  | bytes (v : List UInt8)
  | staticString (v : List UInt8)
  | const (p : P)
  | generic (binding : ℕ)
  | function (p : P)
  | itemAddr (p : Option P)
  deriving DecidableEq, Repr

inductive Param (P L : Type)
  | lvalue (val : L)
  | borrow (type : BorrowType) (val : L)
  | constant (c : Constant P)
  deriving DecidableEq, Repr

inductive RValue (T P L : Type)
  | use (val : L)
  | borrow (type : BorrowType) (val : L)
  | constant (c : Constant P)
  | sizedArray (val : Param P L) (count : T)
  | cast (val : L) (type : T)
  | binOp (l : Param P L) (op : BinOp) (r : Param P L)
  | uniOp (val : L) (op : UniOp)
  | dstMeta (val : L)
  | dstPtr (val : L)
  | makeDst (ptrVal metaVal : Param P L)
  | tuple (vals : List (Param P L))
  | array (vals : List (Param P L))
  | unionVariant (path : P) (index : ℕ) (val : Param P L)
  | enumVariant (path : P) (index : ℕ) (vals : List (Param P L))
  | struct_ (path : P) (vals : List (Param P L))
  deriving DecidableEq, Repr

inductive CallTarget (T P L : Type)
  | value (val : L)
  | path (p : P)
  | intrinsic (name : RcString) (params : List T)
  deriving DecidableEq, Repr

inductive SwitchValues
  | unsigned (vs : List UInt64)
  | signed (vs : List Int64)
  | string (vs : List (List UInt8))
  | byteString (vs : List (List UInt8))
  deriving DecidableEq, Repr

inductive Terminator (T P L : Type)
  | incomplete
  | return_
  | diverge
  | goto (bb : BasicBlockId)
  | panic (dst : BasicBlockId)
  | if_ (cond : L) (bbTrue bbFalse : BasicBlockId)
  | switch (val : L) (targets : List BasicBlockId)
  | switchValue (val : L) (defTarget : BasicBlockId) (targets : List BasicBlockId) (values : SwitchValues)
  | call (retBlock panicBlock : BasicBlockId) (retVal : L) (fcn : CallTarget T P L) (args : List (Param P L))
  deriving DecidableEq, Repr

/-- A parameter of `asm!`. Inputs are read as `L`, outputs are written to `O`. -/
inductive AsmParam (P L O : Type)
  | const (c : Constant P)
  | sym (p : P)
  | reg (dir spec : RcString) (input : Option (Param P L)) (output : Option O)
  deriving DecidableEq, Repr

inductive DropKind
  | shallow | deep
  deriving DecidableEq, Repr

inductive Statement (T P L : Type)
  | assign (dst : L) (src : RValue T P L)
  | asm (tpl : RcString) (outputs inputs : List (RcString × L)) (clobbers flags : List RcString)
  | asm2 (options lines : List RcString) (params : List (AsmParam P L L))
  | setDropFlag (idx : ℕ) (newVal : Bool) (other : Option ℕ)
  | drop (kind : DropKind) (slot : L) (flagIdx : Option ℕ)
  | scopeEnd (slots : List ℕ)
  deriving DecidableEq, Repr

structure BasicBlock (T P L : Type) where
  statements : List (Statement T P L)
  terminator : Terminator T P L
  deriving DecidableEq, Repr

structure Function (T P L : Type) where
  locals : List T
  dropFlags : List Bool
  blocks : List (BasicBlock T P L)
  deriving DecidableEq, Repr

variable {P : Type}

namespace LValue

/-- `new_Local` -/
def newLocal (idx : ℕ) : LValue P := ⟨.local_ idx, []⟩

/-- `clone_wrapped` -/
def cloneWrapped (lv : LValue P) (ws : List Wrapper) : LValue P := ⟨lv.root, lv.wrappers ++ ws⟩

/-- `is_Local` -/
def isLocal (lv : LValue P) : Bool :=
  lv.wrappers.isEmpty && match lv.root with
    | .local_ _ => true
    | _ => false

/-- `is_Deref` -/
def isDeref (lv : LValue P) : Bool := lv.wrappers.getLast? == some .deref

/-- `clone_unwrapped` -/
def cloneUnwrapped (lv : LValue P) : LValue P := ⟨lv.root, lv.wrappers.dropLast⟩

/-- The locals that the lvalue is indexed by. -/
def indexLocals (lv : LValue P) : List ℕ :=
  lv.wrappers.filterMap fun
    | .index l => some l
    | _ => none

def hasDeref (lv : LValue P) : Bool := lv.wrappers.contains .deref

end LValue

end Mrustc.Mir
