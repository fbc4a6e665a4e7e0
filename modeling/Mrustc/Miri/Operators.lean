import Mrustc.Int128.S128
import Mrustc.Mir.Syntax
import Mrustc.Miri.PrimitiveValue

/-! # The operators of the standalone interpreter

The arms `BinOp` and `UniOp` of a step, over operands that hold numbers. Pointers have 64 bits. -/

namespace Mrustc.Miri

open Mrustc.Int128

/-- The inner types that have a size of their own. -/
inductive RawType
  | function | unit | bool
  | u8 | i8 | u16 | i16 | u32 | i32 | u64 | i64 | u128 | i128 | usize | isize
  | f32 | f64 | char
  deriving DecidableEq, Repr

namespace RawType

/-- `get_size` -/
def getSize : RawType → ℕ
  | .unit => 0
  | .u8 | .i8 | .bool => 1
  | .u16 | .i16 => 2
  | .u32 | .i32 | .char | .f32 => 4
  | .u64 | .i64 | .f64 | .function | .usize | .isize => 8
  | .u128 | .i128 => 16

def bits (t : RawType) : ℕ := t.getSize * 8

end RawType

/-- A value: its type and its bytes, the first one lowest. -/
structure Value where
  ty : RawType
  bytes : BitVec ty.bits

namespace Value

/-- `read_u8` to `read_u128`, at the start. -/
def read (v : Value) (w : ℕ) : BitVec w := v.bytes.setWidth w

/-- A new value of the type, written at its start. -/
def write (t : RawType) {w : ℕ} (v : BitVec w) : Value := ⟨t, v.setWidth t.bits⟩

end Value

instance : BEq U128 := ⟨fun a b => a.cmp b == .eq⟩
instance : LT U128 := ⟨fun a b => a.cmp b = .lt⟩
instance : DecidableLT U128 := fun a b => inferInstanceAs (Decidable (a.cmp b = .lt))
instance : BEq S128 := ⟨fun a b => a.cmp b == .eq⟩
instance : LT S128 := ⟨fun a b => a.cmp b = .lt⟩
instance : DecidableLT S128 := fun a b => inferInstanceAs (Decidable (a.cmp b = .lt))

namespace Ops

/-- `do_compare`. Two is the answer for operands that are neither equal nor different. -/
def doCompare {T : Type} [BEq T] [LT T] [DecidableLT T] (l r : T) : ℤ :=
  if l == r then 0 else if !(l != r) then 2 else if l < r then -1 else 1

/-- `do_bitwise` with a shift. Narrow operands are shifted as an `int` of 32 bits. -/
def doShift (op : Mir.BinOp) {w : ℕ} (l : BitVec w) (shift : ℕ) : Except Fault (BitVec w) :=
  if max w 32 ≤ shift then .error .undefined
  else match op with
    | .bitShl => if w < 32 ∧ 2 ^ 32 ≤ l.toNat * 2 ^ shift then .error .undefined else .ok (l <<< shift)
    | _ => .ok (l >>> shift)

def doBitwise {w : ℕ} (op : Mir.BinOp) (l r : BitVec w) : BitVec w :=
  match op with
  | .bitAnd => l &&& r
  | .bitOr => l ||| r
  | _ => l ^^^ r

end Ops

def ensure (c : Prop) [Decidable c] : Except Fault Unit := if c then .ok () else .error .assertion

/-- The order of two operands, -1, 0 or 1. -/
def compareValues (l r : Value) : Except Fault ℤ :=
  match l.ty with
  | .u64 | .usize | .function => .ok (Ops.doCompare (l.read 64).toNat (r.read 64).toNat)
  | .u32 | .char => .ok (Ops.doCompare (l.read 32).toNat (r.read 32).toNat)
  | .u16 => .ok (Ops.doCompare (l.read 16).toNat (r.read 16).toNat)
  | .u8 | .bool => .ok (Ops.doCompare (l.read 8).toNat (r.read 8).toNat)
  | .i64 | .isize => .ok (Ops.doCompare (l.read 64).toInt (r.read 64).toInt)
  | .i32 => .ok (Ops.doCompare (l.read 32).toInt (r.read 32).toInt)
  | .i16 => .ok (Ops.doCompare (l.read 16).toInt (r.read 16).toInt)
  | .i8 => .ok (Ops.doCompare (l.read 8).toInt (r.read 8).toInt)
  | .u128 => .ok (Ops.doCompare (U128.ofBits (l.read 128)) (U128.ofBits (r.read 128)))
  | .i128 => .ok (Ops.doCompare (S128.mk (U128.ofBits (l.read 128))) (S128.mk (U128.ofBits (r.read 128))))
  | _ => .error .todo

/-- What an operator makes of the order. -/
def comparisonHolds (op : Mir.BinOp) (res : ℤ) : Bool :=
  match op with
  | .eq => res = 0
  | .ne => res ≠ 0
  | .gt => res = 1
  | .ge => res = 1 ∨ res = 0
  | .lt => res = -1
  | _ => res = -1 ∨ res = 0

def compareOp (op : Mir.BinOp) (l r : Value) : Except Fault Value := do
  ensure (l.ty = r.ty)
  let res ← compareValues l r
  .ok (Value.write .bool (if comparisonHolds op res then 1#8 else 0#8))

/-- `check_cast_u` -/
def checkCastU (maxBits : ℕ) {w : ℕ} (v : BitVec w) : Except Fault (BitVec 8) := do
  ensure (v.toNat ≤ maxBits)
  .ok (v.setWidth 8)

/-- `check_cast_s` -/
def checkCastS (maxBits : ℕ) {w : ℕ} (v : BitVec w) : Except Fault (BitVec 8) := do
  ensure (v.toInt ≤ maxBits)
  .ok (v.setWidth 8)

def shiftAmount (maxBits : ℕ) (r : Value) : Except Fault (BitVec 8) :=
  match r.ty with
  | .u64 | .usize => checkCastU maxBits (r.read 64)
  | .u32 => checkCastU maxBits (r.read 32)
  | .u16 => checkCastU maxBits (r.read 16)
  | .u8 => checkCastU maxBits (r.read 8)
  | .i64 | .isize => checkCastS maxBits (r.read 64)
  | .i32 => checkCastS maxBits (r.read 32)
  | .i16 => checkCastS maxBits (r.read 16)
  | .i8 => checkCastS maxBits (r.read 8)
  | _ => .error .todo

/-- The switch over the type of the left operand. A signed one is shifted as if it were unsigned. -/
def shiftValue (op : Mir.BinOp) (l : Value) (shift : BitVec 8) : Except Fault Value :=
  match l.ty with
  | .u128 =>
    let v := U128.ofBits (l.read 128)
    let amount : U128 := ⟨shift.setWidth 64, 0⟩
    .ok (Value.write l.ty (if op = .bitShl then v.shlWide amount else v.shrWide amount).bits)
  | .u64 | .usize | .isize => (Ops.doShift op (l.read 64) shift.toNat).map (Value.write l.ty)
  | .u32 | .i32 => (Ops.doShift op (l.read 32) shift.toNat).map (Value.write l.ty)
  | .u16 | .i16 => (Ops.doShift op (l.read 16) shift.toNat).map (Value.write l.ty)
  | .u8 | .i8 => (Ops.doShift op (l.read 8) shift.toNat).map (Value.write l.ty)
  | _ => .error .todo

def shiftOp (op : Mir.BinOp) (l r : Value) : Except Fault Value := do
  let shift ← shiftAmount (l.ty.getSize * 8) r
  shiftValue op l shift

def bitwiseOp (op : Mir.BinOp) (l r : Value) : Except Fault Value := do
  ensure (l.ty = r.ty)
  match l.ty with
  | .u128 | .i128 => .ok (Value.write l.ty (Ops.doBitwise op (l.read 128) (r.read 128)))
  | .u64 | .i64 | .usize | .isize => .ok (Value.write l.ty (Ops.doBitwise op (l.read 64) (r.read 64)))
  | .u32 | .i32 => .ok (Value.write l.ty (Ops.doBitwise op (l.read 32) (r.read 32)))
  | .u16 | .i16 => .ok (Value.write l.ty (Ops.doBitwise op (l.read 16) (r.read 16)))
  | .u8 | .i8 | .bool => .ok (Value.write l.ty (Ops.doBitwise op (l.read 8) (r.read 8)))
  | _ => .error .todo

/-- `PrimitiveValueVirt::from_value`: the class made for a type. -/
def RawType.primitiveClass : RawType → Option PrimitiveClass
  | .u8 => some .u8
  | .u16 => some .u16
  | .u32 => some .u32
  | .u64 | .usize => some .u64
  | .i32 => some .i32
  | .i64 | .isize => some .i64
  | _ => none

def PrimitiveValue.fromValue (v : Value) : Except Fault PrimitiveValue :=
  match v.ty.primitiveClass with
  | some c => .ok ⟨c, v.read c.bits⟩
  | none => .error .todo

/-- The remaining operators. What the methods report is not looked at. -/
def arithmeticOp (op : Mir.BinOp) (l r : Value) : Except Fault Value := do
  ensure (l.ty = r.ty)
  let p ← PrimitiveValue.fromValue l
  let x ← PrimitiveValue.fromValue r
  let res ← match op with
    | .add => (p.add x).map Prod.fst
    | .sub => (p.subtract x).map Prod.fst
    | .mul => (p.multiply x).map Prod.fst
    | .div => (p.divide x).map Prod.fst
    | .mod => (p.modulo x).map Prod.fst
    | _ => .error .todo
  .ok (Value.write l.ty res.v)

/-- The arm `BinOp`. -/
def binOp (op : Mir.BinOp) (l r : Value) : Except Fault Value :=
  match op with
  | .eq | .ne | .gt | .ge | .lt | .le => compareOp op l r
  | .bitShl | .bitShr => shiftOp op l r
  | .bitAnd | .bitOr | .bitXor => bitwiseOp op l r
  | _ => arithmeticOp op l r

/-- A negated value of 32 or 64 bits, one without a meaning where it does not fit. -/
def negate (v : Value) (w : ℕ) : Except Fault Value :=
  (PrimitiveSInt.result w (-(v.read w).toInt)).map (Value.write v.ty)

/-- The arm `UniOp`. -/
def uniOp (op : Mir.UniOp) (v : Value) : Except Fault Value :=
  match op with
  | .inv =>
    match v.ty with
    | .u64 | .i64 | .usize | .isize => .ok (Value.write v.ty (~~~v.read 64))
    | .u32 | .i32 => .ok (Value.write v.ty (~~~v.read 32))
    | .u16 | .i16 => .ok (Value.write v.ty (~~~v.read 16))
    | .u8 | .i8 => .ok (Value.write v.ty (~~~v.read 8))
    | .bool => .ok (Value.write v.ty (if v.read 8 = 0 then 1#8 else 0#8))
    | _ => .error .todo
  | .neg =>
    match v.ty with
    | .i128 => .error .todo
    | .i64 | .isize => negate v 64
    | .i32 => negate v 32
    -- a narrow operand is negated as an `int` of 32 bits, and cut to its width again
    | .i16 => .ok (Value.write v.ty (-v.read 16))
    | .i8 => .ok (Value.write v.ty (-v.read 8))
    | _ => .error .error

end Mrustc.Miri
