import Mrustc.Int128.S128
import Mrustc.Mir.Syntax

/-! # Folding constants

The expressions that `MIR_Optimise_ConstPropagate` evaluates once the lvalues of an rvalue are replaced by
their known values. Comparisons go through the order on constants.
-/

namespace Mrustc.Mir

open Hir (CoreType)
open Int128

namespace Double

def isNan (v : UInt64) : Bool := v &&& 0x7FFFFFFFFFFFFFFF > 0x7FF0000000000000

/-- Doubles in their numerical order. Both zeros have the same place. -/
def key (v : UInt64) : ℤ :=
  if v &&& 0x8000000000000000 = 0 then (v &&& 0x7FFFFFFFFFFFFFFF).toNat
  else -((v &&& 0x7FFFFFFFFFFFFFFF).toNat : ℤ)

def eq (l r : UInt64) : Bool := !isNan l && !isNan r && key l = key r

def gt (l r : UInt64) : Bool := !isNan l && !isNan r && key l > key r

def ord (l r : UInt64) : Ordering := if eq l r then .eq else if gt l r then .gt else .lt

def neg (v : UInt64) : UInt64 := v ^^^ 0x8000000000000000

/-- `0.0 <= v && v <= UINT64_MAX`, where the bound is rounded to `2 ^ 64` -/
def inU64 (v : UInt64) : Bool := !isNan v && 0 ≤ key v && key v ≤ key 0x43F0000000000000

end Double

/-- The arithmetic of the compiler's `double`. -/
structure DoubleOps where
  add : UInt64 → UInt64 → UInt64
  sub : UInt64 → UInt64 → UInt64
  mul : UInt64 → UInt64 → UInt64
  div : UInt64 → UInt64 → UInt64
  toU64 : UInt64 → UInt64

namespace Constant

variable {P : Type} [Ord P]

/-- `Constant::ord` -/
def ord : (a b : Constant P) → Ordering
  | .int av at_, .int bv bt =>
    let v := (S128.ofInt av).cmp (S128.ofInt bv)
    if v ≠ .eq then v else compare at_.ctorIdx bt.ctorIdx
  | .uint av at_, .uint bv bt =>
    let v := (U128.ofNat av).cmp (U128.ofNat bv)
    if v ≠ .eq then v else compare at_.ctorIdx bt.ctorIdx
  | .float av at_, .float bv bt =>
    if !Double.eq av bv then Double.ord av bv else compare at_.ctorIdx bt.ctorIdx
  | .bool av, .bool bv => compare av bv
  | .bytes av, .bytes bv => compare av bv
  | .staticString av, .staticString bv => compare av bv
  | .const ap, .const bp => compare ap bp
  | .generic ab, .generic bb => compare ab bb
  | .function ap, .function bp => compare ap bp
  | .itemAddr ap, .itemAddr bp => compare ap bp
  | a, b => compare a.ctorIdx b.ctorIdx

end Constant

namespace ConstFold

/-- The failed `MIR_ASSERT`s and `MIR_BUG`s. -/
inductive Bug
  | mismatchedTypes (op : BinOp)
  | divisionByZero
  | overSized (op : BinOp)
  | castingToStr
  | notOnChar
  deriving DecidableEq, Repr

/-- The constant that replaces the rvalue, if any. -/
abbrev Folded (P : Type) := Except Bug (Option (Constant P))

def truncateU (pointerBits : ℕ) (ct : CoreType) (v : U128) : U128 :=
  match ct with
  | .i8 | .u8 => v.and (U128.ofNat 0xFF)
  | .i16 | .u16 => v.and (U128.ofNat 0xFFFF)
  | .i32 | .u32 => v.and (U128.ofNat 0xFFFFFFFF)
  | .i64 | .u64 => v.and ⟨BitVec.allOnes 64, 0⟩
  | .i128 | .u128 => v
  | .isize | .usize =>
    if pointerBits < 64 then v.and ⟨BitVec.allOnes 64 >>> (64 - pointerBits), 0⟩
    else v.and ⟨BitVec.allOnes 64, 0⟩
  | _ => v

def sext (v : U128) (bits : ℕ) : S128 :=
  if (v.shr (bits - 1)).cmp ⟨0, 0⟩ ≠ .eq then ⟨v.or (U128.max.shl bits)⟩ else ⟨v⟩

/-- A pointer-sized integer is extended only where pointers have less than 64 bits. -/
def truncateS (pointerBits : ℕ) (ct : CoreType) (v : S128) : S128 :=
  let u := truncateU pointerBits ct v.inner
  match ct with
  | .i8 => sext u 8
  | .i16 => sext u 16
  | .i32 => sext u 32
  | .i64 => sext u 64
  | .i128 => v
  | .isize => if pointerBits < 64 then sext u pointerBits else v
  | _ => v

section Operators

variable {P : Type} (pointerBits : ℕ)

def newInt (t : CoreType) (v : S128) : Folded P := .ok (some (.int (truncateS pointerBits t v).toInt t))

def newUint (t : CoreType) (v : U128) : Folded P := .ok (some (.uint (truncateU pointerBits t v).toNat t))

def newFloat (t : CoreType) (v : UInt64) : Folded P := .ok (some (.float v t))

def foldCast (ops : DoubleOps) (nv : Constant P) (te : CoreType) : Folded P :=
  match te with
  | .u8 | .u16 | .u32 | .u64 | .u128 | .usize =>
    match nv with
    | .uint v _ => newUint pointerBits te (U128.ofNat v)
    | .int v _ => newUint pointerBits te (S128.ofInt v).inner
    | .bool v => .ok (some (.uint v.toNat te))
    | .float v _ =>
      if Double.inU64 v then newUint pointerBits te ⟨(ops.toU64 v).toBitVec, 0⟩ else .ok none
    | _ => .ok none
  | .i8 | .i16 | .i32 | .i64 | .i128 | .isize =>
    match nv with
    | .uint v _ => newInt pointerBits te ⟨U128.ofNat v⟩
    | .int v _ => newInt pointerBits te (S128.ofInt v)
    | .bool v => .ok (some (.int v.toNat te))
    | _ => .ok none
  | .f32 | .f64 | .char | .bool => .ok none
  | .str => .error .castingToStr

/-- The arms on two constants of one kind, which must have the same type. -/
def foldPair (op : BinOp) (floats : CoreType → UInt64 → UInt64 → Folded P) (bools : Bool → Bool → Folded P)
    (ints : CoreType → S128 → S128 → Folded P) (uints : CoreType → U128 → U128 → Folded P)
    (l r : Constant P) : Folded P :=
  if l.ctorIdx ≠ r.ctorIdx then .error (.mismatchedTypes op)
  else match l, r with
  | .float lv lt, .float rv rt => if lt ≠ rt then .error (.mismatchedTypes op) else floats lt lv rv
  | .bool lv, .bool rv => bools lv rv
  | .int lv lt, .int rv rt =>
    if lt ≠ rt then .error (.mismatchedTypes op) else ints lt (S128.ofInt lv) (S128.ofInt rv)
  | .uint lv lt, .uint rv rt =>
    if lt ≠ rt then .error (.mismatchedTypes op) else uints lt (U128.ofNat lv) (U128.ofNat rv)
  | _, _ => .ok none

/-- `ADD`, `SUB` and `MUL` -/
def foldArith (op : BinOp) (floats : UInt64 → UInt64 → UInt64) (ints : S128 → S128 → S128)
    (uints : U128 → U128 → U128) : (l r : Constant P) → Folded P :=
  foldPair op (fun t l r => newFloat t (floats l r)) (fun _ _ => .ok none)
    (fun t l r => newInt pointerBits t (ints l r)) (fun t l r => newUint pointerBits t (uints l r))

def foldDiv (ops : DoubleOps) : (l r : Constant P) → Folded P :=
  foldPair .div (fun t l r => newFloat t (ops.div l r)) (fun _ _ => .ok none)
    (fun t l r => if r = S128.ofInt 0 then .ok none else newInt pointerBits t (l.div r))
    (fun t l r => if r = U128.ofNat 0 then .ok none else newUint pointerBits t (l.div r))

def foldMod : (l r : Constant P) → Folded P :=
  foldPair .mod (fun _ _ _ => .ok none) (fun _ _ => .ok none)
    (fun t l r => if r = S128.ofInt 0 then .error .divisionByZero else newInt pointerBits t (l.mod r))
    (fun t l r => if r = U128.ofNat 0 then .error .divisionByZero else newUint pointerBits t (l.mod r))

/-- `BIT_AND`, `BIT_OR` and `BIT_XOR` -/
def foldBits (op : BinOp) (bools : Bool → Bool → Bool) (ints : S128 → S128 → S128)
    (uints : U128 → U128 → U128) : (l r : Constant P) → Folded P :=
  foldPair op (fun _ _ _ => .ok none) (fun l r => .ok (some (.bool (bools l r))))
    (fun t l r => newInt pointerBits t (ints l r)) (fun t l r => newUint pointerBits t (uints l r))

/-- `shift_len_r` -/
def shiftLen : Constant P → Option U128
  | .int v _ => some (S128.ofInt v).inner
  | .uint v _ => some (U128.ofNat v)
  | _ => none

/-- `BIT_SHL` and `BIT_SHR`: the types of both sides may differ. -/
def foldShift (op : BinOp) (ints : S128 → ℕ → S128) (uints : U128 → ℕ → U128) (l r : Constant P) :
    Folded P :=
  match shiftLen r with
  | none => .error (.mismatchedTypes op)
  | some len =>
    if len.cmp (U128.ofNat 128) = .gt then .error (.overSized op)
    else match l with
    | .int v t => newInt pointerBits t (ints (S128.ofInt v) len.truncateU64.toNat)
    | .uint v t => newUint pointerBits t (uints (U128.ofNat v) len.truncateU64.toNat)
    | _ => .ok none

/-- The comparisons of everything but floats. -/
def foldCmp [Ord P] (holds : Ordering → Bool) (l r : Constant P) : Folded P :=
  match l with
  | .float _ _ => .ok none
  | _ => .ok (some (.bool (holds (l.ord r))))

/-- The operators on two actual values. -/
def foldValues [Ord P] (ops : DoubleOps) (l : Constant P) (op : BinOp) (r : Constant P) : Folded P :=
  match op with
  | .eq => foldCmp (· = .eq) l r
  | .ne => foldCmp (· ≠ .eq) l r
  | .lt => foldCmp (· = .lt) l r
  | .le => foldCmp (· ≠ .gt) l r
  | .gt => foldCmp (· = .gt) l r
  | .ge => foldCmp (· ≠ .lt) l r
  | .add => foldArith pointerBits .add ops.add S128.add U128.add l r
  | .sub => foldArith pointerBits .sub ops.sub S128.sub U128.sub l r
  | .mul => foldArith pointerBits .mul ops.mul S128.mul U128.mul l r
  | .div => foldDiv pointerBits ops l r
  | .mod => foldMod pointerBits l r
  | .bitAnd => foldBits pointerBits .bitAnd (· && ·) S128.and U128.and l r
  | .bitOr => foldBits pointerBits .bitOr (· || ·) S128.or U128.or l r
  | .bitXor => foldBits pointerBits .bitXor (· != ·) S128.xor U128.xor l r
  | .bitShl => foldShift pointerBits .bitShl S128.shl U128.shl l r
  | .bitShr => foldShift pointerBits .bitShr S128.shr U128.shr l r
  | .addOv | .subOv | .mulOv | .divOv => .ok none

def foldBinOp [Ord P] (ops : DoubleOps) (l : Constant P) (op : BinOp) (r : Constant P) : Folded P :=
  match l, r with
  | .const _, _ | _, .const _ | .generic _, _ | _, .generic _ => .ok none
  | l, r => foldValues pointerBits ops l op r

def foldInv (val : Constant P) : Folded P :=
  match val with
  | .uint v t =>
    match t with
    | .u8 | .u16 | .u32 | .usize | .u64 => newUint pointerBits t (U128.ofNat v).not
    | .char => .error .notOnChar
    | _ => .ok none
  | .int v t =>
    match t with
    | .i8 | .i16 | .i32 | .isize | .i64 | .i128 => newInt pointerBits t (S128.ofInt v).not
    | .char => .error .notOnChar
    | _ => .ok none
  | .bool v => .ok (some (.bool !v))
  | _ => .ok none

/-- The negated value is not truncated. -/
def foldNeg (val : Constant P) : Folded P :=
  match val with
  | .int v t => .ok (some (.int (S128.ofInt v).neg.toInt t))
  | .float v t => if Double.isNan v then .ok none else newFloat t (Double.neg v)
  | _ => .ok none

def foldUniOp (op : UniOp) (val : Constant P) : Folded P :=
  match op with
  | .inv => foldInv pointerBits val
  | .neg => foldNeg val

/-- A parameter whose value is known. -/
def known : Param P (Constant P) → Option (Constant P)
  | .lvalue c => some c
  | .borrow _ _ => none
  | .constant c => some c

/-- The expressions on numbers, over the known values of their lvalues. -/
def fold [Ord P] (ops : DoubleOps) (src : RValue CoreType P (Constant P)) : Folded P :=
  match src with
  | .cast val type => foldCast pointerBits ops val type
  | .binOp l op r =>
    match known l, known r with
    | some l, some r => foldBinOp pointerBits ops l op r
    | _, _ => .ok none
  | .uniOp val op => foldUniOp pointerBits op val
  | _ => .ok none

end Operators

end ConstFold

end Mrustc.Mir
