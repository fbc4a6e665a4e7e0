import Mrustc.ConstEval.Values

/-! # The bit intrinsics

The arms of `run_terminator` for `ctpop`, `cttz`, `ctlz`, `bswap`, `bitreverse`, `rotate_left` and `rotate_right`.
-/

namespace Mrustc.ConstEval

open Hir (CoreType)
open Mir (Param)
open Int128

inductive BitIntrinsic
  | ctpop | cttz | ctlz | bswap | bitreverse | rotateLeft | rotateRight
  deriving DecidableEq, Repr

/-! ## The loops -/

/-- The loop of `cttz` on a value that is not zero. -/
def cttzLoop (val : U128) (rv : ℕ) : ℕ :=
  if val.toNat ≠ 0 ∧ (val.and ⟨1, 0⟩).cmp ⟨0, 0⟩ = .eq then cttzLoop (val.shr 1) (rv + 1) else rv
termination_by val.toNat
decreasing_by
  rw [toNat_shr]
  omega

/-- The loop of `ctlz` counts the shifts that remove the top bit. -/
def ctlzLoop (val : U128) (rv : ℕ) : ℕ :=
  if val.toNat ≠ 0 then ctlzLoop (val.shr 1) (rv + 1) else rv
termination_by val.toNat
decreasing_by
  rw [toNat_shr]
  omega

/-- The loop of `bitreverse`, with `n` rounds to go; the result is shifted after the last bit too. -/
def bitreverseLoop : (n : ℕ) → (val rv : U128) → U128
  | 0, _, rv => rv
  | n + 1, val, rv =>
    let rv := if (val.and ⟨1, 0⟩).cmp ⟨0, 0⟩ ≠ .eq then rv.or ⟨1, 0⟩ else rv
    bitreverseLoop n (val.shr 1) (rv.shl 1)

def bswap16 (v : BitVec 16) : BitVec 16 := (v >>> 8) ||| (v <<< 8)

def bswap32 (v : BitVec 32) : BitVec 32 :=
  (bswap16 ((v >>> 16).setWidth 16)).setWidth 32 ||| ((bswap16 (v.setWidth 16)).setWidth 32 <<< 16)

def bswap64 (v : BitVec 64) : BitVec 64 :=
  (bswap32 ((v >>> 32).setWidth 32)).setWidth 64 ||| ((bswap32 (v.setWidth 32)).setWidth 64 <<< 32)

def bswap128 (v : U128) : U128 := ⟨bswap64 (v.shr 64).truncateU64, bswap64 v.truncateU64⟩

/-! ## The arms -/

section Arms

variable {T P : Type} (state : CallStackEntry T P) (ty : T) (dst : ValueRef)

/-- `e.args.at(i)` -/
def argAt (args : List (Param P ValueRef)) (i : ℕ) : Except Failure (Param P ValueRef) :=
  args[i]?.elim (.error .outOfRange) .ok

def ctpop (args : List (Param P ValueRef)) : Except Failure ValueRef := do
  if (state.asPrimitive ty).isNone then .error (.assertion "ctpop with non-primitive ")
  let ti := state.typeInfo ty
  let val ← state.readParamUint ti.bits (← argAt args 0)
  let rv := val.lo.cpop.toNat + val.hi.cpop.toNat
  dst.writeUint state.target ti.bits (U128.ofNat rv)

def cttz (args : List (Param P ValueRef)) : Except Failure ValueRef := do
  if (state.asPrimitive ty).isNone then .error (.assertion "`cttz` with non-primitive ")
  let ti := state.typeInfo ty
  if ti.ty ≠ .unsigned then .error (.assertion "`cttz` with non-unsigned ")
  let val ← state.readParamUint ti.bits (← argAt args 0)
  let rv := if val.cmp ⟨0, 0⟩ = .eq then ti.bits else cttzLoop val 0
  dst.writeUint state.target ti.bits (U128.ofNat rv)

/-- The subtraction is one of `unsigned` numbers. -/
def ctlz (args : List (Param P ValueRef)) : Except Failure ValueRef := do
  if (state.asPrimitive ty).isNone then .error (.assertion "`ctlz` with non-primitive ")
  let ti := state.typeInfo ty
  if ti.ty ≠ .unsigned then .error (.assertion "`ctlz` with non-unsigned ")
  let val ← state.readParamUint ti.bits (← argAt args 0)
  let rv := ctlzLoop val 0
  dst.writeUint state.target ti.bits (U128.ofNat (BitVec.ofNat 32 ti.bits - BitVec.ofNat 32 rv).toNat)

def bswapValue (val : U128) : Option CoreType → Except Failure U128
  | some .i8 | some .u8 => .ok val
  | some .i16 | some .u16 => .ok ⟨(bswap16 (val.truncateU64.setWidth 16)).setWidth 64, 0⟩
  | some .i32 | some .u32 => .ok ⟨(bswap32 (val.truncateU64.setWidth 32)).setWidth 64, 0⟩
  | some .i64 | some .u64 => .ok ⟨bswap64 val.truncateU64, 0⟩
  | some .i128 | some .u128 => .ok (bswap128 val)
  | _ => .error (.todo "Handle bswap with ")

def bswap (args : List (Param P ValueRef)) : Except Failure ValueRef := do
  if (state.asPrimitive ty).isNone then .error (.assertion "bswap with non-primitive ")
  let ti := state.typeInfo ty
  let val ← state.readParamUint ti.bits (← argAt args 0)
  let rv ← bswapValue val (state.asPrimitive ty)
  dst.writeUint state.target ti.bits rv

def bitreverse (args : List (Param P ValueRef)) : Except Failure ValueRef := do
  if (state.asPrimitive ty).isNone then .error (.assertion "bswap with non-primitive ")
  let ti := state.typeInfo ty
  let val ← state.readParamUint ti.bits (← argAt args 0)
  dst.writeUint state.target ti.bits (bitreverseLoop ti.bits val ⟨0, 0⟩)

/-- The value that a rotation of `val` writes; types of 64 bits are taken for whole rotations. -/
def rotated (left : Bool) (bits : ℕ) (val : U128) (count : ℕ) : U128 :=
  if count = 0 ∨ bits = 64 then val
  else if left then (val.shl count).or (val.shr (bits - count))
  else (val.shr count).or (val.shl (bits - count))

def rotate (left : Bool) (args : List (Param P ValueRef)) : Except Failure ValueRef := do
  if (state.asPrimitive ty).isNone then .error (.assertion " with non-primitive ")
  let ti := state.typeInfo ty
  let val ← state.readParamUint ti.bits (← argAt args 0)
  let count ← state.readParamUint ti.bits (← argAt args 1)
  if count.cmp (U128.ofNat ti.bits) = .gt then .error (.assertion "Excessive rotation")
  dst.writeUint state.target ti.bits (rotated left ti.bits val (count.truncateU64.setWidth 32).toNat)

/-- The arms of `run_terminator` -/
def runBitIntrinsic : BitIntrinsic → List (Param P ValueRef) → Except Failure ValueRef
  | .ctpop => ctpop state ty dst
  | .cttz => cttz state ty dst
  | .ctlz => ctlz state ty dst
  | .bswap => bswap state ty dst
  | .bitreverse => bitreverse state ty dst
  | .rotateLeft => rotate state ty dst true
  | .rotateRight => rotate state ty dst false

end Arms

/-! ## What the intrinsics are for -/

/-- The bytes in the opposite order. -/
def byteSwap {w : ℕ} (x : BitVec w) : BitVec w :=
  BitVec.ofFnLE fun i : Fin w => x.getLsbD (w - 8 - 8 * (i.val / 8) + i.val % 8)

namespace BitIntrinsic

/-- The definition on bit vectors; rotations are by `c` bits. -/
def meaning {w : ℕ} (x : BitVec w) (c : ℕ) : BitIntrinsic → BitVec w
  | .ctpop => x.cpop
  | .cttz => x.ctz
  | .ctlz => x.clz
  | .bswap => byteSwap x
  | .bitreverse => x.reverse
  | .rotateLeft => x.rotateLeft c
  | .rotateRight => x.rotateRight c

def inverse : BitIntrinsic → Option BitIntrinsic
  | .ctpop | .cttz | .ctlz => none
  | .bswap => some .bswap
  | .bitreverse => some .bitreverse
  | .rotateLeft => some .rotateRight
  | .rotateRight => some .rotateLeft

/-- The arguments of a call. -/
def args {P : Type} (p q : Param P ValueRef) : BitIntrinsic → List (Param P ValueRef)
  | .rotateLeft | .rotateRight => [p, q]
  | _ => [p]

end BitIntrinsic

end Mrustc.ConstEval
