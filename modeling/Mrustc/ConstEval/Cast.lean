import Mrustc.ConstEval.Floats
import Mrustc.ConstEval.Values

/-! # Casts and value switches

The `Cast` arm of `run_statement` from integers, `bool` and `char`, and the `SwitchValue` arm of `run_terminator`.
-/

namespace Mrustc.ConstEval

open Hir (CoreType)
open Mir (SwitchValues)
open Int128
open Rounding (Format)

/-- `write_float` of the float with the pattern `w`. Its bytes are copied in the order of the host; the way of an
`f32` through `double` does not change it. -/
def ValueRef.writeFloat (host : Target) (val : ValueRef) (bits : ℕ) (w : BitVec 64) : Except Failure ValueRef :=
  match bits with
  | 32 | 64 => val.writeUint host bits ⟨w, 0⟩
  | _ => .error (.bug "Unexpected float size: ")

section Arms

variable {T P : Type} (state : CallStackEntry T P) (host : Target)

/-- The cast of a float, an enum or another type is left to `others`. -/
def castPrimitive (te : CoreType) (srcTy : T) (inval dst : ValueRef) (others : Except Failure ValueRef) :
    Except Failure ValueRef :=
  let ti := TypeInfo.forPrimitive state.target te
  let srcTi := state.typeInfo srcTy
  match ti.ty with
  | .signed | .unsigned =>
    match srcTi.ty with
    | .signed => do
      let v ← inval.readSint state.target srcTi.bits
      dst.writeUint state.target ti.bits v.inner
    | .unsigned => do dst.writeUint state.target ti.bits (← inval.readUint state.target srcTi.bits)
    | .float | .other => others
  | .float =>
    match srcTi.ty with
    | .signed => do
      let v : S128 := ⟨← inval.readUint state.target srcTi.bits⟩
      dst.writeFloat host ti.bits (if ti.bits = 32 then v.toFloat.setWidth 64 else v.toDouble)
    | .unsigned => do
      let v ← inval.readUint state.target srcTi.bits
      dst.writeFloat host ti.bits (if ti.bits = 32 then v.toFloat.setWidth 64 else v.toDouble)
    | .float => others
    | .other => .error (.todo "Cast ")
  | .other => .error (.todo "RValue::Cast to ")

/-- `v == vals[i]` takes the value through `unsigned`. -/
def matchesValue (v : U128) (val : UInt64) : Bool := v.cmp (U128.ofNat (val.toNat % 2 ^ 32)) = .eq

/-- `target_idx`; `~0u` is `none` -/
def targetIdx (v : U128) (vals : List UInt64) : Option ℕ := vals.findIdx? (matchesValue v)

def switchValue (ty : T) (lit : ValueRef) (values : SwitchValues) (targets : List ℕ) (defTarget : ℕ) :
    Except Failure ℕ :=
  let ti := state.typeInfo ty
  match values with
  | .unsigned vals => do
    let v ← lit.readUint state.target (ti.bits / 8)
    match targetIdx v vals with
    | none => .ok defTarget
    | some i => targets[i]?.elim (.error .outOfRange) .ok
  | _ => .error (.todo "SwitchValue - ")

end Arms

/-! ## What they are for -/

/-- The values of the integer types, `bool` and `char`. -/
def IsValue (target : Target) (t : CoreType) (z : ℤ) : Prop :=
  match t with
  | .bool => 0 ≤ z ∧ z < 2
  | .char => 0 ≤ z ∧ z < 0xD800 ∨ 0xE000 ≤ z ∧ z < 0x110000
  | t => (TypeInfo.forPrimitive target t).Fits z

/-- The place holds a value of the type. -/
structure HoldsValue (target : Target) (t : CoreType) (val : ValueRef) (z : ℤ) : Prop where
  isValue : IsValue target t z
  holds : val.Holds target (Mir.Monomorph.size target.toTarget t)
    (z % 2 ^ (8 * Mir.Monomorph.size target.toTarget t)).toNat

def floatFormat (bits : ℕ) : Format := if bits = 32 then binary32 else binary64

/-- To an integer type the low bits of the value are written, to a float type the nearest float. -/
def CastExact (target host : Target) (te : CoreType) (z : ℤ) (dst : ValueRef) (res : Except Failure ValueRef) :
    Prop :=
  let ti := TypeInfo.forPrimitive target te
  if ti.ty = .float then
    ∃ w, (floatFormat ti.bits).IsNearestInt z w ∧ ValueRef.Writes host dst (ti.bits / 8) w res
  else ValueRef.Writes target dst (ti.bits / 8) (z % 2 ^ ti.bits).toNat res

/-- The block of the first listed value that equals the scrutinee. -/
def chosenTarget (values : List ℕ) (targets : List ℕ) (defTarget x : ℕ) : ℕ :=
  ((values.findIdx? (· = x)).bind (targets[·]?)).getD defTarget

/-! ## When they do it -/

/-- A signed integer that is cast to a float must not be negative, or have 128 bits. A `char` that is cast to an
integer is read without its last byte. -/
def CastCondition (target : Target) (te t : CoreType) (z : ℤ) : Prop :=
  if (TypeInfo.forPrimitive target te).ty = .float then 0 ≤ z ∨ t = .i128 ∧ z ≠ -2 ^ 64
  else t = .char → target.bigEndian = true →
    z / 256 % 2 ^ (TypeInfo.forPrimitive target te).bits = z % 2 ^ (TypeInfo.forPrimitive target te).bits

/-- The number of the bytes that a switch looks at: one, and two of a `u128`. -/
def switchBytes (target : Target) (t : CoreType) : ℕ := ((TypeInfo.forPrimitive target t).bits / 8 + 7) / 8

/-- What a switch sees of the scrutinee. -/
def seen (target : Target) (t : CoreType) (x : ℕ) : ℕ :=
  if target.bigEndian then x / 2 ^ (8 * (Mir.Monomorph.size target.toTarget t - switchBytes target t))
  else x % 2 ^ (8 * switchBytes target t)

/-- The bytes seen lead, among the listed values cut to 32 bits, to the block where the scrutinee belongs. -/
def SwitchCondition (target : Target) (t : CoreType) (vals : List UInt64) (targets : List ℕ) (defTarget x : ℕ) :
    Prop :=
  t ≠ .bool ∧ chosenTarget (vals.map fun v => v.toNat % 2 ^ 32) targets defTarget (seen target t x) =
    chosenTarget (vals.map UInt64.toNat) targets defTarget x

end Mrustc.ConstEval
