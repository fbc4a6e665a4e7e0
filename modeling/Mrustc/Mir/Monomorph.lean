import Mrustc.Int128.S128
import Mrustc.Mir.Syntax

/-! # Constants under generic arguments

`Cloner::clone_constant` instantiates the constants of an inlined function, and `monomorph_Constant` those of
a function that is emitted. Both read a const generic parameter from the bytes of its evaluated argument.
-/

namespace Mrustc.Mir

open Hir (CoreType ConstGeneric TypeRef Reloc)
open Int128

/-- The target, whose pointers have 16 to 64 bits. -/
structure Target where
  pointerBits : ℕ
  bigEndian : Bool
  le_pointerBits : 16 ≤ pointerBits
  pointerBits_le : pointerBits ≤ 64

namespace Monomorph

/-- The failed assertions, `BUG`s and `TODO`s. -/
inductive Bug
  | overLargeRead
  | floatSize
  | noGenericList
  | indexOutOfRange
  | paramOutOfRange
  | paramsNotExpected
  | unexpectedParam
  | genericGroup
  | notEvaluated
  | nonPrimitive
  | wideConstGeneric
  | strConstGeneric
  deriving DecidableEq, Repr

/-- The loop of `read_uint` from byte `i` on. -/
def readLoop (bigEndian : Bool) (size : ℕ) : (i : ℕ) → List UInt8 → U128 → U128
  | _, [], v => v
  | i, b :: bs, v =>
    let bit := if bigEndian then (size - 1 - i) * 8 else i * 8
    readLoop bigEndian size (i + 1) bs
      (if bit < 128 then v.or ((U128.ofNat b.toNat).shl bit) else v)

section Read

variable (target : Target) (bytes : List UInt8)

/-- `EncodedLiteralSlice::read_uint` on a whole literal -/
def readUint (size : ℕ) : Except Bug U128 :=
  let size := if size = 0 then bytes.length else size
  if size ≤ bytes.length then .ok (readLoop target.bigEndian size 0 (bytes.take size) ⟨0, 0⟩)
  else .error .overLargeRead

/-- `EncodedLiteralSlice::read_sint` -/
def readSint (size : ℕ) : Except Bug S128 := do
  let size := if size = 0 then bytes.length else size
  let v ← readUint target bytes size
  if size < 16 ∧ (v.shr (8 * size - 1)).cmp ⟨0, 0⟩ ≠ .eq then .ok ⟨v.or (U128.max.shl (8 * size))⟩
  else .ok ⟨v⟩

end Read

/-- The generic parameters and arguments in effect. The types of the value parameters are those of the
definition; the arguments are those of the path. -/
structure Env (P : Type) where
  target : Target
  implDef : Option (List TypeRef)
  fcnDef : Option (List TypeRef)
  implParams : Option (List ConstGeneric)
  methodParams : Option (List ConstGeneric)
  monomorph : P → P
  readFloat : List UInt8 → ℕ → Except Bug UInt64

variable {P : Type} (env : Env P)

/-- `GenericRef::idx` -/
def idx (binding : ℕ) : ℕ := binding &&& 0xFF

/-- `GenericRef::group` -/
def group (binding : ℕ) : ℕ := binding >>> 8

/-- `MonomorphiserPP::get_value` -/
def getValue (binding : ℕ) : Except Bug ConstGeneric :=
  let get (params : Option (List ConstGeneric)) : Except Bug ConstGeneric :=
    match params with
    | none => .error .paramsNotExpected
    | some p => (p[idx binding]?).elim (.error .paramOutOfRange) .ok
  match group binding with
  | 0 => get env.implParams
  | 1 => get env.methodParams
  | _ => .error .unexpectedParam

/-- The list of value parameters of a definition, by the group of the parameter. -/
def paramsDef (binding : ℕ) : Except Bug (Option (List TypeRef)) :=
  match group binding with
  | 0 => .ok env.implDef
  | 1 => .ok env.fcnDef
  | _ => .error .genericGroup

/-- The evaluated arm of `clone_constant`: every type reads its own number of bytes. -/
def cloneEvaluated (bytes : List UInt8) (ct : CoreType) : Except Bug (Constant P) :=
  let uint (size : ℕ) : Except Bug (Constant P) := do
    let v ← readUint env.target bytes size
    .ok (.uint v.toNat ct)
  let int (size : ℕ) : Except Bug (Constant P) := do
    let v ← readSint env.target bytes size
    .ok (.int v.toInt ct)
  let float (size : ℕ) : Except Bug (Constant P) := do
    let v ← env.readFloat bytes size
    .ok (.float v ct)
  match ct with
  | .bool => do
    let v ← readUint env.target bytes 1
    .ok (.bool (v = ⟨0, 0⟩))
  | .u8 => uint 1
  | .u16 => uint 2
  | .u32 => uint 4
  | .u64 => uint 8
  | .usize => uint (env.target.pointerBits / 8)
  | .u128 => .error .wideConstGeneric
  | .i8 => int 1
  | .i16 => int 2
  | .i32 => int 4
  | .i64 => int 8
  | .isize => int (env.target.pointerBits / 8)
  | .i128 => .error .wideConstGeneric
  | .f32 => float 4
  | .f64 => float 8
  | .char => uint 4
  | .str => .error .strConstGeneric

/-- `Cloner::clone_constant` -/
def cloneConstant (src : Constant P) : Except Bug (Constant P) :=
  match src with
  | .int v t => .ok (.int v t)
  | .uint v t => .ok (.uint v t)
  | .float v t => .ok (.float v t)
  | .bool v => .ok (.bool v)
  | .bytes v => .ok (.bytes v)
  | .staticString v => .ok (.staticString v)
  | .const p => .ok (.const (env.monomorph p))
  | .generic binding => do
    let p ← (← paramsDef env binding).elim (.error .noGenericList) .ok
    let ty ← (p[idx binding]?).elim (.error .indexOutOfRange) .ok
    match ← getValue env binding with
    | .generic ve => .ok (.generic ve)
    | .evaluated bytes _ =>
      match ty with
      | .primitive ct => cloneEvaluated env bytes ct
      | _ => .error .nonPrimitive
    | _ => .error .notEvaluated
  | .function p => .ok (.function (env.monomorph p))
  | .itemAddr none => .ok (.itemAddr none)
  | .itemAddr (some p) => .ok (.itemAddr (some (env.monomorph p)))

/-- The evaluated arm of `monomorph_Constant`: every type reads all bytes. -/
def monomorphEvaluated (bytes : List UInt8) (ty : CoreType) : Except Bug (Constant P) :=
  match ty with
  | .char | .usize | .u128 | .u64 | .u32 | .u16 | .u8 => do
    let v ← readUint env.target bytes bytes.length
    .ok (.uint v.toNat ty)
  | .bool => do
    let v ← readUint env.target bytes bytes.length
    .ok (.bool (v ≠ ⟨0, 0⟩))
  | .isize | .i128 | .i64 | .i32 | .i16 | .i8 => do
    let v ← readSint env.target bytes bytes.length
    .ok (.int v.toInt ty)
  | .f32 | .f64 => do
    let v ← env.readFloat bytes bytes.length
    .ok (.float v ty)
  | .str => .error .strConstGeneric

/-- `monomorph_Constant`. The generics of the resolver are empty where the definition has none. -/
def monomorphConstant (tpl : Constant P) : Except Bug (Constant P) :=
  match tpl with
  | .int v t => .ok (.int v t)
  | .uint v t => .ok (.uint v t)
  | .float v t => .ok (.float v t)
  | .bool v => .ok (.bool v)
  | .bytes v => .ok (.bytes v)
  | .staticString v => .ok (.staticString v)
  | .const p => .ok (.const (env.monomorph p))
  | .generic binding => do
    match ← getValue env binding with
    | .evaluated bytes _ =>
      let defs := (← paramsDef env binding).getD []
      match ← (defs[idx binding]?).elim (.error .indexOutOfRange) .ok with
      | .primitive ty => monomorphEvaluated env bytes ty
      | _ => .error .nonPrimitive
    | _ => .error .notEvaluated
  | .function p => .ok (.function (env.monomorph p))
  | .itemAddr none => .ok (.itemAddr none)
  | .itemAddr (some p) => .ok (.itemAddr (some (env.monomorph p)))

end Monomorph

end Mrustc.Mir
