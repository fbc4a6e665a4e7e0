import Mrustc.ConstEval.Values

/-! # Checked arithmetic

`do_arith_checked` evaluates a binary operator in 128 bits. It returns whether the operation overflowed; the
arms for floats and for byte strings are a parameter.
-/

namespace Mrustc.ConstEval

open Hir (CoreType)
open Mir (Param BinOp)
open Int128

/-- What an arm writes: an integer of the type and the overflow flag, or the byte of a comparison. -/
inductive Outcome
  | int (res : U128) (didOverflow : Bool)
  | byte (v : Bool)
  deriving DecidableEq, Repr

/-- The operators that compare, on the order of the operands. -/
def compareArm (ord : Ordering) : BinOp → Option Bool
  | .eq => some (ord = .eq)
  | .ne => some (ord ≠ .eq)
  | .gt => some (ord = .gt)
  | .ge => some (ord ≠ .lt)
  | .lt => some (ord = .lt)
  | .le => some (ord ≠ .gt)
  | _ => none

section Arms

variable (ti : TypeInfo)

/-- The unsigned arm. -/
def arithUnsigned (op : BinOp) (l r : U128) (saturate : Bool) : Except Failure Outcome :=
  match op with
  | .add =>
    let res := ti.mask (l.add r)
    let didOverflow := res.cmp l = .lt
    .ok (.int (if didOverflow ∧ saturate then ti.mask (U128.not ⟨0, 0⟩) else res) didOverflow)
  | .sub =>
    let res := ti.mask (l.sub r)
    let didOverflow := res.cmp l = .gt
    .ok (.int (if didOverflow ∧ saturate then ti.mask ⟨0, 0⟩ else res) didOverflow)
  | .mul =>
    let res := ti.mask (l.mul r)
    let didOverflow := l.cmp ⟨0, 0⟩ ≠ .eq ∧ r.cmp ⟨0, 0⟩ ≠ .eq ∧ (res.cmp l = .lt ∨ res.cmp r = .lt)
    .ok (.int (if didOverflow ∧ saturate then ti.mask (U128.not ⟨0, 0⟩) else res) didOverflow)
  | .div => if r.cmp ⟨0, 0⟩ = .eq then .ok (.int ⟨0, 0⟩ true) else .ok (.int (ti.mask (l.div r)) false)
  | .mod => if r.cmp ⟨0, 0⟩ = .eq then .ok (.int ⟨0, 0⟩ true) else .ok (.int (ti.mask (l.mod r)) false)
  | .addOv | .subOv | .mulOv | .divOv => .error (.todo "do_arith unsigned - val = ")
  | .bitOr => .ok (.int (l.or r) false)
  | .bitAnd => .ok (.int (l.and r) false)
  | .bitXor => .ok (.int (l.xor r) false)
  | .bitShl | .bitShr => .error (.bug "Bitshifts should be handled in caller")
  | op => .ok (.byte ((compareArm (l.cmp r) op).getD false))

/-- The sign that a signed sum should have, from the signs and absolute values of the operands. -/
def sumSign (l r : S128) : Bool :=
  let v1s := decide (l.cmp ⟨⟨0, 0⟩⟩ = .lt)
  let v2s := decide (r.cmp ⟨⟨0, 0⟩⟩ = .lt)
  let v1a := if v1s then l.inner.not.add ⟨1, 0⟩ else l.inner
  let v2a := if v2s then r.inner.not.add ⟨1, 0⟩ else r.inner
  if v1s = v2s then v1s else if v2s then v1a.cmp v2a = .lt else v1a.cmp v2a = .gt

/-- The signed arm. The limits of a saturated sum are shifted out of a zero. -/
def arithSigned (op : BinOp) (l r : S128) (saturate : Bool) : Except Failure Outcome :=
  match op with
  | .add =>
    let resSign := sumSign l r
    let res : S128 := ⟨l.inner.add r.inner⟩
    let didOverflow := decide (res.cmp ⟨⟨0, 0⟩⟩ = .lt) ≠ resSign
    let v := U128.shl ⟨0, 0⟩ (ti.bits - 1)
    .ok (.int (if didOverflow ∧ saturate then (if resSign then v else v.sub ⟨1, 0⟩) else res.inner) didOverflow)
  | .sub =>
    let res := l.sub r
    let didOverflow := res.inner.cmp (ti.maskS res) ≠ .eq
    if didOverflow ∧ saturate then .error (.todo "do_arith signed sub overflow - saturate")
    else .ok (.int (ti.maskS res) didOverflow)
  | .mul =>
    let res := l.mul r
    let didOverflow := l.cmp ⟨⟨0, 0⟩⟩ ≠ .eq ∧ r.cmp ⟨⟨0, 0⟩⟩ ≠ .eq ∧
      (res.uAbs.cmp l.uAbs = .lt ∨ res.uAbs.cmp r.uAbs = .lt)
    if didOverflow ∧ saturate then .error (.todo "do_arith signed mul overflow - saturate")
    else .ok (.int (ti.maskS res) didOverflow)
  | .div => if r.cmp ⟨⟨0, 0⟩⟩ = .eq then .ok (.int ⟨0, 0⟩ true) else .ok (.int (ti.maskS (l.div r)) false)
  | .mod => if r.cmp ⟨⟨0, 0⟩⟩ = .eq then .ok (.int ⟨0, 0⟩ true) else .ok (.int (ti.maskS (l.mod r)) false)
  | .addOv | .subOv | .mulOv | .divOv => .error (.todo "do_arith signed - val = ")
  | .bitOr => .ok (.int (l.or r).inner false)
  | .bitAnd => .ok (.int (l.and r).inner false)
  | .bitXor => .ok (.int (l.xor r).inner false)
  | .bitShl | .bitShr => .error (.bug "Bitshifts should be handled in caller")
  | op => .ok (.byte ((compareArm (l.cmp r) op).getD false))

/-- The shifts, by `amt` bits. -/
def shiftUnsigned (op : BinOp) (l : U128) (amt : ℕ) : Except Failure U128 :=
  match op with
  | .bitShl => .ok (ti.mask (l.shl amt))
  | .bitShr => .ok (ti.mask (l.shr amt))
  | _ => .error (.bug "This block should only be active for SHL/SHR")

def shiftSigned (op : BinOp) (l : S128) (amt : ℕ) : Except Failure U128 :=
  match op with
  | .bitShl => .ok (ti.maskS (l.shl amt))
  | .bitShr => .ok (ti.maskS (l.shr amt))
  | _ => .error (.bug "This block should only be active for SHL/SHR")

end Arms

section Evaluate

variable {T P : Type} [DecidableEq T] (state : CallStackEntry T P) (ty : T) (dst : ValueRef)
  (valL valR : Param P ValueRef)

def Outcome.write (ti : TypeInfo) : Outcome → Except Failure (ValueRef × Bool)
  | .int res didOverflow => do .ok (← dst.writeUint state.target ti.bits res, didOverflow)
  | .byte v => do .ok (← dst.writeByte (if v then 1 else 0), false)

/-- The amount of a shift may have any integer type. -/
def readShiftAmount (tiR : TypeInfo) : Except Failure U128 :=
  if tiR.ty = .unsigned then state.readParamUint tiR.bits valR
  else S128.inner <$> state.readParamSint tiR.bits valR

/-- The shifts; the amount is cut to 64 bits before it is compared. -/
def doShift (op : BinOp) (tyR : T) : Except Failure (ValueRef × Bool) := do
  let ti := state.typeInfo ty
  let r ← readShiftAmount state valR (state.typeInfo tyR)
  let didOverflow := decide (r.truncateU64.toNat > ti.bits)
  let amt := if didOverflow then 0 else r.truncateU64.toNat
  let res ← match ti.ty with
    | .unsigned => do shiftUnsigned ti op (← state.readParamUint ti.bits valL) amt
    | .signed => do shiftSigned ti op (← state.readParamSint ti.bits valL) amt
    | _ => .error (.bug "Invalid use of BIT_SHL/BIT_SHR on ")
  .ok (← dst.writeUint state.target ti.bits res, didOverflow)

/-- `do_arith_checked`; `tyR` is the type of the right operand, `others` are the arms that are not for
integers. -/
def doArithChecked (others : TypeInfo → BinOp → Except Failure (ValueRef × Bool)) (op : BinOp) (tyR : T)
    (saturate : Bool) : Except Failure (ValueRef × Bool) := do
  let ti := state.typeInfo ty
  if op = .bitShl ∨ op = .bitShr then doShift state ty dst valL valR op tyR
  else if ty ≠ tyR then .error (.assertion "BinOp with mismatched types")
  else
    match ti.ty with
    | .unsigned => do
      let l ← state.readParamUint ti.bits valL
      let r ← state.readParamUint ti.bits valR
      (← arithUnsigned ti op l r saturate).write state dst ti
    | .signed => do
      let l ← state.readParamSint ti.bits valL
      let r ← state.readParamSint ti.bits valR
      (← arithSigned ti op l r saturate).write state dst ti
    | _ => others ti op

end Evaluate

/-! ## What the operators are for -/

/-- The operators of the arithmetic, shifts among them. -/
def arithOps : List BinOp := [.add, .sub, .mul, .div, .mod, .bitOr, .bitAnd, .bitXor, .bitShl, .bitShr]

/-- The least and the greatest value of the type. -/
def TypeInfo.min (ti : TypeInfo) : ℤ := if ti.ty = .signed then -2 ^ (ti.bits - 1) else 0

def TypeInfo.max (ti : TypeInfo) : ℤ := if ti.ty = .signed then 2 ^ (ti.bits - 1) - 1 else 2 ^ ti.bits - 1

/-- The result before it is wrapped: none for a division by zero and for a shift by the width or more. -/
def exactResult (op : BinOp) (w : ℕ) (x y : ℤ) : Option ℤ :=
  if op = .bitShl ∨ op = .bitShr then Mir.ConstFold.shift op w x y else Mir.ConstFold.arith op w x y

/-- Sums, differences and products overflow where their result does not fit. -/
def overflows (ti : TypeInfo) (op : BinOp) (m : ℤ) : Bool := op ∈ [.add, .sub, .mul] ∧ ¬ti.Fits m

/-- What is to be reported. -/
def reported (ti : TypeInfo) (op : BinOp) (x y : ℤ) : Bool :=
  (exactResult op ti.bits x y).elim true (overflows ti op)

/-- The result that is to be written, up to multiples of `2 ^ bits`. -/
def result (ti : TypeInfo) (op : BinOp) (saturate : Bool) (m : ℤ) : ℤ :=
  if overflows ti op m ∧ saturate then (if m < 0 then ti.min else ti.max) else m

/-- The outcome has the right flag, and writes the result where there is one. -/
def ArithExact (target : Target) (ti : TypeInfo) (op : BinOp) (saturate : Bool) (x y : ℤ) (dst : ValueRef)
    (res : Except Failure (ValueRef × Bool)) : Prop :=
  ∃ dst', res = .ok (dst', reported ti op x y) ∧ dst.SameElsewhere dst' (ti.bits / 8) ∧
    ∀ m ∈ exactResult op ti.bits x y,
      dst'.Holds target (ti.bits / 8) (result ti op saturate m % 2 ^ ti.bits).toNat

/-- The product of two signed 128-bit integers: one that fits, and one that does not. -/
def WideProduct (saturate : Bool) (x y : ℤ) : Prop :=
  if -2 ^ 127 ≤ x * y ∧ x * y < 2 ^ 127 then x = 0 ∨ y = 0 ∨ (x ≠ -2 ^ 64 ∧ y ≠ -2 ^ 64)
  else saturate = false ∧ (x = -2 ^ 64 → (2 ^ 63 : ℤ) ∣ y) ∧ (y = -2 ^ 64 → (2 ^ 63 : ℤ) ∣ x) ∧
    (x = -2 ^ 64 ∨ y = -2 ^ 64 ∨
      ((x * y).bmod (2 ^ 128) ≠ -2 ^ 64 ∧ |(x * y).bmod (2 ^ 128)| < Max.max |x| |y|))

/-- When the arithmetic is exact. -/
def ArithCondition (ti : TypeInfo) (op : BinOp) (saturate : Bool) (x y : ℤ) : Prop :=
  match op with
  | .add => ti.ty = .signed → ti.Fits (x + y) ∨ (ti.bits = 128 ∧ saturate = false)
  | .sub => ti.ty = .signed → ti.Fits (x - y)
  | .mul =>
    if ti.ty = .signed then (if ti.bits = 128 then WideProduct saturate x y else ti.Fits (x * y))
    else x * y < 2 ^ ti.bits ∨ (x * y) % 2 ^ ti.bits < Max.max x y
  | .div => ti.ty = .signed → y ≠ 0 →
    (x = -2 ^ 64 → y = -2 ^ 64) ∧ (y = -2 ^ 64 → x = -2 ^ 64 ∨ |x| < 2 ^ 64)
  | .mod => ti.ty = .signed → y ≠ 0 →
    if x = -2 ^ 64 then (if 0 < y then y ∣ 2 ^ 128 - 2 ^ 65 else y ∣ 2 ^ 64)
    else if y = -2 ^ 64 then x = 0 else y < 0 → y ∣ x
  | .bitShl | .bitShr =>
    if 0 ≤ y ∧ y < ti.bits then (op = .bitShr → ti.ty = .signed → x < 0 → y ≤ 64)
    else ti.bits < y % 2 ^ 64
  | _ => True

end Mrustc.ConstEval
