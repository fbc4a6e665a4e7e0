import Mrustc.Int128.Exact
import Mrustc.Mir.ConstFold

/-! # The meaning of folded expressions

Casts and operators of Rust, with 64-bit pointers, as wrapping arithmetic on integers; and what the
truncations of the pass do to an integer.
-/

namespace Mrustc.Mir.ConstFold

open Hir (CoreType)
open Int128

section Spec

variable {P : Type}

/-- The integer types by signedness and width. -/
def intTy : CoreType → Option (Bool × ℕ)
  | .u8 => some (false, 8)
  | .u16 => some (false, 16)
  | .u32 => some (false, 32)
  | .u64 | .usize => some (false, 64)
  | .u128 => some (false, 128)
  | .i8 => some (true, 8)
  | .i16 => some (true, 16)
  | .i32 => some (true, 32)
  | .i64 | .isize => some (true, 64)
  | .i128 => some (true, 128)
  | _ => none

/-- The value is in the range of the type. -/
def fits (t : CoreType) (z : ℤ) : Bool :=
  match intTy t with
  | some (true, w) => -2 ^ (w - 1) ≤ z && z < 2 ^ (w - 1)
  | some (false, w) => 0 ≤ z && z < 2 ^ w
  | none =>
    match t with
    | .bool => z = 0 || z = 1
    | .char => 0 ≤ z && z < 0x110000 && !(0xD800 ≤ z && z < 0xE000)
    | _ => false

/-- The type and the value of a constant that is in range. -/
def number : Constant P → Option (CoreType × ℤ)
  | .int v t => if ((intTy t).any fun ty => ty.1) && fits t v then some (t, v) else none
  | .uint v t =>
    if ((intTy t).all fun ty => !ty.1) && t ≠ .bool && fits t v then some (t, v) else none
  | .bool v => some (.bool, v.toNat)
  | _ => none

/-- The constant of a type with a value. -/
def ofNumber (t : CoreType) (z : ℤ) : Constant P :=
  match intTy t with
  | some (true, _) => .int z t
  | some (false, _) => .uint z.toNat t
  | none => if t = .bool then .bool (z ≠ 0) else .uint z.toNat t

/-- The representative of `z` in the range of the type. -/
def wrap (t : CoreType) (z : ℤ) : ℤ :=
  match intTy t with
  | some (true, w) => z.bmod (2 ^ w)
  | some (false, w) => z % 2 ^ w
  | none => z

/-- The operators on two integers of one type with `w` bits, before wrapping. -/
def arith (op : BinOp) (w : ℕ) (x y : ℤ) : Option ℤ :=
  match op with
  | .add => some (x + y)
  | .sub => some (x - y)
  | .mul => some (x * y)
  | .div => if y = 0 then none else some (x.tdiv y)
  | .mod => if y = 0 then none else some (x.tmod y)
  | .bitAnd => some (BitVec.ofInt w x &&& BitVec.ofInt w y).toInt
  | .bitOr => some (BitVec.ofInt w x ||| BitVec.ofInt w y).toInt
  | .bitXor => some (BitVec.ofInt w x ^^^ BitVec.ofInt w y).toInt
  | _ => none

/-- The operators on two values of one type without order. -/
def compareOp (op : BinOp) (x y : ℤ) : Option Bool :=
  match op with
  | .eq => some (x = y)
  | .ne => some (x ≠ y)
  | .lt => some (x < y)
  | .le => some (x ≤ y)
  | .gt => some (x > y)
  | .ge => some (x ≥ y)
  | _ => none

/-- The operators on two booleans. -/
def boolOp (op : BinOp) (x y : ℤ) : Option Bool :=
  match op with
  | .bitAnd => some (x ≠ 0 && y ≠ 0)
  | .bitOr => some (x ≠ 0 || y ≠ 0)
  | .bitXor => some ((x ≠ 0) != (y ≠ 0))
  | _ => none

/-- A shift by less than the width. -/
def shift (op : BinOp) (w : ℕ) (x y : ℤ) : Option ℤ :=
  if 0 ≤ y ∧ y < w then
    match op with
    | .bitShl => some (x * 2 ^ y.toNat)
    | .bitShr => some (x >>> y.toNat)
    | _ => none
  else none

def evalShift (op : BinOp) (t : CoreType) (x : ℤ) (t' : CoreType) (y : ℤ) : Option (Constant P) := do
  let (_, w) ← intTy t
  let _ ← intTy t'
  let z ← shift op w x y
  some (ofNumber t (wrap t z))

def evalCompare (op : BinOp) (t : CoreType) (x : ℤ) (t' : CoreType) (y : ℤ) : Option (Constant P) :=
  if t = t' then (compareOp op x y).map .bool else none

def evalArith (op : BinOp) (t : CoreType) (x : ℤ) (t' : CoreType) (y : ℤ) : Option (Constant P) :=
  if t ≠ t' then none
  else if t = .bool then (boolOp op x y).map .bool
  else do
    let (_, w) ← intTy t
    let z ← arith op w x y
    some (ofNumber t (wrap t z))

def evalBinOp (op : BinOp) : (t : CoreType) → ℤ → (t' : CoreType) → ℤ → Option (Constant P) :=
  match op with
  | .bitShl | .bitShr => evalShift op
  | .eq | .ne | .lt | .le | .gt | .ge => evalCompare op
  | _ => evalArith op

def evalUniOp (op : UniOp) (t : CoreType) (x : ℤ) : Option (Constant P) :=
  match op, intTy t with
  | .inv, some _ => some (ofNumber t (wrap t (-x - 1)))
  | .inv, none => if t = .bool then some (.bool (x = 0)) else none
  | .neg, some (true, _) => some (ofNumber t (wrap t (-x)))
  | .neg, _ => none

/-- The value in Rust of the casts, and operators on integers, characters and booleans. -/
def eval (src : RValue CoreType P (Constant P)) : Option (Constant P) :=
  match src with
  | .cast val type => do
    let (_, z) ← number val
    let _ ← intTy type
    some (ofNumber type (wrap type z))
  | .binOp l op r => do
    let (t, x) ← number (← known l)
    let (t', y) ← number (← known r)
    evalBinOp op t x t' y
  | .uniOp val op => do
    let (t, x) ← number val
    evalUniOp op t x
  | _ => none

/-- Nothing is folded, or the constant is `c` and in range. -/
def FoldsTo (o : Folded P) (c : Constant P) : Prop :=
  ∃ new, o = .ok new ∧ ∀ c' ∈ new, c' = c ∧ (number c').isSome

end Spec

section Truncate

variable {t : CoreType} {w : ℕ} {z : ℤ}

theorem toNat_and_mask {v m : U128} (hm : m.toNat = 2 ^ w - 1) : (v.and m).toNat = v.toNat % 2 ^ w := by
  rw [← U128.toNat_bits, U128.bits_and, BitVec.toNat_and, U128.toNat_bits, U128.toNat_bits, hm,
    Nat.and_two_pow_sub_one_eq_mod]

theorem toNat_mask (hw : w < 128) : (U128.ofNat (2 ^ w - 1)).toNat = 2 ^ w - 1 := by
  rw [U128.toNat_ofNat, Nat.mod_eq_of_lt]
  exact (Nat.sub_le _ _).trans_lt (Nat.pow_lt_pow_right one_lt_two hw)

theorem toNat_mask64 : (⟨BitVec.allOnes 64, 0⟩ : U128).toNat = 2 ^ 64 - 1 := by
  rw [U128.toNat_low, BitVec.toNat_allOnes]

theorem toNat_truncateU {s : Bool} (ht : intTy t = some (s, w)) (v : U128) :
    (truncateU 64 t v).toNat = v.toNat % 2 ^ w := by
  cases t
  case u8 | i8 =>
    obtain ⟨-, rfl⟩ := Prod.mk.inj (Option.some.inj ht)
    exact toNat_and_mask (toNat_mask (w := 8) (by norm_num))
  case u16 | i16 =>
    obtain ⟨-, rfl⟩ := Prod.mk.inj (Option.some.inj ht)
    exact toNat_and_mask (toNat_mask (w := 16) (by norm_num))
  case u32 | i32 =>
    obtain ⟨-, rfl⟩ := Prod.mk.inj (Option.some.inj ht)
    exact toNat_and_mask (toNat_mask (w := 32) (by norm_num))
  case u64 | i64 | usize | isize =>
    obtain ⟨-, rfl⟩ := Prod.mk.inj (Option.some.inj ht)
    exact toNat_and_mask toNat_mask64
  case u128 | i128 =>
    obtain ⟨-, rfl⟩ := Prod.mk.inj (Option.some.inj ht)
    exact (Nat.mod_eq_of_lt v.toNat_lt).symm
  all_goals exact absurd ht (by simp [intTy])

theorem width_pos {s : Bool} (ht : intTy t = some (s, w)) : 0 < w ∧ w ≤ 128 := by
  cases t <;> simp only [intTy, Option.some.injEq, Prod.mk.injEq, reduceCtorEq] at ht <;> omega

theorem toNat_max_shl (hw : w < 128) : (U128.max.shl w).toNat = 2 ^ 128 - 2 ^ w := by
  have hle : 2 ^ w ≤ 2 ^ 128 := Nat.pow_le_pow_right two_pos hw.le
  have hpos := Nat.two_pow_pos w
  have hmax : U128.max = U128.ofInt (-1) := by decide
  have hadd : (-1 * 2 ^ w : ℤ) = ((2 ^ 128 - 2 ^ w : ℕ) : ℤ) + 2 ^ 128 * (-1) := by
    rw [Nat.cast_sub hle]
    push_cast
    ring
  rw [hmax, S128.ushl_ofInt, S128.toNat_ofInt, hadd, Int.add_mul_emod_self_left,
    Int.emod_eq_of_lt (by omega) (by omega), Int.toNat_natCast]

theorem toNat_or_shl {v : U128} (hw : w < 128) (hv : v.toNat < 2 ^ w) :
    (v.or (U128.max.shl w)).toNat = v.toNat + (2 ^ 128 - 2 ^ w) := by
  have hpow : 2 ^ 128 = 2 ^ w * 2 ^ (128 - w) := by rw [← pow_add, Nat.add_sub_cancel' hw.le]
  have hmul : 2 ^ 128 - 2 ^ w = 2 ^ w * (2 ^ (128 - w) - 1) := by rw [Nat.mul_sub, mul_one, hpow]
  rw [← U128.toNat_bits, U128.bits_or, BitVec.toNat_or, U128.toNat_bits, U128.toNat_bits,
    toNat_max_shl hw, hmul, Nat.or_comm, ← Nat.two_pow_add_eq_or_of_lt hv, add_comm]

theorem sext_eq (v : U128) (k : ℕ) :
    sext v (k + 1) = if v.toNat < 2 ^ k then ⟨v⟩ else ⟨v.or (U128.max.shl (k + 1))⟩ := by
  have hshr : (v.shr k).toNat = v.toNat / 2 ^ k := by
    rw [← U128.toNat_bits, U128.bits_shr, BitVec.toNat_ushiftRight, Nat.shiftRight_eq_div_pow,
      U128.toNat_bits]
  rw [sext, Nat.add_sub_cancel, U128.cmp_eq, hshr, U128.toNat_zero]
  simp only [ne_eq, compare_eq_iff_eq, Nat.div_eq_zero_iff_lt (Nat.two_pow_pos k), ite_not]

theorem toInt_mk (v : U128) : (⟨v⟩ : S128).toInt =
    if 2 * v.toNat < 2 ^ 128 then (v.toNat : ℤ) else (v.toNat : ℤ) - (2 ^ 128 : ℕ) :=
  BitVec.toInt_eq_toNat_cond v.bits

/-- Sign extension of a number with `w` bits. -/
theorem toInt_sext {v : U128} (hw : 0 < w ∧ w < 128) (hv : v.toNat < 2 ^ w) :
    (sext v w).toInt = (v.toNat : ℤ).bmod (2 ^ w) := by
  obtain ⟨k, rfl⟩ := Nat.exists_eq_succ_of_ne_zero hw.1.ne'
  have hlt : 2 ^ (k + 1) < 2 ^ 128 := Nat.pow_lt_pow_right one_lt_two hw.2
  have hor := toNat_or_shl hw.2 hv
  have hpos := Nat.two_pow_pos k
  rw [Nat.succ_eq_add_one] at hv hor ⊢
  rw [sext_eq]
  by_cases h : v.toNat < 2 ^ k
  · rw [if_pos h, toInt_mk]
    rw [pow_succ] at hlt hv ⊢
    rw [if_pos (by omega), Int.bmod_eq_of_le (by omega) (by omega)]
  · rw [if_neg h, toInt_mk, hor]
    rw [pow_succ] at hlt hv ⊢
    rw [if_neg (by omega), Int.bmod_def, Int.emod_eq_of_lt (by omega) (by omega), if_neg (by omega)]
    omega

theorem wrap_signed (ht : intTy t = some (true, w)) (z : ℤ) : wrap t z = z.bmod (2 ^ w) := by
  rw [wrap, ht]

theorem wrap_unsigned (ht : intTy t = some (false, w)) (z : ℤ) : wrap t z = z % 2 ^ w := by
  rw [wrap, ht]

theorem toNat_emod_emod (hw : w ≤ 128) (z : ℤ) : (z % 2 ^ 128).toNat % 2 ^ w = (z % 2 ^ w).toNat := by
  have hdvd : (2 ^ w : ℤ) ∣ 2 ^ 128 := pow_dvd_pow 2 hw
  have hnn : 0 ≤ z % 2 ^ 128 := Int.emod_nonneg _ (by norm_num)
  rw [← Int.emod_emod_of_dvd z hdvd]
  obtain ⟨m, hm⟩ := Int.eq_ofNat_of_zero_le hnn
  rw [hm]
  norm_cast

/-- The unsigned truncation wraps. -/
theorem truncateU_ofInt (ht : intTy t = some (false, w)) (z : ℤ) :
    (truncateU 64 t (U128.ofInt z)).toNat = (wrap t z).toNat := by
  rw [toNat_truncateU ht, S128.toNat_ofInt, wrap_unsigned ht, toNat_emod_emod (width_pos ht).2]

/-- The signed truncation wraps, but not for `isize`. -/
theorem truncateS_ofInt (ht : intTy t = some (true, w)) (hsize : t ≠ .isize) (z : ℤ) :
    (truncateS 64 t (S128.ofInt z)).toInt = wrap t z := by
  have hmod : ((truncateU 64 t (U128.ofInt z)).toNat : ℤ) = z % 2 ^ w := by
    rw [toNat_truncateU ht, S128.toNat_ofInt, toNat_emod_emod (width_pos ht).2,
      Int.toNat_of_nonneg (Int.emod_nonneg _ (by positivity))]
  have hlt : (truncateU 64 t (U128.ofInt z)).toNat < 2 ^ w := by
    rw [toNat_truncateU ht]
    exact Nat.mod_lt _ (Nat.two_pow_pos w)
  have hsext (hw : w < 128) :
      (sext (truncateU 64 t (U128.ofInt z)) w).toInt = wrap t z := by
    rw [toInt_sext ⟨(width_pos ht).1, hw⟩ hlt, hmod, wrap_signed ht]
    exact_mod_cast Int.emod_bmod z (2 ^ w)
  cases t
  case i8 | i16 | i32 | i64 =>
    obtain ⟨-, rfl⟩ := Prod.mk.inj (Option.some.inj ht)
    exact hsext (by norm_num)
  case i128 =>
    obtain ⟨-, rfl⟩ := Prod.mk.inj (Option.some.inj ht)
    exact S128.toInt_ofInt z
  case isize => exact absurd rfl hsize
  all_goals exact absurd ht (by simp [intTy])

theorem truncateS_isize (v : S128) : truncateS 64 .isize v = v := rfl

end Truncate

section Numbers

variable {P : Type} {t t' : CoreType} {w : ℕ} {z : ℤ} {c : Constant P}

theorem fits_signed (ht : intTy t = some (true, w)) :
    fits t z = true ↔ -2 ^ (w - 1) ≤ z ∧ z < 2 ^ (w - 1) := by
  simp [fits, ht]

theorem fits_unsigned (ht : intTy t = some (false, w)) : fits t z = true ↔ 0 ≤ z ∧ z < 2 ^ w := by
  simp [fits, ht]

theorem fits_wrap {s : Bool} (ht : intTy t = some (s, w)) (z : ℤ) : fits t (wrap t z) = true := by
  have hpos := Nat.two_pow_pos w
  cases s
  · rw [fits_unsigned ht, wrap_unsigned ht]
    exact ⟨Int.emod_nonneg _ (by positivity), Int.emod_lt_of_pos _ (by positivity)⟩
  · obtain ⟨k, rfl⟩ := Nat.exists_eq_succ_of_ne_zero (width_pos ht).1.ne'
    have h1 := Int.le_bmod (x := z) hpos
    have h2 := Int.bmod_lt (x := z) hpos
    rw [fits_signed ht, wrap_signed ht]
    rw [Nat.succ_eq_add_one, pow_succ] at h1 h2 ⊢
    push_cast at h1 h2
    rw [Nat.add_sub_cancel]
    omega

theorem wrap_of_fits {s : Bool} (ht : intTy t = some (s, w)) (h : fits t z = true) : wrap t z = z := by
  cases s
  · rw [fits_unsigned ht] at h
    rw [wrap_unsigned ht, Int.emod_eq_of_lt h.1 h.2]
  · obtain ⟨k, rfl⟩ := Nat.exists_eq_succ_of_ne_zero (width_pos ht).1.ne'
    rw [fits_signed ht, Nat.succ_eq_add_one, Nat.add_sub_cancel] at h
    rw [wrap_signed ht, Nat.succ_eq_add_one, pow_succ, Int.bmod_eq_of_le]
    · push_cast
      omega
    · push_cast
      omega

theorem wrap_eq_iff {s : Bool} (ht : intTy t = some (s, w)) : wrap t z = z ↔ fits t z = true :=
  ⟨fun h => h ▸ fits_wrap ht z, wrap_of_fits ht⟩

theorem number_ofNumber {s : Bool} (ht : intTy t = some (s, w)) (h : fits t z = true) :
    number (ofNumber t z : Constant P) = some (t, z) := by
  cases s
  · have hz : ((z.toNat : ℕ) : ℤ) = z := Int.toNat_of_nonneg ((fits_unsigned ht).mp h).1
    have hbool : t ≠ .bool := fun hb => by simp [hb, intTy] at ht
    simp [number, ofNumber, ht, hz, h, hbool]
  · simp [number, ofNumber, ht, h]

theorem number_int {v : ℤ} (h : number (.int v t' : Constant P) = some (t, z)) :
    t' = t ∧ v = z ∧ (∃ w, intTy t = some (true, w)) ∧ fits t z = true := by
  simp only [number, Option.ite_none_right_eq_some, Bool.and_eq_true, Option.some.injEq,
    Prod.mk.injEq] at h
  obtain ⟨⟨hs, hf⟩, rfl, rfl⟩ := h
  cases ht : intTy t' with
  | none => simp [ht] at hs
  | some ty =>
    obtain ⟨s, w⟩ := ty
    obtain rfl : s = true := by simpa [ht] using hs
    exact ⟨rfl, rfl, ⟨w, rfl⟩, hf⟩

theorem number_uint {v : ℕ} (h : number (.uint v t' : Constant P) = some (t, z)) :
    t' = t ∧ v = z ∧ ((∃ w, intTy t = some (false, w)) ∨ t = .char) ∧ fits t z = true := by
  simp only [number, Option.ite_none_right_eq_some, Bool.and_eq_true, Option.some.injEq,
    Prod.mk.injEq, decide_eq_true_eq] at h
  obtain ⟨⟨⟨hs, hb⟩, hf⟩, rfl, rfl⟩ := h
  refine ⟨rfl, rfl, ?_, hf⟩
  cases ht : intTy t' with
  | none =>
    right
    revert hf
    cases t' <;> simp_all [fits, intTy]
  | some ty =>
    obtain ⟨s, w⟩ := ty
    obtain rfl : s = false := by simpa [ht] using hs
    exact .inl ⟨w, rfl⟩

/-- The constants in range are the signed and unsigned integers, characters and booleans. -/
theorem number_eq_some (h : number c = some (t, z)) : c = ofNumber t z ∧ fits t z = true := by
  cases c with
  | int v t' =>
    obtain ⟨rfl, rfl, ⟨w, ht⟩, hf⟩ := number_int h
    exact ⟨by simp [ofNumber, ht], hf⟩
  | uint v t' =>
    obtain ⟨rfl, rfl, ⟨w, ht⟩ | rfl, hf⟩ := number_uint h
    · exact ⟨by simp [ofNumber, ht], hf⟩
    · exact ⟨by simp [ofNumber, intTy], hf⟩
  | bool v =>
    obtain ⟨rfl, rfl⟩ := Prod.mk.inj (Option.some.inj h)
    cases v <;> exact ⟨by simp [ofNumber, intTy], rfl⟩
  | _ => cases h

end Numbers

end Mrustc.Mir.ConstFold
