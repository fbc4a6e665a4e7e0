import Mrustc.Int128.Arith
import Mrustc.Int128.Exact
import Mrustc.Miri.Operators

/-! # Which operations of the interpreter are Rust's -/

namespace Mrustc.Miri

open Mrustc.Int128

namespace RawType

def isInteger : RawType → Bool
  | .function | .unit | .bool | .f32 | .f64 | .char => false
  | _ => true

def signed : RawType → Bool
  | .i8 | .i16 | .i32 | .i64 | .i128 | .isize => true
  | _ => false

theorem primitiveClass_bits {t : RawType} {c : PrimitiveClass} (h : t.primitiveClass = some c) :
    c.bits = t.bits ∧ c.signed = t.signed := by
  cases t <;> cases h <;> exact ⟨rfl, rfl⟩

theorem bits_pos {t : RawType} (h : t.isInteger = true) : 0 < t.bits := by
  cases t <;> first | decide | cases h

end RawType

namespace Value

def toInt (v : Value) : ℤ := valueOf v.ty.signed v.bytes

/-- The value of a type that an integer wraps to. -/
def ofInt (t : RawType) (z : ℤ) : Value := ⟨t, BitVec.ofInt t.bits z⟩

theorem read_toNat (v : Value) {w : ℕ} (h : w = v.ty.bits) : (v.read w).toNat = v.bytes.toNat := by
  subst h
  simp [read]

theorem read_toInt (v : Value) {w : ℕ} (h : w = v.ty.bits) : (v.read w).toInt = v.bytes.toInt := by
  subst h
  simp [read]

theorem write_ofInt (t : RawType) {w : ℕ} (h : w = t.bits) (z : ℤ) :
    write t (BitVec.ofInt w z) = ofInt t z := by
  subst h
  simp [write, ofInt]

theorem write_injective (t : RawType) {w : ℕ} (h : w = t.bits) {a b : BitVec w} (hab : write t a = write t b) :
    a = b := by
  subst h
  simpa [write] using hab

end Value

/-- A result that is the number asked for, or a report where one is asked for. -/
def Meets (r : Except Fault Value) (meant : Option Value) : Prop :=
  match r, meant with
  | .ok v, some v' => v = v'
  | .error f, none => f.isReport = true
  | _, _ => False

/-- The same for the bits of a result. -/
def MeetsBits {w : ℕ} (r : Except Fault (BitVec w)) (meant : Option ℤ) : Prop :=
  match r, meant with
  | .ok v, some z => v = BitVec.ofInt w z
  | .error f, none => f.isReport = true
  | _, _ => False

theorem meets_map_write {t : RawType} {w : ℕ} (h : w = t.bits) (r : Except Fault (BitVec w)) (meant : Option ℤ) :
    Meets (r.map (Value.write t)) (meant.map (Value.ofInt t)) ↔ MeetsBits r meant := by
  cases r with
  | error f => cases meant <;> exact Iff.rfl
  | ok v =>
    cases meant with
    | none => exact Iff.rfl
    | some z =>
      change Value.write t v = Value.ofInt t z ↔ v = BitVec.ofInt w z
      rw [← Value.write_ofInt t h]
      exact ⟨Value.write_injective t h, congrArg _⟩

/-! ## Comparisons -/

inductive Comparison
  | eq | ne | gt | ge | lt | le
  deriving DecidableEq, Repr

namespace Comparison

def toBinOp : Comparison → Mir.BinOp
  | .eq => .eq
  | .ne => .ne
  | .gt => .gt
  | .ge => .ge
  | .lt => .lt
  | .le => .le

def holds : Comparison → ℤ → ℤ → Bool
  | .eq, x, y => x = y
  | .ne, x, y => x ≠ y
  | .gt, x, y => y < x
  | .ge, x, y => y ≤ x
  | .lt, x, y => x < y
  | .le, x, y => x ≤ y

end Comparison

/-- The order of two numbers, -1, 0 or 1. -/
def orderOf (x y : ℤ) : ℤ := if x = y then 0 else if x < y then -1 else 1

theorem comparisonHolds_orderOf (op : Comparison) (x y : ℤ) :
    comparisonHolds op.toBinOp (orderOf x y) = op.holds x y := by
  have h := lt_trichotomy x y
  unfold orderOf
  cases op <;> simp only [comparisonHolds, Comparison.toBinOp, Comparison.holds] <;> split_ifs <;>
    simp <;> omega

theorem doCompare_eq {T : Type} [BEq T] [LT T] [DecidableLT T] (f : T → ℤ)
    (heq : ∀ a b : T, (a == b) = decide (f a = f b)) (hlt : ∀ a b : T, a < b ↔ f a < f b) (l r : T) :
    Ops.doCompare l r = orderOf (f l) (f r) := by
  unfold Ops.doCompare orderOf bne
  rw [heq]
  by_cases h : f l = f r
  · simp [h]
  · simp [h, hlt]

theorem doCompare_unsigned (l r : Value) {w : ℕ} (hl : w = l.ty.bits) (hr : w = r.ty.bits)
    (sl : l.ty.signed = false) (sr : r.ty.signed = false) :
    Ops.doCompare (l.read w).toNat (r.read w).toNat = orderOf l.toInt r.toInt := by
  rw [doCompare_eq (fun n : ℕ => (n : ℤ)) (fun a b => Bool.eq_iff_iff.mpr (by simp)) (by simp), l.read_toNat hl,
    r.read_toNat hr]
  simp only [Value.toInt, valueOf, sl, sr, Bool.false_eq_true, if_false]

theorem doCompare_signed (l r : Value) {w : ℕ} (hl : w = l.ty.bits) (hr : w = r.ty.bits)
    (sl : l.ty.signed = true) (sr : r.ty.signed = true) :
    Ops.doCompare (l.read w).toInt (r.read w).toInt = orderOf l.toInt r.toInt := by
  rw [doCompare_eq id (fun a b => Bool.eq_iff_iff.mpr (by simp)) (by simp), l.read_toInt hl, r.read_toInt hr]
  simp only [Value.toInt, valueOf, sl, sr, if_true, id]

theorem doCompare_u128 (l r : U128) : Ops.doCompare l r = orderOf l.toNat r.toNat := by
  apply doCompare_eq (fun v : U128 => (v.toNat : ℤ))
  · intro a b
    change (a.cmp b == .eq) = _
    rw [U128.cmp_eq]
    exact Bool.eq_iff_iff.mpr (by simp)
  · intro a b
    change a.cmp b = .lt ↔ _
    rw [U128.cmp_eq, compare_lt_iff_lt]
    simp

theorem doCompare_i128 (l r : S128) : Ops.doCompare l r = orderOf l.toInt r.toInt := by
  apply doCompare_eq S128.toInt
  · intro a b
    change (a.cmp b == .eq) = _
    rw [S128.cmp_exact]
    exact Bool.eq_iff_iff.mpr (by simp)
  · intro a b
    change a.cmp b = .lt ↔ _
    rw [S128.cmp_exact, compare_lt_iff_lt]

theorem toNat_ofBits (v : BitVec 128) : (U128.ofBits v).toNat = v.toNat :=
  congrArg BitVec.toNat (U128.bits_ofBits v)

theorem toInt_ofBits (v : BitVec 128) : (S128.mk (U128.ofBits v)).toInt = v.toInt :=
  congrArg BitVec.toInt (U128.bits_ofBits v)

theorem compareValues_eq {t : RawType} (ht : t.isInteger = true) (l r : BitVec t.bits) :
    compareValues ⟨t, l⟩ ⟨t, r⟩ = .ok (orderOf (valueOf t.signed l) (valueOf t.signed r)) := by
  cases t
  case u128 =>
    apply congrArg Except.ok
    rw [doCompare_u128, toNat_ofBits, toNat_ofBits, Value.read_toNat _ (w := 128) rfl,
      Value.read_toNat _ (w := 128) rfl]
    rfl
  case i128 =>
    apply congrArg Except.ok
    rw [doCompare_i128, toInt_ofBits, toInt_ofBits, Value.read_toInt _ (w := 128) rfl,
      Value.read_toInt _ (w := 128) rfl]
    simp only [valueOf, RawType.signed, if_true]
  case u8 | u16 | u32 | u64 | usize => exact congrArg Except.ok (doCompare_unsigned _ _ rfl rfl rfl rfl)
  case i8 | i16 | i32 | i64 | isize => exact congrArg Except.ok (doCompare_signed _ _ rfl rfl rfl rfl)
  all_goals cases ht

theorem comparison_right {t : RawType} (ht : t.isInteger = true) (op : Comparison) (l r : BitVec t.bits) :
    Meets (binOp op.toBinOp ⟨t, l⟩ ⟨t, r⟩)
      (some (Value.ofInt .bool (if op.holds (valueOf t.signed l) (valueOf t.signed r) then 1 else 0))) := by
  have h : binOp op.toBinOp ⟨t, l⟩ ⟨t, r⟩ = compareOp op.toBinOp ⟨t, l⟩ ⟨t, r⟩ := by cases op <;> rfl
  rw [h]
  simp only [compareOp, ensure, if_true, bind, Except.bind, compareValues_eq ht, comparisonHolds_orderOf]
  cases op.holds (valueOf t.signed l) (valueOf t.signed r) <;> rfl

/-! ## Bits -/

theorem bitwise_right {t : RawType} (ht : t.isInteger = true) (op : Mir.BinOp) (l r : BitVec t.bits) :
    bitwiseOp op ⟨t, l⟩ ⟨t, r⟩ = .ok ⟨t, Ops.doBitwise op l r⟩ := by
  have hw {w : ℕ} (hw : w = t.bits) :
      (.ok (Value.write t (Ops.doBitwise op (Value.read ⟨t, l⟩ w) (Value.read ⟨t, r⟩ w))) : Except Fault Value) =
        .ok ⟨t, Ops.doBitwise op l r⟩ := by
    subst hw
    simp [Value.read, Value.write]
  cases t
  case u8 | u16 | u32 | u64 | u128 | usize | i8 | i16 | i32 | i64 | i128 | isize => exact hw rfl
  all_goals cases ht

/-! ## Arithmetic -/

inductive Arithmetic
  | add | sub | mul | div | mod
  deriving DecidableEq, Repr

/-- Divisions that Rust refuses. -/
def Refused (signed : Bool) (w : ℕ) (x y : ℤ) : Prop :=
  y = 0 ∨ signed = true ∧ x = -2 ^ (w - 1) ∧ y = -1

instance (signed : Bool) (w : ℕ) (x y : ℤ) : Decidable (Refused signed w x y) :=
  inferInstanceAs (Decidable (_ ∨ _))

namespace Arithmetic

def toBinOp : Arithmetic → Mir.BinOp
  | .add => .add
  | .sub => .sub
  | .mul => .mul
  | .div => .div
  | .mod => .mod

/-- The mathematical result, none where Rust refuses the operation. -/
def meant (op : Arithmetic) (signed : Bool) (w : ℕ) (x y : ℤ) : Option ℤ :=
  match op with
  | .add => some (x + y)
  | .sub => some (x - y)
  | .mul => some (x * y)
  | .div => if Refused signed w x y then none else some (x.tdiv y)
  | .mod => if Refused signed w x y then none else some (x.tmod y)

/-- The operands on which the template of an operator has the right result. -/
def Sound (op : Arithmetic) (signed : Bool) (w : ℕ) (x y : ℤ) : Prop :=
  match op with
  | .add => signed = true → Fits true w (x + y)
  | .sub => signed = true → Fits true w (x - y)
  | .mul => if signed then Fits true w (x * y) else w < 32 → x * y < 2 ^ 31
  | .div | .mod => ¬ Refused signed w x y

/-- The value left by the template of an operator. -/
def template (op : Arithmetic) (signed : Bool) {w : ℕ} (v x : BitVec w) : Except Fault (BitVec w) :=
  match op with
  | .add => if signed then (PrimitiveSInt.add v x).map Prod.fst else (PrimitiveUInt.add v x).map Prod.fst
  | .sub =>
    if signed then (PrimitiveSInt.subtract v x).map Prod.fst else (PrimitiveUInt.subtract v x).map Prod.fst
  | .mul =>
    if signed then (PrimitiveSInt.multiply v x).map Prod.fst else (PrimitiveUInt.multiply v x).map Prod.fst
  | .div =>
    if signed then (PrimitiveSInt.divide v x).map Prod.fst else (PrimitiveUInt.divide v x).map Prod.fst
  | .mod =>
    if signed then (PrimitiveSInt.modulo v x).map Prod.fst else (PrimitiveUInt.modulo v x).map Prod.fst

end Arithmetic

theorem method_value {α : Type}
    (unsigned signed : {w : ℕ} → BitVec w → BitVec w → Except Fault (BitVec w × α)) (t : RawType)
    (c : PrimitiveClass) (v x : BitVec c.bits) :
    ((PrimitiveValue.method unsigned signed ⟨c, v⟩ ⟨c, x⟩).map Prod.fst).map (fun p => Value.write t p.v) =
      (if c.signed then (signed v x).map Prod.fst else (unsigned v x).map Prod.fst).map (Value.write t) := by
  rw [PrimitiveValue.method_mk]
  split_ifs
  · cases signed v x <;> rfl
  · cases unsigned v x <;> rfl

theorem arithmeticOp_of_class {t : RawType} {c : PrimitiveClass} (hc : t.primitiveClass = some c)
    (op : Arithmetic) (l r : BitVec t.bits) : arithmeticOp op.toBinOp ⟨t, l⟩ ⟨t, r⟩ =
      (op.template c.signed (Value.read ⟨t, l⟩ c.bits) (Value.read ⟨t, r⟩ c.bits)).map (Value.write t) := by
  have bind_ok (r : Except Fault PrimitiveValue) :
      (r >>= fun res => Except.ok (Value.write t res.v)) = r.map fun p => Value.write t p.v := by
    cases r <;> rfl
  cases op <;>
    simp only [arithmeticOp, ensure, if_true, PrimitiveValue.fromValue, hc, Arithmetic.toBinOp, Arithmetic.template]
  · exact (bind_ok _).trans (method_value _ _ t c _ _)
  · exact (bind_ok _).trans (method_value _ _ t c _ _)
  · exact (bind_ok _).trans (method_value _ _ t c _ _)
  · exact (bind_ok _).trans (method_value _ _ t c _ _)
  · exact (bind_ok _).trans (method_value _ _ t c _ _)

theorem meetsBits_result {w : ℕ} (z : ℤ) : MeetsBits (PrimitiveSInt.result w z) (some z) ↔ Fits true w z := by
  unfold PrimitiveSInt.result
  rw [fits_signed]
  split_ifs with h
  · exact ⟨fun _ => h, fun _ => rfl⟩
  · exact ⟨False.elim, h⟩

theorem map_fst_result {α : Type} {w : ℕ} (z : ℤ) (f : BitVec w → α) :
    (PrimitiveSInt.result w z >>= fun v => Except.ok (v, f v)).map Prod.fst = PrimitiveSInt.result w z := by
  cases PrimitiveSInt.result w z <;> rfl

theorem valueOf_mem {w : ℕ} (s : Bool) (v : BitVec w) : Fits s w (valueOf s v) := by
  cases s
  · have h := v.isLt
    simp only [fits_unsigned, valueOf, Bool.false_eq_true, if_false]
    exact ⟨by omega, by exact_mod_cast h⟩
  · have h₁ := v.le_toInt
    have h₂ := v.toInt_lt
    exact ⟨h₁, h₂⟩

/-- A signed quotient fits but for the smallest number and -1. -/
theorem fits_tdiv {w : ℕ} {x y : ℤ} (hx : Fits true w x) (hy : y ≠ 0) :
    Fits true w (x.tdiv y) ↔ ¬ Refused true w x y := by
  rw [fits_signed] at hx
  have hle : (x.tdiv y).natAbs ≤ x.natAbs := Int.natAbs_tdiv_le_natAbs x y
  have hmul : (x.tdiv y).natAbs * y.natAbs ≤ x.natAbs := by
    rw [Int.natAbs_tdiv]
    exact Nat.div_mul_le_self _ _
  rw [fits_signed]
  unfold Refused
  constructor
  · rintro h (hy' | ⟨-, hx', hy'⟩)
    · exact hy hy'
    · rw [hx', hy', Int.tdiv_neg, Int.tdiv_one] at h
      omega
  · intro h
    by_contra hn
    have hp : (0 : ℤ) < 2 ^ (w - 1) := by positivity
    have hq : x.tdiv y = 2 ^ (w - 1) ∧ x = -2 ^ (w - 1) := by omega
    have hy1 : y.natAbs = 1 := by
      have hpos : 0 < x.natAbs := by omega
      have hab : (x.tdiv y).natAbs = x.natAbs := by omega
      rw [hab] at hmul
      have := Nat.le_of_mul_le_mul_left (by omega : x.natAbs * y.natAbs ≤ x.natAbs * 1) hpos
      omega
    rcases Int.natAbs_eq_iff.mp hy1 with h1 | h1
    · rw [h1, Nat.cast_one, Int.tdiv_one] at hq
      omega
    · exact h (Or.inr ⟨rfl, hq.2, by simpa using h1⟩)

theorem unsigned_template_iff {w : ℕ} (op : Arithmetic) (v x : BitVec w) :
    MeetsBits (op.template false v x) (op.meant false w v.toNat x.toNat) ↔ op.Sound false w v.toNat x.toNat := by
  have hr : Refused false w v.toNat x.toNat ↔ x = 0 := by
    simp [Refused, ← BitVec.toNat_inj]
  cases op with
  | add =>
    change v + x = BitVec.ofInt w (v.toNat + x.toNat) ↔ (false = true → _)
    simp [BitVec.ofInt_add]
  | sub =>
    change v - x = BitVec.ofInt w (v.toNat - x.toNat) ↔ (false = true → _)
    simp [sub_eq_add_neg, BitVec.ofInt_add, BitVec.ofInt_neg]
  | mul =>
    have hp : (v.toNat * x.toNat : ℤ) < 2 ^ 31 ↔ v.toNat * x.toNat < 2 ^ 31 := by norm_cast
    simp only [Arithmetic.template, Arithmetic.meant, Arithmetic.Sound, Bool.false_eq_true, if_false,
      PrimitiveUInt.multiply, PrimitiveUInt.product, hp]
    split_ifs with h
    · exact ⟨False.elim, fun h' => absurd (h' h.1) (by omega)⟩
    · apply iff_of_true
      · change v * x = BitVec.ofInt w (v.toNat * x.toNat)
        simp [BitVec.ofInt_mul]
      · omega
  | div =>
    simp only [Arithmetic.template, Arithmetic.meant, Arithmetic.Sound, Bool.false_eq_true, if_false,
      PrimitiveUInt.divide, hr]
    split_ifs with h
    · exact iff_of_false id (not_not.mpr h)
    · apply iff_of_true _ h
      change v / x = BitVec.ofInt w ((v.toNat / x.toNat : ℕ) : ℤ)
      rw [BitVec.ofInt_natCast, ← BitVec.toNat_udiv, BitVec.ofNat_toNat, BitVec.setWidth_eq]
  | mod =>
    simp only [Arithmetic.template, Arithmetic.meant, Arithmetic.Sound, Bool.false_eq_true, if_false,
      PrimitiveUInt.modulo, hr]
    split_ifs with h
    · exact iff_of_false id (not_not.mpr h)
    · apply iff_of_true _ h
      change v % x = BitVec.ofInt w ((v.toNat % x.toNat : ℕ) : ℤ)
      rw [BitVec.ofInt_natCast, ← BitVec.toNat_umod, BitVec.ofNat_toNat, BitVec.setWidth_eq]

theorem signed_template_iff {w : ℕ} (op : Arithmetic) (v x : BitVec w) :
    MeetsBits (op.template true v x) (op.meant true w v.toInt x.toInt) ↔ op.Sound true w v.toInt x.toInt := by
  have hv : Fits true w v.toInt := valueOf_mem true v
  have hx : x = 0 ↔ x.toInt = 0 := by
    rw [← BitVec.toInt_inj]
    simp
  cases op with
  | add =>
    simp only [Arithmetic.template, Arithmetic.meant, Arithmetic.Sound, if_true, PrimitiveSInt.add, map_fst_result,
      meetsBits_result, forall_const]
  | sub =>
    simp only [Arithmetic.template, Arithmetic.meant, Arithmetic.Sound, if_true, PrimitiveSInt.subtract,
      map_fst_result, meetsBits_result, forall_const]
  | mul =>
    simp only [Arithmetic.template, Arithmetic.meant, Arithmetic.Sound, if_true, PrimitiveSInt.multiply,
      map_fst_result, meetsBits_result]
  | div =>
    simp only [Arithmetic.template, Arithmetic.meant, Arithmetic.Sound, if_true, PrimitiveSInt.divide]
    by_cases h0 : x = 0
    · have hr : Refused true w v.toInt x.toInt := Or.inl (hx.mp h0)
      rw [if_pos h0, if_pos hr]
      exact iff_of_false id (not_not.mpr hr)
    · have hf := fits_tdiv hv (mt hx.mpr h0)
      rw [if_neg h0, map_fst_result, ← hf]
      by_cases hr : Refused true w v.toInt x.toInt
      · have hn : ¬ Fits true w (v.toInt.tdiv x.toInt) := fun h => hf.mp h hr
        rw [if_pos hr, PrimitiveSInt.result, if_neg (mt (fits_signed _ _).mpr hn)]
        exact iff_of_false Bool.false_ne_true hn
      · rw [if_neg hr]
        exact meetsBits_result _
  | mod =>
    simp only [Arithmetic.template, Arithmetic.meant, Arithmetic.Sound, if_true, PrimitiveSInt.modulo]
    by_cases h0 : x = 0
    · have hr : Refused true w v.toInt x.toInt := Or.inl (hx.mp h0)
      rw [if_pos h0, if_pos hr]
      exact iff_of_false id (not_not.mpr hr)
    · have hf := fits_tdiv hv (mt hx.mpr h0)
      rw [if_neg h0, PrimitiveSInt.result]
      by_cases hr : Refused true w v.toInt x.toInt
      · have hn : ¬ Fits true w (v.toInt.tdiv x.toInt) := fun h => hf.mp h hr
        rw [if_pos hr, if_neg (mt (fits_signed _ _).mpr hn)]
        exact iff_of_false Bool.false_ne_true (not_not.mpr hr)
      · rw [if_neg hr, if_pos ((fits_signed _ _).mp (hf.mpr hr))]
        exact iff_of_true rfl hr

/-- The condition for an operator of a type. Types without a class are refused altogether. -/
def ArithmeticSound (op : Arithmetic) (t : RawType) (x y : ℤ) : Prop :=
  if t.primitiveClass.isSome then op.Sound t.signed t.bits x y
  else (op = .div ∨ op = .mod) ∧ Refused t.signed t.bits x y

theorem arithmetic_right_iff (op : Arithmetic) (t : RawType) (l r : BitVec t.bits) :
    Meets (binOp op.toBinOp ⟨t, l⟩ ⟨t, r⟩)
        ((op.meant t.signed t.bits (valueOf t.signed l) (valueOf t.signed r)).map (Value.ofInt t)) ↔
      ArithmeticSound op t (valueOf t.signed l) (valueOf t.signed r) := by
  have h : binOp op.toBinOp ⟨t, l⟩ ⟨t, r⟩ = arithmeticOp op.toBinOp ⟨t, l⟩ ⟨t, r⟩ := by cases op <;> rfl
  rw [h]
  unfold ArithmeticSound
  cases hc : t.primitiveClass with
  | none =>
    have hf : arithmeticOp op.toBinOp ⟨t, l⟩ ⟨t, r⟩ = .error .todo := by
      simp only [arithmeticOp, ensure, if_true, PrimitiveValue.fromValue, hc]
      rfl
    rw [hf, if_neg (by simp)]
    cases op with
    | add | sub | mul => exact iff_of_false id (by simp)
    | div | mod =>
      simp only [Arithmetic.meant]
      split_ifs with hr
      · exact iff_of_true rfl ⟨by simp, hr⟩
      · exact iff_of_false id (fun h => hr h.2)
  | some c =>
    have hb := RawType.primitiveClass_bits hc
    have hl (v : BitVec t.bits) : valueOf t.signed v = valueOf c.signed (Value.read ⟨t, v⟩ c.bits) := by
      simp only [valueOf, hb.2, Value.read_toNat ⟨t, v⟩ hb.1, Value.read_toInt ⟨t, v⟩ hb.1]
    rw [if_pos Option.isSome_some, arithmeticOp_of_class hc, meets_map_write hb.1, hl l, hl r, ← hb.1, ← hb.2]
    cases hs : c.signed with
    | false => exact unsigned_template_iff op _ _
    | true => exact signed_template_iff op _ _

end Mrustc.Miri
