import Mathlib.Data.Int.Order.Basic
import Mathlib.Tactic.Linarith
import Mathlib.Tactic.Ring

/-! # Primitive values of the standalone interpreter

The templates `PrimitiveUInt` and `PrimitiveSInt` and the classes made from them. -/

namespace Mrustc.Miri

/-- What ends an operation: a failed assertion, an error, a missing case, or code without a meaning. -/
inductive Fault
  | assertion | error | todo | undefined
  deriving DecidableEq, Repr

def Fault.isReport : Fault → Bool
  | .undefined => false
  | _ => true

inductive OverflowType
  | none | max | min
  deriving DecidableEq, Repr

namespace PrimitiveUInt

variable {w : ℕ}

def add (v x : BitVec w) : Except Fault (BitVec w × OverflowType) :=
  let newv := v + x
  .ok (newv, if newv < v then .max else .none)

def subtract (v x : BitVec w) : Except Fault (BitVec w × OverflowType) :=
  let newv := v - x
  .ok (newv, if newv > v then .min else .none)

/-- The product of two narrow operands is one of type `int`, which it may not leave. -/
def product (v x : BitVec w) : Except Fault (BitVec w) :=
  if w < 32 ∧ 2 ^ 31 ≤ v.toNat * x.toNat then .error .undefined else .ok (v * x)

def multiply (v x : BitVec w) : Except Fault (BitVec w × OverflowType) := do
  let newv ← product v x
  .ok (newv, if newv < v ∧ newv < x then .max else .none)

def divide (v x : BitVec w) : Except Fault (BitVec w × Bool) :=
  .ok (if x = 0 then (v, false) else (v / x, true))

def modulo (v x : BitVec w) : Except Fault (BitVec w × Bool) :=
  .ok (if x = 0 then (v, false) else (v % x, true))

end PrimitiveUInt

namespace PrimitiveSInt

variable {w : ℕ}

/-- A signed result. One that does not fit has no meaning. -/
def result (w : ℕ) (z : ℤ) : Except Fault (BitVec w) :=
  if -2 ^ (w - 1) ≤ z ∧ z < 2 ^ (w - 1) then .ok (BitVec.ofInt w z) else .error .undefined

def overflowType (didOverflow : Bool) (v : BitVec w) : OverflowType :=
  if didOverflow then (if v.slt 0 then .max else .min) else .none

def add (v x : BitVec w) : Except Fault (BitVec w × OverflowType) := do
  let newv ← result w (v.toInt + x.toInt)
  .ok (newv, overflowType (newv.slt v) newv)

def subtract (v x : BitVec w) : Except Fault (BitVec w × OverflowType) := do
  let newv ← result w (v.toInt - x.toInt)
  .ok (newv, overflowType (v.slt newv) newv)

def multiply (v x : BitVec w) : Except Fault (BitVec w × OverflowType) := do
  let newv ← result w (v.toInt * x.toInt)
  .ok (newv, overflowType (newv.slt v && newv.slt x) newv)

def divide (v x : BitVec w) : Except Fault (BitVec w × Bool) :=
  if x = 0 then .ok (v, false) else do
    let newv ← result w (v.toInt.tdiv x.toInt)
    .ok (newv, true)

/-- A remainder has a meaning only where the quotient has one. -/
def modulo (v x : BitVec w) : Except Fault (BitVec w × Bool) :=
  if x = 0 then .ok (v, false) else do
    let _ ← result w (v.toInt.tdiv x.toInt)
    .ok (BitVec.ofInt w (v.toInt.tmod x.toInt), true)

end PrimitiveSInt

/-- The classes `PrimitiveU64` to `PrimitiveI32`. -/
inductive PrimitiveClass
  | u64 | u32 | u16 | u8 | i64 | i32
  deriving DecidableEq, Repr

namespace PrimitiveClass

def bits : PrimitiveClass → ℕ
  | .u64 | .i64 => 64
  | .u32 | .i32 => 32
  | .u16 => 16
  | .u8 => 8

def signed : PrimitiveClass → Bool
  | .i64 | .i32 => true
  | _ => false

end PrimitiveClass

structure PrimitiveValue where
  cls : PrimitiveClass
  v : BitVec cls.bits

namespace PrimitiveValue

/-- `check`: the other operand, which has to be of the same class. -/
def check (x : PrimitiveValue) (c : PrimitiveClass) : Except Fault (BitVec c.bits) :=
  if h : x.cls = c then .ok (h ▸ x.v) else .error .assertion

/-- A method: its unsigned and its signed template. -/
def method {α : Type} (unsigned signed : {w : ℕ} → BitVec w → BitVec w → Except Fault (BitVec w × α))
    (p x : PrimitiveValue) : Except Fault (PrimitiveValue × α) := do
  let xv ← x.check p.cls
  let r ← if p.cls.signed then signed p.v xv else unsigned p.v xv
  .ok (⟨p.cls, r.1⟩, r.2)

def add : PrimitiveValue → PrimitiveValue → Except Fault (PrimitiveValue × OverflowType) :=
  method PrimitiveUInt.add PrimitiveSInt.add

def subtract : PrimitiveValue → PrimitiveValue → Except Fault (PrimitiveValue × OverflowType) :=
  method PrimitiveUInt.subtract PrimitiveSInt.subtract

def multiply : PrimitiveValue → PrimitiveValue → Except Fault (PrimitiveValue × OverflowType) :=
  method PrimitiveUInt.multiply PrimitiveSInt.multiply

def divide : PrimitiveValue → PrimitiveValue → Except Fault (PrimitiveValue × Bool) :=
  method PrimitiveUInt.divide PrimitiveSInt.divide

def modulo : PrimitiveValue → PrimitiveValue → Except Fault (PrimitiveValue × Bool) :=
  method PrimitiveUInt.modulo PrimitiveSInt.modulo

@[simp] theorem check_self (c : PrimitiveClass) (v : BitVec c.bits) : check ⟨c, v⟩ c = .ok v := by
  simp [check]

end PrimitiveValue

/-! ## Values as integers -/

/-- The integer that the bits stand for. -/
def valueOf (signed : Bool) {w : ℕ} (v : BitVec w) : ℤ := if signed then v.toInt else v.toNat

/-- The integers of a type. -/
def Fits (signed : Bool) (w : ℕ) (z : ℤ) : Prop :=
  if signed then -2 ^ (w - 1) ≤ z ∧ z < 2 ^ (w - 1) else 0 ≤ z ∧ z < 2 ^ w

instance (signed : Bool) (w : ℕ) (z : ℤ) : Decidable (Fits signed w z) :=
  inferInstanceAs (Decidable (if signed then _ else _))

/-- The overflow of an exact result. -/
def overflowOf (signed : Bool) (w : ℕ) (z : ℤ) : OverflowType :=
  if Fits signed w z then .none else if z < 0 then .min else .max

theorem fits_signed (w : ℕ) (z : ℤ) : Fits true w z ↔ -2 ^ (w - 1) ≤ z ∧ z < 2 ^ (w - 1) := Iff.rfl

theorem fits_unsigned (w : ℕ) (z : ℤ) : Fits false w z ↔ 0 ≤ z ∧ z < 2 ^ w := Iff.rfl

/-- The three methods that tell of an overflow. -/
inductive Reporting
  | add | subtract | multiply
  deriving DecidableEq, Repr

def Reporting.exact : Reporting → ℤ → ℤ → ℤ
  | .add, v, x => v + x
  | .subtract, v, x => v - x
  | .multiply, v, x => v * x

def PrimitiveValue.report (op : Reporting) (p x : PrimitiveValue) : Except Fault OverflowType :=
  match op with
  | .add => (p.add x).map Prod.snd
  | .subtract => (p.subtract x).map Prod.snd
  | .multiply => (p.multiply x).map Prod.snd

/-- The operands for which the comparisons of the methods find out about an overflow. -/
def ReportSound : Reporting → (signed : Bool) → (w : ℕ) → ℤ → ℤ → Prop
  | .add, false, _, _, _ | .subtract, false, _, _, _ => True
  | .multiply, false, w, v, x =>
    (w < 32 → v * x < 2 ^ 31) ∧ (v * x < 2 ^ w ∨ v * x % 2 ^ w < v ∧ v * x % 2 ^ w < x)
  | .add, true, w, v, x => Fits true w (v + x) ∧ 0 ≤ x
  | .subtract, true, w, v, x => Fits true w (v - x) ∧ 0 ≤ x
  | .multiply, true, w, v, x => Fits true w (v * x) ∧ (0 ≤ v * x ∨ v = 1 ∨ x = 1)

namespace PrimitiveUInt

variable {w : ℕ} (v x : BitVec w)

theorem add_report : (add v x).map Prod.snd = .ok (overflowOf false w (v.toNat + x.toNat)) := by
  have hv := v.isLt
  have hx := x.isLt
  have h : v + x < v ↔ 2 ^ w ≤ v.toNat + x.toNat := by
    rw [BitVec.lt_def, BitVec.toNat_add]
    by_cases hs : v.toNat + x.toNat < 2 ^ w
    · rw [Nat.mod_eq_of_lt hs]
      omega
    · rw [Nat.mod_eq_sub_mod (by omega), Nat.mod_eq_of_lt (by omega)]
      omega
  have hf : Fits false w (v.toNat + x.toNat) ↔ v.toNat + x.toNat < 2 ^ w := by
    rw [fits_unsigned]
    norm_cast
    omega
  simp only [add, Except.map, h, overflowOf, hf]
  split_ifs <;> first | rfl | omega

theorem subtract_report : (subtract v x).map Prod.snd = .ok (overflowOf false w (v.toNat - x.toNat)) := by
  have hv := v.isLt
  have hx := x.isLt
  have h : v - x > v ↔ v.toNat < x.toNat := by
    rw [gt_iff_lt, BitVec.lt_def, BitVec.toNat_sub]
    by_cases hs : v.toNat < x.toNat
    · rw [Nat.mod_eq_of_lt (by omega)]
      omega
    · rw [Nat.mod_eq_sub_mod (by omega), Nat.mod_eq_of_lt (by omega)]
      omega
  have hf : Fits false w (v.toNat - x.toNat) ↔ x.toNat ≤ v.toNat := by
    have hp : ((2 ^ w : ℕ) : ℤ) = 2 ^ w := by norm_cast
    rw [fits_unsigned, ← hp]
    omega
  simp only [subtract, Except.map, h, overflowOf, hf]
  split_ifs <;> first | rfl | omega

theorem multiply_report_iff :
    (multiply v x).map Prod.snd = .ok (overflowOf false w (v.toNat * x.toNat)) ↔
      ReportSound .multiply false w v.toNat x.toNat := by
  have hf : Fits false w (v.toNat * x.toNat) ↔ v.toNat * x.toNat < 2 ^ w := by
    rw [fits_unsigned]
    norm_cast
    simp
  have hs : ReportSound .multiply false w v.toNat x.toNat ↔ (w < 32 → v.toNat * x.toNat < 2 ^ 31) ∧
      (v.toNat * x.toNat < 2 ^ w ∨
        v.toNat * x.toNat % 2 ^ w < v.toNat ∧ v.toNat * x.toNat % 2 ^ w < x.toNat) := by
    simp only [ReportSound]
    norm_cast
  have hneg : ¬ ((v.toNat * x.toNat : ℤ) < 0) := by
    norm_cast
    omega
  have hlow (h : v.toNat * x.toNat < 2 ^ w) :
      ¬ (v.toNat * x.toNat % 2 ^ w < v.toNat ∧ v.toNat * x.toNat % 2 ^ w < x.toNat) := by
    rw [Nat.mod_eq_of_lt h]
    rintro ⟨h₁, h₂⟩
    have hx : 1 ≤ x.toNat := by omega
    exact absurd (Nat.le_mul_of_pos_right v.toNat hx) (by omega)
  rw [hs]
  by_cases hp : w < 32 ∧ 2 ^ 31 ≤ v.toNat * x.toNat
  · simp only [multiply, product, if_pos hp]
    constructor
    · simp [bind, Except.bind, Except.map]
    · intro h
      exact absurd (h.1 hp.1) (by omega)
  · have hp' : w < 32 → v.toNat * x.toNat < 2 ^ 31 := by omega
    simp only [multiply, product, if_neg hp, overflowOf, hf, if_neg hneg, BitVec.lt_def]
    simp only [bind, Except.bind, Except.map, Except.ok.injEq, BitVec.toNat_mul]
    by_cases h : v.toNat * x.toNat < 2 ^ w
    · rw [if_neg (hlow h), if_pos h]
      exact ⟨fun _ => ⟨hp', Or.inl h⟩, fun _ => rfl⟩
    · rw [if_neg h]
      simp only [ite_eq_left_iff, reduceCtorEq, imp_false, not_not, h, false_or]
      exact ⟨fun h' => ⟨hp', h'⟩, fun h' => h'.2⟩

end PrimitiveUInt

namespace PrimitiveSInt

variable {w : ℕ} (v x : BitVec w)

theorem result_toInt {z : ℤ} (h : Fits true w z) (hw : 0 < w) : (BitVec.ofInt w z).toInt = z := by
  rw [fits_signed] at h
  rw [BitVec.toInt_ofInt]
  have h2 : 2 ^ w = 2 * 2 ^ (w - 1) := by rw [← pow_succ', Nat.sub_add_cancel hw]
  rw [h2]
  apply Int.bmod_eq_of_le <;> push_cast <;> omega

/-- A method whose result has a meaning, and one whose result has none. -/
theorem report_iff (z : ℤ) (test : BitVec w → Bool) :
    (result w z >>= fun newv => .ok (newv, overflowType (test newv) newv)).map Prod.snd =
        .ok (overflowOf true w z) ↔
      Fits true w z ∧ test (BitVec.ofInt w z) = false := by
  by_cases h : Fits true w z
  · simp only [result, if_pos ((fits_signed w z).mp h), overflowOf, bind, Except.bind, Except.map, h]
    cases test (BitVec.ofInt w z) <;> simp [overflowType]
    split_ifs <;> simp
  · simp only [result, if_neg (mt (fits_signed w z).mpr h), bind, Except.bind, Except.map, h]
    simp

theorem add_report_iff (hw : 0 < w) : (add v x).map Prod.snd = .ok (overflowOf true w (v.toInt + x.toInt)) ↔
    ReportSound .add true w v.toInt x.toInt := by
  rw [add, report_iff (v.toInt + x.toInt) (fun newv => newv.slt v)]
  apply and_congr_right
  intro h
  simp only [BitVec.slt, result_toInt h hw]
  simp

theorem subtract_report_iff (hw : 0 < w) :
    (subtract v x).map Prod.snd = .ok (overflowOf true w (v.toInt - x.toInt)) ↔
      ReportSound .subtract true w v.toInt x.toInt := by
  rw [subtract, report_iff (v.toInt - x.toInt) (fun newv => v.slt newv)]
  apply and_congr_right
  intro h
  simp only [BitVec.slt, result_toInt h hw]
  simp

theorem product_lt_both (a b : ℤ) : ¬ (a * b < a ∧ a * b < b) ↔ 0 ≤ a * b ∨ a = 1 ∨ b = 1 := by
  constructor
  · intro h
    by_contra hn
    rw [not_or, not_or, not_le] at hn
    rcases hn with ⟨hneg, ha, hb⟩
    apply h
    rcases mul_neg_iff.mp hneg with ⟨h₁, h₂⟩ | ⟨h₁, h₂⟩
    · have ha' : 2 ≤ a := by omega
      constructor <;> nlinarith
    · have hb' : 2 ≤ b := by omega
      constructor <;> nlinarith
  · rintro h ⟨h₁, h₂⟩
    rcases h with h | rfl | rfl
    · have ha : 1 ≤ a := by omega
      nlinarith
    · omega
    · omega

theorem multiply_report_iff (hw : 0 < w) :
    (multiply v x).map Prod.snd = .ok (overflowOf true w (v.toInt * x.toInt)) ↔
      ReportSound .multiply true w v.toInt x.toInt := by
  rw [multiply, report_iff (v.toInt * x.toInt) (fun newv => newv.slt v && newv.slt x)]
  apply and_congr_right
  intro h
  simp only [BitVec.slt, result_toInt h hw]
  rw [← product_lt_both]
  simp

end PrimitiveSInt

namespace PrimitiveValue

theorem method_mk {α : Type}
    (unsigned signed : {w : ℕ} → BitVec w → BitVec w → Except Fault (BitVec w × α))
    (c : PrimitiveClass) (v x : BitVec c.bits) : method unsigned signed ⟨c, v⟩ ⟨c, x⟩ =
      (if c.signed then signed v x else unsigned v x).map fun r => (⟨c, r.1⟩, r.2) := by
  simp only [method, check_self]
  split_ifs
  · cases h : signed v x <;> simp only [bind, Except.bind, Except.map, h]
  · cases h : unsigned v x <;> simp only [bind, Except.bind, Except.map, h]

theorem report_method
    (unsigned signed : {w : ℕ} → BitVec w → BitVec w → Except Fault (BitVec w × OverflowType))
    (c : PrimitiveClass) (v x : BitVec c.bits) : (method unsigned signed ⟨c, v⟩ ⟨c, x⟩).map Prod.snd =
      (if c.signed then signed v x else unsigned v x).map Prod.snd := by
  rw [method_mk]
  cases (if c.signed then signed v x else unsigned v x) <;> rfl

theorem report_iff (op : Reporting) (c : PrimitiveClass) (v x : BitVec c.bits) :
    report op ⟨c, v⟩ ⟨c, x⟩ =
        .ok (overflowOf c.signed c.bits (op.exact (valueOf c.signed v) (valueOf c.signed x))) ↔
      ReportSound op c.signed c.bits (valueOf c.signed v) (valueOf c.signed x) := by
  have hw : 0 < c.bits := by cases c <;> decide
  cases hs : c.signed
  · cases op
    · simp [report, add, report_method, hs, valueOf, Reporting.exact, PrimitiveUInt.add_report, ReportSound]
    · simp [report, subtract, report_method, hs, valueOf, Reporting.exact, PrimitiveUInt.subtract_report, ReportSound]
    · simpa [report, multiply, report_method, hs, valueOf, Reporting.exact]
        using PrimitiveUInt.multiply_report_iff v x
  · cases op
    · simpa [report, add, report_method, hs, valueOf, Reporting.exact]
        using PrimitiveSInt.add_report_iff v x hw
    · simpa [report, subtract, report_method, hs, valueOf, Reporting.exact]
        using PrimitiveSInt.subtract_report_iff v x hw
    · simpa [report, multiply, report_method, hs, valueOf, Reporting.exact]
        using PrimitiveSInt.multiply_report_iff v x hw

end PrimitiveValue

end Mrustc.Miri
