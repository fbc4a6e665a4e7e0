import Mrustc.Int128.Arith

/-! # Signed 128-bit integers

`class S128` keeps a two's complement value in a `U128`. Addition, the bitwise operations and `<<` are those
of the unsigned class; `*`, `/` and `%` work on absolute values and choose a sign afterwards.
-/

namespace Mrustc.Int128

/-- The class keeps the bits of an integer modulo `2 ^ 128`. -/
def U128.ofInt (z : ℤ) : U128 := ofBits (BitVec.ofInt 128 z)

/-- `class S128` -/
structure S128 where
  inner : U128
  deriving DecidableEq, Repr

namespace S128

def ofInt (z : ℤ) : S128 := ⟨U128.ofInt z⟩

def toInt (v : S128) : ℤ := v.inner.bits.toInt

def isNeg (v : S128) : Bool := (v.inner.shr 127).truncateU64 ≠ 0

def not (v : S128) : S128 := ⟨v.inner.not⟩
def add (v x : S128) : S128 := ⟨v.inner.add x.inner⟩
def sub (v x : S128) : S128 := ⟨v.inner.sub x.inner⟩
def or (v x : S128) : S128 := ⟨v.inner.or x.inner⟩
def and (v x : S128) : S128 := ⟨v.inner.and x.inner⟩
def xor (v x : S128) : S128 := ⟨v.inner.xor x.inner⟩

def neg (v : S128) : S128 := add ⟨v.inner.not⟩ ⟨⟨1, 0⟩⟩

/-- `u_abs`: the first test is meant for the minimum, whose words are the other way round. -/
def uAbs (v : S128) : U128 :=
  if v.inner.hi = BitVec.allOnes 64 ∧ v.inner.lo = 0 then v.inner
  else if v.isNeg then v.neg.inner
  else v.inner

/-- `operator*`, `operator/` and `operator%` put a sign on the result for the absolute values. -/
def signed (retNeg : Bool) (rv : U128) : S128 := if retNeg then neg ⟨rv⟩ else ⟨rv⟩

def mul (v x : S128) : S128 := signed (v.isNeg != x.isNeg) (v.uAbs.mul x.uAbs)
def div (v x : S128) : S128 := signed (v.isNeg != x.isNeg) (v.uAbs.div x.uAbs)
def mod (v x : S128) : S128 := signed (v.isNeg != x.isNeg) (v.uAbs.mod x.uAbs)

/-- `cmp128s` -/
def cmp (v x : S128) : Ordering :=
  if v.inner.hi ≠ x.inner.hi then (if v.inner.hi.slt x.inner.hi then .lt else .gt)
  else if v.inner.lo ≠ x.inner.lo then (if v.inner.lo < x.inner.lo then .lt else .gt)
  else .eq

/-- `operator<<(unsigned)` -/
def shl (v : S128) (bits : ℕ) : S128 := ⟨v.inner.shl bits⟩

/-- `operator>>(unsigned)`. From 64 bits on the high word moves down without its sign. -/
def shr (v : S128) (bits : ℕ) : S128 :=
  if bits = 0 then v
  else if bits ≥ 128 then (if v.cmp ⟨⟨0, 0⟩⟩ = .lt then ⟨U128.max⟩ else ⟨⟨0, 0⟩⟩)
  else if bits ≥ 64 then
    ⟨⟨v.inner.hi >>> (bits - 64), if v.cmp ⟨⟨0, 0⟩⟩ = .lt then BitVec.allOnes 64 else 0⟩⟩
  else ⟨⟨v.inner.lo >>> bits ||| v.inner.hi <<< (64 - bits), v.inner.hi.sshiftRight bits⟩⟩

variable {a b : ℤ} {n : ℕ}

@[simp] theorem bits_ofInt (z : ℤ) : (U128.ofInt z).bits = BitVec.ofInt 128 z := U128.bits_ofBits _

@[simp] theorem inner_ofInt (z : ℤ) : (ofInt z).inner = U128.ofInt z := rfl

theorem toInt_ofInt (z : ℤ) : (ofInt z).toInt = z.bmod (2 ^ 128) := by
  rw [toInt, inner_ofInt, bits_ofInt, BitVec.toInt_ofInt]

theorem toNat_ofInt (z : ℤ) : (U128.ofInt z).toNat = (z % 2 ^ 128).toNat := by
  rw [← U128.toNat_bits, bits_ofInt, BitVec.toNat_ofInt]
  rfl

theorem toInt_ofInt_of_mem (h : -2 ^ 127 ≤ a ∧ a < 2 ^ 127) : (ofInt a).toInt = a := by
  rw [toInt_ofInt, Int.bmod_eq_of_le (by omega) (by omega)]

/-- Two integers have the same bits if and only if they agree modulo `2 ^ 128`. -/
theorem ofInt_eq_iff : ofInt a = ofInt b ↔ (2 ^ 128 : ℤ) ∣ a - b := by
  constructor
  · intro h
    have h := congrArg (fun v => v.inner.bits) h
    simp only [inner_ofInt, bits_ofInt] at h
    have h := congrArg BitVec.toInt h
    rw [BitVec.toInt_ofInt, BitVec.toInt_ofInt, Int.bmod_eq_bmod_iff_bmod_sub_eq_zero] at h
    exact Int.dvd_of_bmod_eq_zero h
  · intro h
    rw [ofInt, ofInt, U128.ofInt, U128.ofInt]
    congr 2
    apply BitVec.eq_of_toInt_eq
    rw [BitVec.toInt_ofInt, BitVec.toInt_ofInt, Int.bmod_eq_bmod_iff_bmod_sub_eq_zero]
    exact Int.bmod_eq_zero_of_dvd h

/-- Operations are compared through their bits. -/
theorem eq_ofInt {v : S128} (h : v.inner.bits = BitVec.ofInt 128 a) : v = ofInt a := by
  cases v
  rw [ofInt, S128.mk.injEq]
  exact U128.bits_injective (h.trans (bits_ofInt a).symm)

theorem uint_eq_ofInt {v : U128} (h : v.bits = BitVec.ofInt 128 a) : v = U128.ofInt a :=
  U128.bits_injective (h.trans (bits_ofInt a).symm)

theorem ofInt_toInt (v : S128) : ofInt v.toInt = v :=
  (eq_ofInt (BitVec.ofInt_toInt.symm)).symm

theorem ofNat_eq_ofInt (n : ℕ) : U128.ofNat n = U128.ofInt n := by
  rw [U128.ofNat, U128.ofInt, BitVec.ofInt_natCast]

theorem ofInt_toNat (v : U128) : U128.ofInt v.toNat = v := by
  rw [← ofNat_eq_ofInt, U128.ofNat, ← U128.toNat_bits, BitVec.ofNat_toNat, BitVec.setWidth_eq]
  exact U128.bits_injective (U128.bits_ofBits _)

section Ring

@[simp] theorem add_ofInt (a b : ℤ) : (ofInt a).add (ofInt b) = ofInt (a + b) :=
  eq_ofInt (by simp [add, BitVec.ofInt_add])

@[simp] theorem neg_ofInt (a : ℤ) : (ofInt a).neg = ofInt (-a) := by
  apply eq_ofInt
  rw [neg, add, U128.bits_add, U128.bits_not, inner_ofInt, bits_ofInt, BitVec.ofInt_neg,
    BitVec.neg_eq_not_add]
  rfl

@[simp] theorem sub_ofInt (a b : ℤ) : (ofInt a).sub (ofInt b) = ofInt (a - b) := by
  apply eq_ofInt
  rw [sub, U128.bits_sub, inner_ofInt, inner_ofInt, bits_ofInt, bits_ofInt, Int.sub_eq_add_neg,
    BitVec.ofInt_add, BitVec.ofInt_neg, BitVec.sub_eq_add_neg]

theorem unot_ofInt (a : ℤ) : (U128.ofInt a).not = U128.ofInt (-a - 1) := by
  apply uint_eq_ofInt
  rw [U128.bits_not, bits_ofInt, BitVec.not_eq_neg_add, Int.sub_eq_add_neg, BitVec.ofInt_add, BitVec.ofInt_neg,
    BitVec.sub_eq_add_neg]
  rfl

theorem not_ofInt (a : ℤ) : (ofInt a).not = ofInt (-a - 1) := congrArg S128.mk (unot_ofInt a)

@[simp] theorem umul_ofInt (a b : ℤ) : (U128.ofInt a).mul (U128.ofInt b) = U128.ofInt (a * b) :=
  uint_eq_ofInt (by simp [BitVec.ofInt_mul])

@[simp] theorem uadd_ofInt (a b : ℤ) : (U128.ofInt a).add (U128.ofInt b) = U128.ofInt (a + b) :=
  uint_eq_ofInt (by simp [BitVec.ofInt_add])

@[simp] theorem usub_ofInt (a b : ℤ) : (U128.ofInt a).sub (U128.ofInt b) = U128.ofInt (a - b) :=
  congrArg S128.inner (sub_ofInt a b)

@[simp] theorem ushl_ofInt (a : ℤ) (n : ℕ) : (U128.ofInt a).shl n = U128.ofInt (a * 2 ^ n) := by
  apply uint_eq_ofInt
  rw [U128.bits_shl, bits_ofInt, BitVec.shiftLeft_eq_mul_twoPow, BitVec.ofInt_mul]
  congr 1
  apply BitVec.eq_of_toNat_eq
  rw [BitVec.toNat_twoPow, BitVec.toNat_ofInt]
  norm_cast

@[simp] theorem shl_ofInt (a : ℤ) (n : ℕ) : (ofInt a).shl n = ofInt (a * 2 ^ n) :=
  congrArg S128.mk (ushl_ofInt a n)

theorem ushr_ofInt (h : 0 ≤ a ∧ a < 2 ^ 128) (n : ℕ) :
    (U128.ofInt a).shr n = U128.ofInt (a >>> n) := by
  obtain ⟨x, rfl⟩ := Int.eq_ofNat_of_zero_le h.1
  have hx : x < 2 ^ 128 := by omega
  have hshr : ((x : ℤ) >>> n) = ((x >>> n : ℕ) : ℤ) := rfl
  have hlt : x >>> n < 2 ^ 128 := (Nat.shiftRight_le x n).trans_lt hx
  apply uint_eq_ofInt
  apply BitVec.eq_of_toNat_eq
  rw [U128.bits_shr, bits_ofInt, BitVec.toNat_ushiftRight, hshr, BitVec.ofInt_natCast, BitVec.ofInt_natCast,
    BitVec.toNat_ofNat, BitVec.toNat_ofNat, Nat.mod_eq_of_lt hx, Nat.mod_eq_of_lt hlt]

theorem signed_ofInt (s : Bool) (a : ℤ) : signed s (U128.ofInt a) = ofInt (if s then -a else a) := by
  cases s
  · rfl
  · exact neg_ofInt a

end Ring

section Words

theorem toInt_eq (v : S128) : v.toInt = 2 ^ 64 * v.inner.hi.toInt + v.inner.lo.toNat := by
  have hhi := v.inner.hi.isLt
  have hlo := v.inner.lo.isLt
  rw [toInt, BitVec.toInt_eq_toNat_cond, BitVec.toInt_eq_toNat_cond, U128.toNat_bits, U128.toNat_eq]
  by_cases h : 2 * v.inner.hi.toNat < 2 ^ 64
  · rw [if_pos h, if_pos (by omega)]
    push_cast
    ring
  · rw [if_neg h, if_neg (by omega)]
    push_cast
    ring

theorem isNeg_eq (v : S128) : v.isNeg = decide (v.toInt < 0) := by
  have hlt := v.inner.toNat_lt
  have hshr : (v.inner.shr 127).toNat = v.inner.toNat / 2 ^ 127 := by
    rw [← U128.toNat_bits, U128.bits_shr, BitVec.toNat_ushiftRight, Nat.shiftRight_eq_div_pow,
      U128.toNat_bits]
  rw [U128.toNat_eq] at hshr
  rw [isNeg, decide_eq_decide, toInt, BitVec.toInt_neg_iff, U128.toNat_bits, U128.truncateU64, ne_eq,
    ← BitVec.toNat_inj]
  simp only [BitVec.ofNat_eq_ofNat, BitVec.toNat_ofNat, Nat.zero_mod]
  omega

theorem isNeg_ofInt (h : -2 ^ 127 ≤ a ∧ a < 2 ^ 127) : (ofInt a).isNeg = decide (a < 0) := by
  rw [isNeg_eq, toInt_ofInt_of_mem h]

/-- What `u_abs` gives for an integer. -/
def absVal (a : ℤ) : ℤ := if a = -2 ^ 64 then 2 ^ 128 - 2 ^ 64 else |a|

theorem absVal_of_ne (h : a ≠ -2 ^ 64) : absVal a = |a| := if_neg h

theorem uAbs_ofInt (h : -2 ^ 127 ≤ a ∧ a < 2 ^ 127) : (ofInt a).uAbs = U128.ofInt (absVal a) := by
  have hv := toInt_eq (ofInt a)
  rw [toInt_ofInt_of_mem h, inner_ofInt] at hv
  have hlo := (U128.ofInt a).lo.isLt
  have hone : (BitVec.allOnes 64).toInt = -1 := by decide
  have hwords : ((U128.ofInt a).hi = BitVec.allOnes 64 ∧ (U128.ofInt a).lo = 0) ↔ a = -2 ^ 64 := by
    constructor
    · rintro ⟨h1, h2⟩
      rw [h1, h2, hone] at hv
      exact hv
    · intro ha
      have h1 : (U128.ofInt a).hi = BitVec.allOnes 64 := BitVec.eq_of_toInt_eq (by omega)
      rw [h1, hone] at hv
      exact ⟨h1, BitVec.eq_of_toNat_eq (by simp only [BitVec.ofNat_eq_ofNat, BitVec.toNat_ofNat]; omega)⟩
  rw [uAbs, inner_ofInt, absVal]
  by_cases ha : a = -2 ^ 64
  · rw [if_pos (hwords.mpr ha), if_pos ha]
    exact congrArg S128.inner (ofInt_eq_iff.mpr (by omega))
  rw [if_neg (mt hwords.mp ha), if_neg ha, isNeg_ofInt h]
  by_cases hneg : a < 0
  · rw [if_pos (decide_eq_true hneg), neg_ofInt, abs_of_neg hneg, inner_ofInt]
  · rw [if_neg (by simpa using hneg), abs_of_nonneg (not_lt.mp hneg)]

theorem cmp_ofInt (ha : -2 ^ 127 ≤ a ∧ a < 2 ^ 127) (hb : -2 ^ 127 ≤ b ∧ b < 2 ^ 127) :
    (ofInt a).cmp (ofInt b) = compare a b := by
  have hv := toInt_eq (ofInt a)
  have hx := toInt_eq (ofInt b)
  rw [toInt_ofInt_of_mem ha] at hv
  rw [toInt_ofInt_of_mem hb] at hx
  have h1 := (ofInt a).inner.lo.isLt
  have h2 := (ofInt b).inner.lo.isLt
  rw [cmp]
  by_cases hhi : (ofInt a).inner.hi = (ofInt b).inner.hi
  · rw [if_neg (not_not.mpr hhi)]
    rw [hhi] at hv
    by_cases hlo : (ofInt a).inner.lo = (ofInt b).inner.lo
    · rw [if_neg (not_not.mpr hlo), Eq.comm, compare_eq_iff_eq]
      exact (hv.trans (by rw [hlo])).trans hx.symm
    · have hne := mt BitVec.eq_of_toNat_eq hlo
      rw [if_pos hlo]
      by_cases hlt : (ofInt a).inner.lo < (ofInt b).inner.lo
      · rw [if_pos hlt, Eq.comm, compare_lt_iff_lt]
        have hlt := BitVec.lt_def.mp hlt
        omega
      · rw [if_neg hlt, Eq.comm, compare_gt_iff_gt]
        have hlt := mt BitVec.lt_def.mpr hlt
        omega
  · have hne := mt BitVec.eq_of_toInt_eq hhi
    rw [if_pos hhi]
    by_cases hlt : (ofInt a).inner.hi.slt (ofInt b).inner.hi = true
    · rw [if_pos hlt, Eq.comm, compare_lt_iff_lt]
      have hlt := BitVec.slt_iff_toInt_lt.mp hlt
      omega
    · rw [if_neg hlt, Eq.comm, compare_gt_iff_gt]
      have hlt := mt BitVec.slt_iff_toInt_lt.mpr hlt
      omega

end Words

section Quotients

theorem udiv_ofInt (ha : 0 ≤ a ∧ a < 2 ^ 128) (hb : 0 < b ∧ b < 2 ^ 128) :
    (U128.ofInt a).div (U128.ofInt b) = U128.ofInt (a / b) ∧
      (U128.ofInt a).mod (U128.ofInt b) = U128.ofInt (a % b) := by
  obtain ⟨x, rfl⟩ := Int.eq_ofNat_of_zero_le ha.1
  obtain ⟨y, rfl⟩ := Int.eq_ofNat_of_zero_le hb.1.le
  have hx : (U128.ofNat x).toNat = x := by rw [U128.toNat_ofNat, Nat.mod_eq_of_lt (by omega)]
  have hy : (U128.ofNat y).toNat = y := by rw [U128.toNat_ofNat, Nat.mod_eq_of_lt (by omega)]
  have hlt : x / y < 2 ^ 128 := (Nat.div_le_self _ _).trans_lt (by omega)
  have hlt' : x % y < 2 ^ 128 := (Nat.mod_le _ _).trans_lt (by omega)
  obtain ⟨h1, h2⟩ := @U128.divMod_spec (U128.ofNat y) (U128.ofNat x) (by omega)
  norm_cast
  rw [← ofNat_eq_ofInt, ← ofNat_eq_ofInt, ← ofNat_eq_ofInt, ← ofNat_eq_ofInt]
  constructor
  · apply U128.ext_toNat
    rw [h1, hx, hy, U128.toNat_ofNat, Nat.mod_eq_of_lt hlt]
  · apply U128.ext_toNat
    rw [h2, hx, hy, U128.toNat_ofNat, Nat.mod_eq_of_lt hlt']

theorem absVal_mem (h : -2 ^ 127 ≤ a ∧ a < 2 ^ 127) : 0 ≤ absVal a ∧ absVal a < 2 ^ 128 := by
  rw [absVal]
  split
  · norm_num
  · exact ⟨abs_nonneg a, abs_lt.mpr ⟨by omega, by omega⟩⟩

theorem absVal_pos (h : a ≠ 0) : 0 < absVal a := by
  rw [absVal]
  split
  · norm_num
  · exact abs_pos.mpr h

/-- The sign that the three operators choose. -/
def retNeg (a b : ℤ) : Bool := decide (a < 0) != decide (b < 0)

theorem mul_ofInt (ha : -2 ^ 127 ≤ a ∧ a < 2 ^ 127) (hb : -2 ^ 127 ≤ b ∧ b < 2 ^ 127) :
    (ofInt a).mul (ofInt b) =
      ofInt (if retNeg a b then -(absVal a * absVal b) else absVal a * absVal b) := by
  rw [mul, isNeg_ofInt ha, isNeg_ofInt hb, uAbs_ofInt ha, uAbs_ofInt hb, umul_ofInt, signed_ofInt]
  rfl

theorem div_ofInt (ha : -2 ^ 127 ≤ a ∧ a < 2 ^ 127) (hb : -2 ^ 127 ≤ b ∧ b < 2 ^ 127) (h0 : b ≠ 0) :
    (ofInt a).div (ofInt b) =
      ofInt (if retNeg a b then -(absVal a / absVal b) else absVal a / absVal b) := by
  rw [div, isNeg_ofInt ha, isNeg_ofInt hb, uAbs_ofInt ha, uAbs_ofInt hb,
    (udiv_ofInt (absVal_mem ha) ⟨absVal_pos h0, (absVal_mem hb).2⟩).1, signed_ofInt]
  rfl

theorem mod_ofInt (ha : -2 ^ 127 ≤ a ∧ a < 2 ^ 127) (hb : -2 ^ 127 ≤ b ∧ b < 2 ^ 127) (h0 : b ≠ 0) :
    (ofInt a).mod (ofInt b) =
      ofInt (if retNeg a b then -(absVal a % absVal b) else absVal a % absVal b) := by
  rw [mod, isNeg_ofInt ha, isNeg_ofInt hb, uAbs_ofInt ha, uAbs_ofInt hb,
    (udiv_ofInt (absVal_mem ha) ⟨absVal_pos h0, (absVal_mem hb).2⟩).2, signed_ofInt]
  rfl

end Quotients

section Shift

theorem msb_bits (v : U128) : v.bits.msb = v.hi.msb := by
  rw [U128.bits, BitVec.msb_append, if_neg (by norm_num)]

theorem neg_iff_msb (v : S128) : v.toInt < 0 ↔ v.inner.hi.msb = true := by
  rw [← msb_bits, BitVec.msb_eq_toInt, decide_eq_true_iff]
  rfl

theorem cmp_zero (v : S128) : v.cmp ⟨⟨0, 0⟩⟩ = .lt ↔ v.inner.hi.msb = true := by
  have h0 : (⟨⟨0, 0⟩⟩ : S128) = ofInt 0 := by decide
  have hv : -2 ^ 127 ≤ v.toInt ∧ v.toInt < 2 ^ 127 := ⟨v.inner.bits.le_toInt, v.inner.bits.toInt_lt⟩
  have hcmp := cmp_ofInt hv (by norm_num : (-2 ^ 127 : ℤ) ≤ 0 ∧ (0 : ℤ) < 2 ^ 127)
  rw [← h0, ofInt_toInt] at hcmp
  rw [hcmp, compare_lt_iff_lt, neg_iff_msb]

/-- Up to 64 bits the shift keeps the sign. -/
theorem shr_of_le (v : S128) (h : n ≤ 64) : (v.shr n).inner.bits = v.inner.bits.sshiftRight n := by
  apply BitVec.eq_of_getLsbD_eq
  intro i hi
  rw [BitVec.getLsbD_sshiftRight, U128.getLsbD_bits, U128.getLsbD_bits, msb_bits, shr]
  by_cases h0 : n = 0
  · subst h0
    simp [hi]
  by_cases h64 : n = 64
  · subst h64
    simp only [cmp_zero]
    by_cases hm : v.inner.hi.msb = true
    · simp [hm, -BitVec.reduceAllOnes]
      grind
    · simp [hm]
      grind
  · have hlt : ¬64 ≤ n := by omega
    have h128 : ¬128 ≤ n := by omega
    simp [h0, hlt, h128]
    grind

/-- Beyond 64 bits the sign is lost between the two words. -/
theorem shr_of_gt (v : S128) (h : 64 < n) (hn : n < 128) :
    (v.shr n).inner.bits = v.inner.bits.sshiftRight n ↔ v.inner.hi.msb = false := by
  have h0 : n ≠ 0 := by omega
  constructor
  · intro heq
    have hbit := congrArg (fun x => x.getLsbD 63) heq
    rw [BitVec.getLsbD_sshiftRight, U128.getLsbD_bits, msb_bits, shr, if_neg h0,
      if_neg (Nat.not_le.mpr hn), if_pos h.le] at hbit
    have hge : ¬n + 63 < 128 := by omega
    have hhi : v.inner.hi.getLsbD (n - 64 + 63) = false := BitVec.getLsbD_of_ge _ _ (by omega)
    simp only [BitVec.getLsbD_ushiftRight, hhi, if_neg hge] at hbit
    simpa using hbit.symm
  · intro hm
    apply BitVec.eq_of_getLsbD_eq
    intro i hi
    rw [BitVec.getLsbD_sshiftRight, U128.getLsbD_bits, U128.getLsbD_bits, msb_bits, shr, if_neg h0,
      if_neg (Nat.not_le.mpr hn), if_pos h.le]
    simp only [cmp_zero, hm]
    simp
    grind

theorem sshiftRight_ofInt (h : -2 ^ 127 ≤ a ∧ a < 2 ^ 127) (n : ℕ) :
    (ofInt a).inner.bits.sshiftRight n = BitVec.ofInt 128 (a >>> n) := by
  have ha : (BitVec.ofInt 128 a).toInt = a := by
    rw [BitVec.toInt_ofInt, Int.bmod_eq_of_le (by omega) (by omega)]
  have hpos : (0 : ℤ) < 2 ^ n := by positivity
  have hshr : -2 ^ 127 ≤ a >>> n ∧ a >>> n < 2 ^ 127 := by
    rw [Int.shiftRight_eq_div_pow]
    push_cast
    constructor
    · rw [Int.le_ediv_iff_mul_le hpos]
      nlinarith
    · rw [Int.ediv_lt_iff_lt_mul hpos]
      nlinarith
  apply BitVec.eq_of_toInt_eq
  rw [inner_ofInt, bits_ofInt, BitVec.toInt_sshiftRight, ha, BitVec.toInt_ofInt,
    Int.bmod_eq_of_le (by omega) (by omega)]

theorem shr_ofInt (h : -2 ^ 127 ≤ a ∧ a < 2 ^ 127) (hn : n ≤ 64) : (ofInt a).shr n = ofInt (a >>> n) :=
  eq_ofInt ((shr_of_le _ hn).trans (sshiftRight_ofInt h n))

theorem shr_ofInt_iff (h : -2 ^ 127 ≤ a ∧ a < 2 ^ 127) (hn : n < 128) :
    (ofInt a).shr n = ofInt (a >>> n) ↔ (a < 0 → n ≤ 64) := by
  by_cases h64 : n ≤ 64
  · exact iff_of_true (shr_ofInt h h64) fun _ => h64
  · have hneg := neg_iff_msb (ofInt a)
    rw [toInt_ofInt_of_mem h] at hneg
    have hshr := shr_of_gt (ofInt a) (not_le.mp h64) hn
    rw [sshiftRight_ofInt h] at hshr
    constructor
    · intro heq ha
      rw [heq, inner_ofInt, bits_ofInt, hneg.mp ha] at hshr
      exact absurd (hshr.mp rfl) Bool.noConfusion
    · intro ha
      refine eq_ofInt (hshr.mpr ?_)
      rw [← Bool.not_eq_true, ← hneg]
      exact fun h => h64 (ha h)

end Shift

end S128

end Mrustc.Int128
