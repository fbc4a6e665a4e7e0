import Mrustc.ConstEval.Bytes
import Mrustc.Rounding.Nearest

/-! # 128-bit integers as floats

`encode_float` shifts the leading bit to the top, takes the significand from there and adds the exponent to it.
Floats are given by their patterns.
-/

namespace Mrustc.Int128

open Rounding (Format)

namespace U128

/-- The loop of `encode_float` that counts the significant bits. -/
def countBits (val : U128) (nset : ℕ) : ℕ :=
  if val = ⟨0, 0⟩ then nset else countBits (val.shr 1) (nset + 1)
termination_by val.toNat
decreasing_by
  rename_i h
  have hpos : val.toNat ≠ 0 := fun h0 => h (ext_toNat h0)
  rw [toNat_shr]
  omega

def encodeFloat (self : U128) (mBits zeroExp : ℕ) : BitVec 64 :=
  let n := 128 - self.countBits 0
  let y := self.shl n
  let a := y.hi >>> (128 - (mBits + 1) - 64)
  let s := 64 - (mBits + 1)
  let b := (y.shr s).lo ||| (y.lo &&& ((1#64 <<< s) - 1))
  let m := a + ((b - ((b >>> 63) &&& ~~~a)) >>> 63)
  let e := if self = ⟨0, 0⟩ then 0 else BitVec.ofNat 64 (127 - n + zeroExp - 1)
  (e <<< mBits) + m

def toDouble (self : U128) : BitVec 64 := self.encodeFloat 52 1023

def toFloat (self : U128) : BitVec 32 := (self.encodeFloat 23 127).setWidth 32

end U128

namespace S128

/-- The product with `-1.0` below zero, and else with `1.0`, changes at most the sign bit. -/
def toDouble (self : S128) : BitVec 64 :=
  (if self.cmp ⟨⟨0, 0⟩⟩ = .lt then 1#64 <<< 63 else 0) ^^^ self.uAbs.toDouble

def toFloat (self : S128) : BitVec 32 :=
  (if self.cmp ⟨⟨0, 0⟩⟩ = .lt then 1#32 <<< 31 else 0) ^^^ self.uAbs.toFloat

end S128

/-- The formats of `f32` and `f64`. -/
def binary32 : Format := ⟨23, 8, by norm_num, by norm_num⟩
def binary64 : Format := ⟨52, 11, by norm_num, by norm_num⟩

section Encode

variable {v y : U128} {n mBits s : ℕ}

theorem countBits_eq (v : U128) (n : ℕ) : v.countBits n = n + Nat.size v.toNat := by
  fun_induction U128.countBits v n with
  | case1 n => rw [U128.toNat_zero, Nat.size_zero, add_zero]
  | case2 v n hne ih =>
    have hpos : v.toNat ≠ 0 := fun h0 => hne (U128.ext_toNat h0)
    have hsize : Nat.size v.toNat = Nat.size (v.toNat / 2) + 1 := by
      refine eq_of_forall_ge_iff fun k => ?_
      rw [Nat.size_le]
      cases k with
      | zero => omega
      | succ k =>
        rw [Nat.succ_le_succ_iff, Nat.size_le, Nat.div_lt_iff_lt_mul two_pos, pow_succ]
    rw [ih, toNat_shr, pow_one, hsize]
    omega

/-- The bits below the significand: the next 64, and the others folded into them. -/
theorem or_sticky {q t : ℕ} (ht : t < 2 ^ 63) :
    (q ||| t < 2 ^ 63 ↔ q < 2 ^ 63) ∧ (q ||| t = 2 ^ 63 ↔ q = 2 ^ 63 ∧ t = 0) := by
  have hq : q ≤ q ||| t := Nat.left_le_or
  have ht' : t ≤ q ||| t := Nat.right_le_or
  have hlt : q < 2 ^ 63 → q ||| t < 2 ^ 63 := fun h => Nat.or_lt_two_pow h ht
  refine ⟨⟨fun h => by omega, hlt⟩, ⟨fun h => ?_, ?_⟩⟩
  · have hge : q = 2 ^ 63 := by
      by_contra hne
      have := hlt (by omega)
      omega
    have hor : 2 ^ 63 ||| t = 2 ^ 63 + t := by
      have := Nat.two_pow_add_eq_or_of_lt ht 1
      rw [mul_one] at this
      exact this.symm
    rw [hge, hor] at h
    exact ⟨hge, by omega⟩
  · rintro ⟨rfl, rfl⟩
    exact Nat.or_zero _

/-- One is added to the significand above the middle, and in the middle if it is odd. -/
theorem toNat_increment (a b : BitVec 64) :
    ((b - ((b >>> 63) &&& ~~~a)) >>> 63).toNat =
      if 2 ^ 63 < b.toNat ∨ b.toNat = 2 ^ 63 ∧ ¬Even a.toNat then 1 else 0 := by
  have hb := b.isLt
  have ha := a.isLt
  have htop : (b >>> 63).toNat = b.toNat / 2 ^ 63 := by
    rw [BitVec.toNat_ushiftRight, Nat.shiftRight_eq_div_pow]
  have hnot : (~~~a).toNat = 2 ^ 64 - 1 - a.toNat := BitVec.toNat_not
  have hand : ((b >>> 63) &&& ~~~a).toNat = if b.toNat < 2 ^ 63 then 0 else (a.toNat + 1) % 2 := by
    rw [BitVec.toNat_and, htop, hnot]
    split
    · rw [Nat.div_eq_of_lt ‹_›, Nat.zero_and]
    · have hone : b.toNat / 2 ^ 63 = 1 := by omega
      rw [hone, Nat.one_and_eq_mod_two]
      omega
  rw [BitVec.toNat_ushiftRight, Nat.shiftRight_eq_div_pow, BitVec.toNat_sub, hand]
  simp only [Nat.even_iff]
  split <;> split <;> omega

/-- The significand of a number whose leading bit is at the top. -/
theorem toNat_significand (hm : mBits ≤ 62) (hs : s = 64 - (mBits + 1)) (y : U128) :
    (y.hi >>> (128 - (mBits + 1) - 64)).toNat = y.toNat / 2 ^ (64 + s) := by
  have hy := U128.toNat_eq y
  have hlo := y.lo.isLt
  have hhi : y.toNat / 2 ^ 64 = y.hi.toNat := by omega
  have hshift : 128 - (mBits + 1) - 64 = s := by omega
  rw [BitVec.toNat_ushiftRight, Nat.shiftRight_eq_div_pow, hshift, pow_add, ← Nat.div_div_eq_div_mul, hhi]

/-- What is below the significand is above or in the middle exactly when the folded bits are. -/
theorem folded_middle (hs : s ≤ 63) (y : U128) :
    (2 ^ 63 < ((y.shr s).lo ||| (y.lo &&& ((1#64 <<< s) - 1))).toNat ↔ 2 ^ (63 + s) < y.toNat % 2 ^ (64 + s)) ∧
      (((y.shr s).lo ||| (y.lo &&& ((1#64 <<< s) - 1))).toNat = 2 ^ 63 ↔
        y.toNat % 2 ^ (64 + s) = 2 ^ (63 + s)) := by
  have hpos : 0 < 2 ^ s := Nat.two_pow_pos s
  have hq : (y.shr s).lo.toNat = y.toNat / 2 ^ s % 2 ^ 64 := by
    have := toNat_truncateU64 (y.shr s)
    rwa [toNat_shr] at this
  have ht : (y.lo &&& ((1#64 <<< s) - 1)).toNat = y.toNat % 2 ^ s := by
    have hdvd : (2 : ℕ) ^ s ∣ 2 ^ 64 * y.hi.toNat :=
      (Nat.pow_dvd_pow 2 (by omega)).mul_right _
    have hone := U128.toNat_one_shl (show s < 64 by omega)
    have hmask : ((1#64 <<< s) - 1).toNat = 2 ^ s - 1 := by
      rw [BitVec.toNat_sub, hone]
      have : 2 ^ s < 2 ^ 64 := Nat.pow_lt_pow_right one_lt_two (by omega)
      simp
      omega
    rw [BitVec.toNat_and, hmask, Nat.and_two_pow_sub_one_eq_mod, U128.toNat_eq,
      Nat.add_mod, Nat.mod_eq_zero_of_dvd hdvd, zero_add, Nat.mod_mod]
  have hlow : y.toNat % 2 ^ (64 + s) = y.toNat % 2 ^ s + 2 ^ s * (y.toNat / 2 ^ s % 2 ^ 64) := by
    rw [add_comm, pow_add, Nat.mod_mul]
  have hhalf : (2 : ℕ) ^ (63 + s) = 2 ^ s * 2 ^ 63 := by rw [add_comm, pow_add]
  have htlt := Nat.mod_lt y.toNat hpos
  have hle : (2 : ℕ) ^ s ≤ 2 ^ 63 := Nat.pow_le_pow_right two_pos hs
  obtain ⟨hor, heq⟩ := @or_sticky (y.toNat / 2 ^ s % 2 ^ 64) (y.toNat % 2 ^ s) (by omega)
  rw [BitVec.toNat_or, hq, ht, hlow, hhalf]
  generalize y.toNat / 2 ^ s % 2 ^ 64 = q at *
  generalize y.toNat % 2 ^ s = t at *
  generalize 2 ^ s = p at *
  have hmid : t + p * q = p * 2 ^ 63 ↔ q = 2 ^ 63 ∧ t = 0 := by
    constructor
    · intro h
      have hqle : q ≤ 2 ^ 63 := by
        by_contra hgt
        have : p * (2 ^ 63 + 1) ≤ p * q := Nat.mul_le_mul_left p (by omega)
        omega
      have hqge : 2 ^ 63 ≤ q := by
        by_contra hlt
        have : p * (q + 1) ≤ p * 2 ^ 63 := Nat.mul_le_mul_left p (by omega)
        rw [mul_add, mul_one] at this
        omega
      obtain rfl : q = 2 ^ 63 := le_antisymm hqle hqge
      exact ⟨rfl, by omega⟩
    · rintro ⟨rfl, rfl⟩
      exact zero_add _
  have hbelow : t + p * q < p * 2 ^ 63 ↔ q < 2 ^ 63 := by
    constructor
    · intro h
      by_contra hge
      have : p * 2 ^ 63 ≤ p * q := Nat.mul_le_mul_left p (by omega)
      omega
    · intro h
      have : p * (q + 1) ≤ p * 2 ^ 63 := Nat.mul_le_mul_left p (by omega)
      rw [mul_add, mul_one] at this
      omega
  refine ⟨?_, heq.trans hmid.symm⟩
  have hne := not_congr (heq.trans hmid.symm)
  have hge := not_congr (hor.trans hbelow.symm)
  constructor
  · intro h
    have h1 := hge.mp (by omega)
    have h2 := hne.mp (by omega)
    omega
  · intro h
    have h1 := hge.mpr (by omega)
    have h2 := hne.mpr (by omega)
    omega

theorem toNat_shl_lt (v : U128) (h : v.toNat * 2 ^ n < 2 ^ 128) : (v.shl n).toNat = v.toNat * 2 ^ n := by
  rw [← U128.toNat_bits, U128.bits_shl, BitVec.toNat_shiftLeft, Nat.shiftLeft_eq, U128.toNat_bits,
    Nat.mod_eq_of_lt h]

/-- The value of a shifted number and of the pattern of its significand are compared in the shifted number. -/
theorem value_shifted {f : Format} {e a : ℕ} (hs : f.mBits + s = 63) (hn : n ≤ 127)
    (he : e = 127 - n + f.zeroExp - 1) (ha : 2 ^ f.mBits ≤ a ∧ a ≤ 2 ^ (f.mBits + 1)) :
    f.value (e * 2 ^ f.mBits + a) = a * 2 ^ (64 + s) / 2 ^ n := by
  have hz := Rounding.zeroExp_pos f
  have hpow : (2 : ℚ) ^ e * 2 ^ n = 2 ^ (64 + s) * f.unitsInOne := by
    rw [Format.unitsInOne]
    push_cast
    rw [← pow_add, ← pow_add]
    congr 1
    omega
  rw [Rounding.value_add ha, div_eq_div_iff Rounding.unitsInOne_pos.ne' (by positivity), mul_assoc, hpow, mul_assoc]

/-- The pattern below which a number lies, and the one it is rounded to. -/
theorem encodeFloat_eq {f : Format} (hm : f.mBits ≤ 62) (hz : (128 + f.zeroExp) * 2 ^ f.mBits < 2 ^ 64)
    (hv : v.toNat ≠ 0) : ∃ n e a y, n ≤ 127 ∧ e = 127 - n + f.zeroExp - 1 ∧ y = v.toNat * 2 ^ n ∧
      2 ^ f.mBits ≤ a ∧ a < 2 ^ (f.mBits + 1) ∧ a = y / 2 ^ (127 - f.mBits) ∧
      (v.encodeFloat f.mBits f.zeroExp).toNat = e * 2 ^ f.mBits + a +
        if 2 ^ (126 - f.mBits) < y % 2 ^ (127 - f.mBits) ∨ y % 2 ^ (127 - f.mBits) = 2 ^ (126 - f.mBits) ∧ ¬Even a
        then 1 else 0 := by
  have hsize : Nat.size v.toNat ≤ 128 := Nat.size_le.mpr v.toNat_lt
  have hsize0 : 0 < Nat.size v.toNat := Nat.size_pos.mpr (Nat.pos_of_ne_zero hv)
  have hlo : 2 ^ (Nat.size v.toNat - 1) ≤ v.toNat := Nat.lt_size.mp (by omega)
  have hhi : v.toNat < 2 ^ Nat.size v.toNat := Nat.lt_size_self _
  have hne : v ≠ ⟨0, 0⟩ := fun h => hv (h ▸ U128.toNat_zero)
  rw [U128.encodeFloat, countBits_eq, zero_add, if_neg hne]
  generalize hn : 128 - Nat.size v.toNat = n
  have hpow : 2 ^ Nat.size v.toNat * 2 ^ n = 2 ^ 128 := by
    rw [← pow_add]
    congr 1
    omega
  have hpow' : 2 ^ (Nat.size v.toNat - 1) * 2 ^ n = 2 ^ 127 := by
    rw [← pow_add]
    congr 1
    omega
  have hlt : v.toNat * 2 ^ n < 2 ^ 128 := hpow ▸ Nat.mul_lt_mul_of_pos_right hhi (Nat.two_pow_pos n)
  have hge : 2 ^ 127 ≤ v.toNat * 2 ^ n := hpow' ▸ Nat.mul_le_mul_right _ hlo
  have hs : 64 + (64 - (f.mBits + 1)) = 127 - f.mBits := by omega
  have hs' : 63 + (64 - (f.mBits + 1)) = 126 - f.mBits := by omega
  have hsig := toNat_significand hm rfl (v.shl n)
  obtain ⟨habove, hmid⟩ := folded_middle (show 64 - (f.mBits + 1) ≤ 63 by omega) (v.shl n)
  rw [toNat_shl_lt v hlt, hs] at hsig habove hmid
  rw [hs'] at habove hmid
  have ha : 2 ^ f.mBits ≤ v.toNat * 2 ^ n / 2 ^ (127 - f.mBits) := by
    rw [Nat.le_div_iff_mul_le (Nat.two_pow_pos _), ← pow_add]
    exact hge.trans' (le_of_eq (congrArg _ (by omega)))
  have ha' : v.toNat * 2 ^ n / 2 ^ (127 - f.mBits) < 2 ^ (f.mBits + 1) := by
    rw [Nat.div_lt_iff_lt_mul (Nat.two_pow_pos _), ← pow_add]
    exact hlt.trans_le (le_of_eq (congrArg _ (by omega)))
  refine ⟨n, 127 - n + f.zeroExp - 1, _, _, by omega, rfl, rfl, ha, ha', rfl, ?_⟩
  have hinc := toNat_increment ((v.shl n).hi >>> (128 - (f.mBits + 1) - 64))
    (((v.shl n).shr (64 - (f.mBits + 1))).lo ||| ((v.shl n).lo &&& ((1#64 <<< (64 - (f.mBits + 1))) - 1)))
  simp only [habove, hmid, hsig] at hinc
  have hexp : 127 - n + f.zeroExp - 1 + 2 ≤ 128 + f.zeroExp := by omega
  have hbound : (127 - n + f.zeroExp - 1) * 2 ^ f.mBits + 2 ^ (f.mBits + 1) < 2 ^ 64 := by
    have hmul := Nat.mul_le_mul_right (2 ^ f.mBits) hexp
    rw [add_mul, ← pow_succ'] at hmul
    exact hmul.trans_lt hz
  have hmb := Nat.two_pow_pos f.mBits
  have hesmall : 127 - n + f.zeroExp - 1 < 2 ^ 64 := by nlinarith
  rw [BitVec.toNat_add, BitVec.toNat_add, hsig, hinc, BitVec.toNat_shiftLeft, BitVec.toNat_ofNat,
    Nat.shiftLeft_eq, Nat.mod_eq_of_lt hesmall]
  split <;> rw [Nat.mod_eq_of_lt (a := _ * _) (by omega)] <;> omega

theorem encodeFloat_zero {zeroExp : ℕ} (hv : v.toNat = 0) : (v.encodeFloat mBits zeroExp).toNat = 0 := by
  have hzero : v = ⟨0, 0⟩ := U128.ext_toNat hv
  have hshl : (⟨0, 0⟩ : U128).shl 128 = ⟨0, 0⟩ := rfl
  have hshr (s : ℕ) : ((⟨0, 0⟩ : U128).shr s).lo = 0 := by
    apply BitVec.eq_of_toNat_eq
    exact (toNat_truncateU64 _).trans (by rw [toNat_shr, U128.toNat_zero, Nat.zero_div]; rfl)
  rw [U128.encodeFloat, countBits_eq, hv, Nat.size_zero, if_pos hzero, hzero]
  simp only [add_zero, Nat.sub_zero, hshl, hshr]
  simp

/-- `encode_float` rounds to the nearest float. -/
theorem encodeFloat_isNearest {f : Format} (hm : f.mBits ≤ 62) (hz : (128 + f.zeroExp) * 2 ^ f.mBits < 2 ^ 64)
    (v : U128) : f.IsNearest v.toNat (v.encodeFloat f.mBits f.zeroExp).toNat := by
  by_cases hv : v.toNat = 0
  · rw [encodeFloat_zero hv, hv]
    apply Rounding.isNearest_lower <;> simp [Rounding.value_nonneg]
  obtain ⟨n, e, a, y, hn, he, hy, hage, halt, ha, hcode⟩ := encodeFloat_eq hm hz hv
  have hs : f.mBits + (63 - f.mBits) = 63 := by omega
  have hwidth : 64 + (63 - f.mBits) = 127 - f.mBits := by omega
  have hd : (0 : ℚ) < 2 ^ n := by positivity
  have hhalf : 2 ^ (127 - f.mBits) = 2 * 2 ^ (126 - f.mBits) := by
    rw [← pow_succ']
    congr 1
    omega
  have hhalf' : (2 : ℚ) ^ (127 - f.mBits) = 2 * 2 ^ (126 - f.mBits) := by exact_mod_cast hhalf
  have hlt := Nat.mod_lt y (Nat.two_pow_pos (127 - f.mBits))
  have hdm := Nat.div_add_mod' y (2 ^ (127 - f.mBits))
  have heven : Even (e * 2 ^ f.mBits + a) ↔ Even a := by
    have hp : Even (2 ^ f.mBits) := Nat.even_pow.mpr ⟨even_two, f.mBits_pos.ne'⟩
    rw [Nat.even_add, iff_true_left (hp.mul_left e)]
  rw [← ha] at hdm
  rw [hcode]
  simp only [← heven]
  apply @Rounding.isNearest_of_scaled f _ _ _ (a * 2 ^ (127 - f.mBits)) _ _ hd
  · rw [value_shifted hs hn he ⟨hage, halt.le⟩, hwidth, div_mul_cancel₀ _ hd.ne']
  · rw [add_assoc, value_shifted hs hn he ⟨by omega, halt⟩, hwidth, div_mul_cancel₀ _ hd.ne', hhalf']
    push_cast
    ring
  · have hy' : (v.toNat : ℚ) * 2 ^ n = y := by exact_mod_cast hy.symm
    rw [hy']
    exact_mod_cast hdm.symm
  · rw [← hhalf]
    exact hlt.le

/-- The unsigned conversions, with the bits that the pattern has. -/
theorem toDouble_isNearestInt (v : U128) : binary64.IsNearestInt v.toNat v.toDouble.toNat := by
  have hnear : binary64.IsNearest v.toNat v.toDouble.toNat := encodeFloat_isNearest (by decide) (by decide) v
  have hv : (v.toNat : ℚ) ≤ binary64.value ((128 + binary64.zeroExp) * 2 ^ binary64.mBits) := by
    rw [Rounding.value_two_pow]
    exact_mod_cast v.toNat_lt.le
  exact Rounding.isNearestInt_natCast.mpr ⟨(hnear.ge_of_le hv).trans (by decide), hnear⟩

theorem toFloat_isNearestInt (v : U128) : binary32.IsNearestInt v.toNat v.toFloat.toNat := by
  have hnear : binary32.IsNearest v.toNat (v.encodeFloat 23 127).toNat :=
    encodeFloat_isNearest (by decide) (by decide) v
  have hv : (v.toNat : ℚ) ≤ binary32.value ((128 + binary32.zeroExp) * 2 ^ binary32.mBits) := by
    rw [Rounding.value_two_pow]
    exact_mod_cast v.toNat_lt.le
  have hle : (v.encodeFloat 23 127).toNat ≤ binary32.infinity := hnear.ge_of_le hv
  have hcut : v.toFloat.toNat = (v.encodeFloat 23 127).toNat := by
    rw [U128.toFloat, BitVec.toNat_setWidth, Nat.mod_eq_of_lt (hle.trans_lt (by decide))]
  rw [hcut]
  exact Rounding.isNearestInt_natCast.mpr ⟨hle, hnear⟩

/-- A sign is put above the magnitude. -/
theorem toNat_xor_signBit {w k : ℕ} (hk : k + 1 = w) (neg : Prop) [Decidable neg] {p : BitVec w}
    (hp : p.toNat < 2 ^ k) :
    ((if neg then 1#w <<< k else 0) ^^^ p).toNat = (if neg then 2 ^ k else 0) + p.toNat := by
  have hone : (1#w <<< k).toNat = 2 ^ k := by
    have hlt : 2 ^ k < 2 ^ w := Nat.pow_lt_pow_right one_lt_two (by omega)
    have hw : 1 < 2 ^ w := Nat.one_lt_two_pow (by omega)
    rw [BitVec.toNat_shiftLeft, Nat.shiftLeft_eq, BitVec.toNat_ofNat, Nat.mod_eq_of_lt hw, one_mul,
      Nat.mod_eq_of_lt hlt]
  have hor : 2 ^ k ^^^ p.toNat = 2 ^ k + p.toNat := by
    have hadd := Nat.two_pow_add_eq_or_of_lt hp 1
    rw [mul_one] at hadd
    rw [hadd]
    apply Nat.eq_of_testBit_eq
    intro i
    rw [Nat.testBit_xor, Nat.testBit_or, Nat.testBit_two_pow]
    by_cases hi : k = i
    · rw [← hi, Nat.testBit_lt_two_pow hp]
      simp
    · simp [hi]
  rw [BitVec.toNat_xor]
  split
  · rw [hone, hor]
  · simp

/-- The conversion goes through the magnitude, which is wrong for one number. -/
theorem isNearest_uAbs_iff {f : Format} {p : ℕ} (v : S128) (h : f.IsNearest v.uAbs.toNat p) :
    f.IsNearest v.toInt.natAbs p ↔ v.toInt ≠ -2 ^ 64 := by
  constructor
  · intro h' heq
    have habs : v.uAbs.toNat = 2 ^ 128 - 2 ^ 64 := by
      have hv : v = S128.ofInt (-2 ^ 64) := by rw [← heq, S128.ofInt_toInt]
      rw [hv]
      rfl
    have hle : p ≤ (64 + f.zeroExp) * 2 ^ f.mBits := by
      apply h'.ge_of_le
      rw [Rounding.value_two_pow, heq]
      norm_num
    have hge : (127 + f.zeroExp) * 2 ^ f.mBits ≤ p := by
      apply h.le_of_le
      rw [Rounding.value_two_pow, habs]
      norm_num
    exact absurd (Nat.le_of_mul_le_mul_right (hge.trans hle) (Nat.two_pow_pos _)) (by omega)
  · intro hne
    rwa [← (S128.uAbs_exact_iff v).mpr hne]

theorem toDouble_isNearestInt_iff (v : S128) :
    binary64.IsNearestInt v.toInt v.toDouble.toNat ↔ v.toInt ≠ -2 ^ 64 := by
  obtain ⟨hle, hnear⟩ := Rounding.isNearestInt_natCast.mp (toDouble_isNearestInt v.uAbs)
  have hlt : v.uAbs.toDouble.toNat < 2 ^ 63 := hle.trans_lt (Rounding.infinity_lt _)
  have hsign : v.cmp ⟨⟨0, 0⟩⟩ = .lt ↔ v.toInt < 0 := by
    rw [S128.cmp_zero, S128.neg_iff_msb]
  simp only [S128.toDouble, hsign]
  rw [toNat_xor_signBit rfl _ hlt]
  exact (Rounding.isNearestInt_sign_add hle).trans (isNearest_uAbs_iff v hnear)

theorem toFloat_isNearestInt_iff (v : S128) :
    binary32.IsNearestInt v.toInt v.toFloat.toNat ↔ v.toInt ≠ -2 ^ 64 := by
  obtain ⟨hle, hnear⟩ := Rounding.isNearestInt_natCast.mp (toFloat_isNearestInt v.uAbs)
  have hlt : v.uAbs.toFloat.toNat < 2 ^ 31 := hle.trans_lt (Rounding.infinity_lt _)
  have hsign : v.cmp ⟨⟨0, 0⟩⟩ = .lt ↔ v.toInt < 0 := by
    rw [S128.cmp_zero, S128.neg_iff_msb]
  simp only [S128.toFloat, hsign]
  rw [toNat_xor_signBit rfl _ hlt]
  exact (Rounding.isNearestInt_sign_add hle).trans (isNearest_uAbs_iff v hnear)

end Encode

end Mrustc.Int128
