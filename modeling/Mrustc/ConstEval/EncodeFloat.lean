import Mrustc.ConstEval.Floats

/-! # Integers are rounded to the nearest float -/

namespace Mrustc.Int128.U128

open Rounding (Format)

theorem toDouble_le_infinity (v : U128) : v.toDouble.toNat ≤ binary64.infinity :=
  (Rounding.isNearestInt_natCast.mp (toDouble_isNearestInt v)).1

theorem toFloat_le_infinity (v : U128) : v.toFloat.toNat ≤ binary32.infinity :=
  (Rounding.isNearestInt_natCast.mp (toFloat_isNearestInt v)).1

theorem toDouble_isNearest (v : U128) : binary64.IsNearest v.toNat v.toDouble.toNat :=
  (Rounding.isNearestInt_natCast.mp (toDouble_isNearestInt v)).2

theorem toFloat_isNearest (v : U128) : binary32.IsNearest v.toNat v.toFloat.toNat :=
  (Rounding.isNearestInt_natCast.mp (toFloat_isNearestInt v)).2

/-- Only zero is rounded to zero, since one has a pattern. -/
theorem rounded_eq_zero_iff {f : Format} {n r : ℕ} (h : f.IsNearest n r) : r = 0 ↔ n = 0 := by
  have hone : f.value (f.zeroExp * 2 ^ f.mBits) = 1 := by
    have := @Rounding.value_two_pow f 0
    rwa [zero_add, pow_zero] at this
  constructor
  · rintro rfl
    by_contra hn
    have hle := h.le_of_le (hone.trans_le (by exact_mod_cast Nat.one_le_iff_ne_zero.mpr hn))
    have hpos := Nat.mul_pos (Rounding.zeroExp_pos f) (Nat.two_pow_pos f.mBits)
    omega
  · rintro rfl
    rw [Nat.cast_zero, ← @Rounding.value_zero f] at h
    exact h.eq_of_value

/-- From halfway between the last finite number and the power of two after it on, the single is infinite. -/
theorem toFloat_eq_infinity_iff (v : U128) :
    v.toFloat.toNat = binary32.infinity ↔ 2 ^ 128 - 2 ^ 103 ≤ v.toNat := by
  have hlast : binary32.value (254 * 2 ^ 23 + (2 ^ 23 - 1)) = 2 ^ 128 - 2 ^ 104 := by
    have hsplit : 254 * 2 ^ 23 + (2 ^ 23 - 1) = 253 * 2 ^ binary32.mBits + (2 ^ 24 - 1) := by
      simp only [binary32]
      norm_num
    rw [hsplit, Rounding.value_add (by simp only [binary32]; norm_num)]
    simp only [Format.unitsInOne, Format.zeroExp, binary32]
    norm_num
  have hinf : binary32.value (254 * 2 ^ 23 + (2 ^ 23 - 1) + 1) = 2 ^ 128 := by
    have hpat : 254 * 2 ^ 23 + (2 ^ 23 - 1) + 1 = (128 + binary32.zeroExp) * 2 ^ binary32.mBits := by decide
    rw [hpat]
    exact Rounding.value_two_pow 128
  have hmid : binary32.value (254 * 2 ^ 23 + (2 ^ 23 - 1)) + binary32.value (254 * 2 ^ 23 + (2 ^ 23 - 1) + 1) =
      2 * ((2 ^ 128 - 2 ^ 103 : ℕ) : ℚ) := by
    rw [hlast, hinf]
    push_cast
    norm_num
  have htop : binary32.infinity = 254 * 2 ^ 23 + (2 ^ 23 - 1) + 1 := by decide
  rw [htop, (toFloat_isNearest v).eq_succ_iff (htop ▸ toFloat_le_infinity v) (by decide), hmid]
  constructor
  · intro h
    exact_mod_cast (mul_le_mul_iff_right₀ two_pos).mp h
  · intro h
    exact (mul_le_mul_iff_right₀ two_pos).mpr (by exact_mod_cast h)

/-- `encode_float` gives the nearest double and, in its low 32 bits, the nearest single: ties go to the even pattern,
singles are infinite from the rounding limit on, doubles never are, and zero is zero. -/
theorem encodeFloat_rounds (v : U128) :
    binary64.RoundsTo v.toNat (v.encodeFloat 52 1023).toNat ∧
      binary32.RoundsTo v.toNat ((v.encodeFloat 23 127).setWidth 32).toNat ∧
      (v.encodeFloat 52 1023).toNat < binary64.infinity ∧
      (((v.encodeFloat 23 127).setWidth 32).toNat = binary32.infinity ↔ 2 ^ 128 - 2 ^ 103 ≤ v.toNat) ∧
      ((v.encodeFloat 52 1023).toNat = 0 ↔ v.toNat = 0) ∧
      (((v.encodeFloat 23 127).setWidth 32).toNat = 0 ↔ v.toNat = 0) := by
  have hdouble := toDouble_isNearest v
  have hfloat := toFloat_isNearest v
  refine ⟨hdouble.roundsTo (toDouble_le_infinity v), hfloat.roundsTo (toFloat_le_infinity v), ?_,
    toFloat_eq_infinity_iff v, rounded_eq_zero_iff hdouble, rounded_eq_zero_iff hfloat⟩
  have hv : (v.toNat : ℚ) ≤ binary64.value ((128 + binary64.zeroExp) * 2 ^ binary64.mBits) := by
    rw [Rounding.value_two_pow]
    exact_mod_cast v.toNat_lt.le
  exact (hdouble.ge_of_le hv).trans_lt (by decide)

/-- Halfway between two singles the even one is taken. -/
example : (ofNat (2 ^ 24 + 1)).encodeFloat 23 127 = (ofNat (2 ^ 24)).encodeFloat 23 127 := by decide +kernel

end Mrustc.Int128.U128
