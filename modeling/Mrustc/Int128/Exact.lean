import Mathlib
import Mrustc.Int128.S128

/-! # When the signed operations are exact

`u_abs` returns `-2 ^ 64` for `-2 ^ 64`. Away from this operand `*` and `/` are exact, and `%` is wrong
for negative divisors. `>>` loses the sign between 64 and 128 bits.
-/

namespace Mrustc.Int128.S128

variable {a b : ℤ}

/-- The sign rule of multiplication. -/
theorem signed_abs_mul (a b : ℤ) : (if retNeg a b then -(|a| * |b|) else |a| * |b|) = a * b := by
  rcases lt_or_ge a 0 with ha | ha <;> rcases lt_or_ge b 0 with hb | hb
  · simp [retNeg, ha, hb, abs_of_neg]
  · simp [retNeg, ha, hb.not_gt, abs_of_neg, abs_of_nonneg hb]
  · simp [retNeg, ha.not_gt, hb, abs_of_neg, abs_of_nonneg ha]
  · simp [retNeg, ha.not_gt, hb.not_gt, abs_of_nonneg ha, abs_of_nonneg hb]

theorem signed_abs_div (a b : ℤ) : (if retNeg a b then -(|a| / |b|) else |a| / |b|) = a.tdiv b := by
  rcases lt_or_ge a 0 with ha | ha <;> rcases lt_or_ge b 0 with hb | hb
  · rw [abs_of_neg ha, abs_of_neg hb, ← Int.neg_tdiv_neg, Int.tdiv_eq_ediv_of_nonneg (by omega)]
    simp [retNeg, ha, hb]
  · rw [abs_of_neg ha, abs_of_nonneg hb, ← Int.tdiv_eq_ediv_of_nonneg (by omega), Int.neg_tdiv]
    simp [retNeg, ha, hb.not_gt]
  · rw [abs_of_nonneg ha, abs_of_neg hb, ← Int.tdiv_eq_ediv_of_nonneg ha, Int.tdiv_neg]
    simp [retNeg, ha.not_gt, hb]
  · rw [abs_of_nonneg ha, abs_of_nonneg hb, Int.tdiv_eq_ediv_of_nonneg ha]
    simp [retNeg, ha.not_gt, hb.not_gt]

theorem tmod_abs (a b : ℤ) : a.tmod |b| = a.tmod b := by
  rcases abs_choice b with h | h <;> rw [h]
  exact Int.tmod_neg a b

/-- The remainder takes its sign from both operands. -/
theorem signed_abs_mod (a b : ℤ) :
    (if retNeg a b then -(|a| % |b|) else |a| % |b|) = if b < 0 then -a.tmod b else a.tmod b := by
  rcases lt_or_ge a 0 with ha | ha <;> rcases lt_or_ge b 0 with hb | hb
  · rw [abs_of_neg ha, abs_of_neg hb, ← Int.tmod_eq_emod_of_nonneg (by omega), Int.tmod_neg, Int.neg_tmod]
    simp [retNeg, ha, hb]
  · rw [abs_of_neg ha, abs_of_nonneg hb, ← Int.tmod_eq_emod_of_nonneg (by omega), Int.neg_tmod]
    simp [retNeg, ha, hb.not_gt]
  · rw [abs_of_nonneg ha, abs_of_neg hb, ← Int.tmod_eq_emod_of_nonneg ha, Int.tmod_neg]
    simp [retNeg, ha.not_gt, hb]
  · rw [abs_of_nonneg ha, abs_of_nonneg hb, Int.tmod_eq_emod_of_nonneg ha]
    simp [retNeg, ha.not_gt, hb.not_gt]

theorem absVal_corner : absVal (-2 ^ 64) = 2 ^ 128 - 2 ^ 64 := if_pos rfl

/-- With the operand that is its own absolute value on both sides nothing is lost. -/
theorem corner_exact : (ofInt (-2 ^ 64)).mul (ofInt (-2 ^ 64)) = ofInt (-2 ^ 64 * -2 ^ 64) ∧
    (ofInt (-2 ^ 64)).div (ofInt (-2 ^ 64)) = ofInt ((-2 ^ 64 : ℤ).tdiv (-2 ^ 64)) ∧
    (ofInt (-2 ^ 64)).mod (ofInt (-2 ^ 64)) = ofInt ((-2 ^ 64 : ℤ).tmod (-2 ^ 64)) := by
  decide +kernel

section Exact

variable (ha : -2 ^ 127 ≤ a ∧ a < 2 ^ 127) (hb : -2 ^ 127 ≤ b ∧ b < 2 ^ 127)
include ha hb

theorem mul_ofInt_of_ne (ha' : a ≠ -2 ^ 64) (hb' : b ≠ -2 ^ 64) :
    (ofInt a).mul (ofInt b) = ofInt (a * b) := by
  rw [mul_ofInt ha hb, absVal_of_ne ha', absVal_of_ne hb', signed_abs_mul]

theorem div_ofInt_of_ne (h0 : b ≠ 0) (ha' : a ≠ -2 ^ 64) (hb' : b ≠ -2 ^ 64) :
    (ofInt a).div (ofInt b) = ofInt (a.tdiv b) := by
  rw [div_ofInt ha hb h0, absVal_of_ne ha', absVal_of_ne hb', signed_abs_div]

theorem mod_ofInt_of_ne (h0 : b ≠ 0) (ha' : a ≠ -2 ^ 64) (hb' : b ≠ -2 ^ 64) :
    (ofInt a).mod (ofInt b) = ofInt (if b < 0 then -a.tmod b else a.tmod b) := by
  rw [mod_ofInt ha hb h0, absVal_of_ne ha', absVal_of_ne hb', signed_abs_mod]

/-- Taken for its own absolute value, the factor `-2 ^ 64` negates the product. -/
theorem mul_ofInt_of_eq (h : a = -2 ^ 64 ∧ b ≠ -2 ^ 64 ∨ a ≠ -2 ^ 64 ∧ b = -2 ^ 64) :
    (ofInt a).mul (ofInt b) = ofInt (-(a * b)) := by
  rw [mul_ofInt ha hb, ofInt_eq_iff]
  rcases h with ⟨rfl, hb'⟩ | ⟨ha', rfl⟩
  · rw [absVal_of_ne hb', absVal_corner, retNeg]
    rcases lt_or_ge b 0 with hb | hb
    · simp only [hb, abs_of_neg]
      simp
      omega
    · simp only [hb.not_gt, abs_of_nonneg hb]
      simp
      omega
  · rw [absVal_of_ne ha', absVal_corner, retNeg]
    rcases lt_or_ge a 0 with ha | ha
    · simp only [ha, abs_of_neg]
      simp
      omega
    · simp only [ha.not_gt, abs_of_nonneg ha]
      simp
      omega

theorem mul_ofInt_iff : (ofInt a).mul (ofInt b) = ofInt (a * b) ↔
    (a = -2 ^ 64 ∨ b = -2 ^ 64 → (2 ^ 127 : ℤ) ∣ a * b) := by
  by_cases ha' : a = -2 ^ 64
  · by_cases hb' : b = -2 ^ 64
    · subst ha' hb'
      exact iff_of_true corner_exact.1 (fun _ => by norm_num)
    · rw [mul_ofInt_of_eq ha hb (.inl ⟨ha', hb'⟩), ofInt_eq_iff]
      generalize a * b = c
      omega
  · by_cases hb' : b = -2 ^ 64
    · rw [mul_ofInt_of_eq ha hb (.inr ⟨ha', hb'⟩), ofInt_eq_iff]
      generalize a * b = c
      omega
    · exact iff_of_true (mul_ofInt_of_ne ha hb ha' hb') fun h => (h.elim ha' hb').elim

theorem div_ofInt_iff (h0 : b ≠ 0) : (ofInt a).div (ofInt b) = ofInt (a.tdiv b) ↔
    (a = -2 ^ 64 → b = -2 ^ 64) ∧ (b = -2 ^ 64 → a = -2 ^ 64 ∨ |a| < 2 ^ 64) := by
  by_cases ha' : a = -2 ^ 64
  · by_cases hb' : b = -2 ^ 64
    · subst ha' hb'
      exact iff_of_true corner_exact.2.1 ⟨fun _ => rfl, fun _ => .inl rfl⟩
    · refine iff_of_false ?_ fun h => hb' (h.1 ha')
      subst ha'
      have hpos : 0 < |b| := abs_pos.mpr h0
      have hle : |b| ≤ 2 ^ 127 := abs_le.mpr ⟨by omega, by omega⟩
      have habs : |(-2 ^ 64 : ℤ)| = 2 ^ 64 := by decide
      have hlt : 2 ^ 64 / |b| < (2 ^ 128 - 2 ^ 64) / |b| := by
        have hmul : 2 ^ 64 / |b| * |b| ≤ 2 ^ 64 := Int.ediv_mul_le _ hpos.ne'
        rw [← Int.add_one_le_iff, Int.le_ediv_iff_mul_le hpos, add_mul, one_mul]
        linarith
      have hmax : (2 ^ 128 - 2 ^ 64) / |b| < 2 ^ 128 :=
        (Int.ediv_le_self _ (by norm_num)).trans_lt (by norm_num)
      have hnn : 0 ≤ 2 ^ 64 / |b| := by positivity
      rw [div_ofInt ha hb h0, absVal_of_ne hb', absVal_corner, ofInt_eq_iff,
        ← signed_abs_div, habs]
      generalize 2 ^ 64 / |b| = q at *
      generalize (2 ^ 128 - 2 ^ 64) / |b| = q' at *
      split <;> omega
  · by_cases hb' : b = -2 ^ 64
    · subst hb'
      have habs : |(-2 ^ 64 : ℤ)| = 2 ^ 64 := by decide
      have hlt : |a| ≤ 2 ^ 127 := abs_le.mpr ⟨by omega, by omega⟩
      have hnn : 0 ≤ |a| := abs_nonneg a
      have hq : |a| / (2 ^ 128 - 2 ^ 64) = 0 := Int.ediv_eq_zero_of_lt hnn (by omega)
      rw [div_ofInt ha hb h0, absVal_of_ne ha', absVal_corner, ofInt_eq_iff,
        ← signed_abs_div, habs, hq, neg_zero, ite_self]
      split <;> omega
    · exact iff_of_true (div_ofInt_of_ne ha hb h0 ha' hb')
        ⟨fun h => (ha' h).elim, fun h => (hb' h).elim⟩

theorem mod_ofInt_iff (h0 : b ≠ 0) : (ofInt a).mod (ofInt b) = ofInt (a.tmod b) ↔
    if a = -2 ^ 64 then (if 0 < b then b ∣ 2 ^ 128 - 2 ^ 65 else b ∣ 2 ^ 64)
    else if b = -2 ^ 64 then a = 0 else b < 0 → b ∣ a := by
  by_cases ha' : a = -2 ^ 64
  · rw [if_pos ha']
    by_cases hb' : b = -2 ^ 64
    · subst ha' hb'
      exact iff_of_true corner_exact.2.2 (by norm_num)
    subst ha'
    have hpos : 0 < |b| := abs_pos.mpr h0
    have hle : |b| ≤ 2 ^ 127 := abs_le.mpr ⟨by omega, by omega⟩
    have hm := Int.emod_nonneg (2 ^ 64) hpos.ne'
    have hm' := Int.emod_nonneg (2 ^ 128 - 2 ^ 64) hpos.ne'
    have hlt := Int.emod_lt_of_pos (2 ^ 64) hpos
    have hlt' := Int.emod_lt_of_pos (2 ^ 128 - 2 ^ 64) hpos
    have hmod : (-2 ^ 64 : ℤ).tmod b = -(2 ^ 64 % |b|) := by
      rw [Int.neg_tmod, ← Int.tmod_eq_emod_of_nonneg (by norm_num), tmod_abs]
    rw [mod_ofInt ha hb h0, absVal_of_ne hb', absVal_corner, ofInt_eq_iff, hmod]
    rcases lt_or_gt_of_ne h0 with hneg | hpos'
    · have hret : retNeg (-2 ^ 64) b = false := by simp [retNeg, hneg]
      have hm0 : b ∣ 2 ^ 64 ↔ 2 ^ 64 % |b| = 0 := by rw [← abs_dvd, Int.dvd_iff_emod_eq_zero]
      rw [if_neg hneg.not_gt, hret, hm0]
      simp only [Bool.false_eq_true, if_false]
      constructor
      · intro h
        omega
      · intro h
        have hfac : (2 ^ 128 - 2 ^ 64 : ℤ) = 2 ^ 64 * (2 ^ 64 - 1) := by norm_num
        have h' : (2 ^ 128 - 2 ^ 64) % |b| = 0 := by
          rw [hfac]
          exact Int.emod_eq_zero_of_dvd ((Int.dvd_of_emod_eq_zero h).mul_right _)
        rw [h, h']
        norm_num
    · have hret : retNeg (-2 ^ 64) b = true := by simp [retNeg, hpos'.not_gt]
      have hm0 : b ∣ 2 ^ 128 - 2 ^ 65 ↔ (2 ^ 128 - 2 ^ 64) % |b| = 2 ^ 64 % |b| := by
        rw [← abs_dvd, Int.dvd_iff_emod_eq_zero, Int.emod_eq_emod_iff_emod_sub_eq_zero]
        norm_num
      rw [if_pos hpos', hret, hm0]
      simp only [if_true]
      omega
  · rw [if_neg ha']
    by_cases hb' : b = -2 ^ 64
    · subst hb'
      have hlt : |a| ≤ 2 ^ 127 := abs_le.mpr ⟨by omega, by omega⟩
      have hmod : |a| % (2 ^ 128 - 2 ^ 64) = |a| := Int.emod_eq_of_lt (abs_nonneg a) (by omega)
      rw [if_pos rfl, mod_ofInt ha hb h0, absVal_of_ne ha', absVal_corner, ofInt_eq_iff, hmod,
        Int.tmod_neg]
      rcases lt_or_ge a 0 with hneg | hpos
      · have hret : retNeg a (-2 ^ 64) = false := by simp [retNeg, hneg]
        have habs : a.tmod (2 ^ 64) = -(-a % 2 ^ 64) := by
          rw [← Int.tmod_eq_emod_of_nonneg (by omega), Int.neg_tmod, neg_neg]
        rw [hret, abs_of_neg hneg, habs]
        simp only [Bool.false_eq_true, if_false]
        omega
      · have hret : retNeg a (-2 ^ 64) = true := by simp [retNeg, hpos.not_gt]
        rw [hret, abs_of_nonneg hpos, Int.tmod_eq_emod_of_nonneg hpos]
        simp only [if_true]
        omega
    · rw [if_neg hb', mod_ofInt_of_ne ha hb h0 ha' hb', ofInt_eq_iff]
      rcases lt_or_ge b 0 with hneg | hpos
      · have hlt := Int.tmod_lt_of_pos a (neg_pos.mpr hneg)
        have hgt := Int.tmod_lt_of_pos (-a) (neg_pos.mpr hneg)
        have hdvd : b ∣ a ↔ a.tmod b = 0 := Int.dvd_iff_tmod_eq_zero
        rw [Int.neg_tmod, Int.tmod_neg] at hgt
        rw [Int.tmod_neg] at hlt
        rw [if_pos hneg, hdvd]
        omega
      · rw [if_neg hpos.not_gt, sub_self]
        exact iff_of_true (dvd_zero _) fun h => absurd h hpos.not_gt

end Exact

section Values

theorem toInt_mem (v : S128) : -2 ^ 127 ≤ v.toInt ∧ v.toInt < 2 ^ 127 :=
  ⟨BitVec.le_toInt _, BitVec.toInt_lt⟩

theorem natAbs_lt (v : S128) : v.toInt.natAbs < 2 ^ 128 := by
  have hv := toInt_mem v
  omega

theorem mul_exact_iff (a b : S128) : a.mul b = ofInt (a.toInt * b.toInt) ↔
    (a.toInt = -2 ^ 64 ∨ b.toInt = -2 ^ 64 → (2 ^ 127 : ℤ) ∣ a.toInt * b.toInt) := by
  have h := mul_ofInt_iff (toInt_mem a) (toInt_mem b)
  rwa [ofInt_toInt, ofInt_toInt] at h

theorem div_exact_iff (a : S128) {b : S128} (h0 : b.toInt ≠ 0) :
    a.div b = ofInt (a.toInt.tdiv b.toInt) ↔ (a.toInt = -2 ^ 64 → b.toInt = -2 ^ 64) ∧
      (b.toInt = -2 ^ 64 → a.toInt = -2 ^ 64 ∨ |a.toInt| < 2 ^ 64) := by
  have h := div_ofInt_iff (toInt_mem a) (toInt_mem b) h0
  rwa [ofInt_toInt, ofInt_toInt] at h

theorem mod_exact_iff (a : S128) {b : S128} (h0 : b.toInt ≠ 0) :
    a.mod b = ofInt (a.toInt.tmod b.toInt) ↔
      if a.toInt = -2 ^ 64 then (if 0 < b.toInt then b.toInt ∣ 2 ^ 128 - 2 ^ 65 else b.toInt ∣ 2 ^ 64)
      else if b.toInt = -2 ^ 64 then a.toInt = 0 else b.toInt < 0 → b.toInt ∣ a.toInt := by
  have h := mod_ofInt_iff (toInt_mem a) (toInt_mem b) h0
  rwa [ofInt_toInt, ofInt_toInt] at h

theorem uAbs_exact_iff (a : S128) : a.uAbs.toNat = a.toInt.natAbs ↔ a.toInt ≠ -2 ^ 64 := by
  have ha := natAbs_lt a
  have h := uAbs_ofInt (toInt_mem a)
  rw [ofInt_toInt] at h
  rw [h, toNat_ofInt, absVal]
  by_cases heq : a.toInt = -2 ^ 64
  · rw [if_pos heq, heq]
    decide
  · rw [if_neg heq, Int.abs_eq_natAbs]
    refine iff_of_true ?_ heq
    omega

/-- From 128 bits on only the sign is left. -/
theorem shr_of_ge (a : S128) {n : ℕ} (hn : 128 ≤ n) : a.shr n = ofInt (a.toInt >>> n) := by
  have h0 : n ≠ 0 := by omega
  have ha := toInt_mem a
  have hpow : (2 : ℤ) ^ 127 < 2 ^ n := pow_lt_pow_right₀ (by norm_num) (by omega)
  rw [shr, if_neg h0, if_pos hn, Int.shiftRight_eq_div_pow, Nat.cast_pow, Nat.cast_ofNat]
  by_cases hneg : a.toInt < 0
  · have hdiv : a.toInt / 2 ^ n = -1 := by
      rw [Int.ediv_eq_iff_of_pos (by positivity)]
      constructor
      · linarith
      · linarith
    rw [if_pos ((cmp_zero a).mpr ((neg_iff_msb a).mp hneg)), hdiv]
    decide
  · have hdiv : a.toInt / 2 ^ n = 0 := Int.ediv_eq_zero_of_lt (not_lt.mp hneg) (by linarith)
    rw [if_neg (mt (cmp_zero a).mp (mt (neg_iff_msb a).mpr hneg)), hdiv]
    decide

theorem shr_exact_iff (a : S128) (n : ℕ) :
    a.shr n = ofInt (a.toInt >>> n) ↔ (a.toInt < 0 → n ≤ 64 ∨ 128 ≤ n) := by
  by_cases hn : n < 128
  · have h := shr_ofInt_iff (toInt_mem a) hn
    rw [ofInt_toInt] at h
    rw [h]
    omega
  · exact iff_of_true (shr_of_ge a (not_lt.mp hn)) fun _ => .inr (not_lt.mp hn)

theorem cmp_exact (a b : S128) : a.cmp b = compare a.toInt b.toInt := by
  have h := cmp_ofInt (toInt_mem a) (toInt_mem b)
  rwa [ofInt_toInt, ofInt_toInt] at h

/-- The operations are those of two's complement if and only if the operands avoid `-2 ^ 64`, the
remainder has no negative divisor that leaves one, and no negative value is shifted by 65 to 127 bits. -/
theorem signed_exact_iff (a b : S128) (n : ℕ) :
    (a.mul b = ofInt (a.toInt * b.toInt) ↔
      (a.toInt = -2 ^ 64 ∨ b.toInt = -2 ^ 64 → (2 ^ 127 : ℤ) ∣ a.toInt * b.toInt)) ∧
    (b.toInt ≠ 0 → (a.div b = ofInt (a.toInt.tdiv b.toInt) ↔
      (a.toInt = -2 ^ 64 → b.toInt = -2 ^ 64) ∧
        (b.toInt = -2 ^ 64 → a.toInt = -2 ^ 64 ∨ |a.toInt| < 2 ^ 64))) ∧
    (b.toInt ≠ 0 → (a.mod b = ofInt (a.toInt.tmod b.toInt) ↔
      if a.toInt = -2 ^ 64 then (if 0 < b.toInt then b.toInt ∣ 2 ^ 128 - 2 ^ 65 else b.toInt ∣ 2 ^ 64)
      else if b.toInt = -2 ^ 64 then a.toInt = 0 else b.toInt < 0 → b.toInt ∣ a.toInt)) ∧
    (a.uAbs.toNat = a.toInt.natAbs ↔ a.toInt ≠ -2 ^ 64) ∧
    (a.shr n = ofInt (a.toInt >>> n) ↔ (a.toInt < 0 → n ≤ 64 ∨ 128 ≤ n)) ∧
    a.cmp b = compare a.toInt b.toInt :=
  ⟨mul_exact_iff a b, div_exact_iff a, mod_exact_iff a, uAbs_exact_iff a, shr_exact_iff a n,
    cmp_exact a b⟩

/-- `7 % -3` is `-1`, `u_abs` of `-2 ^ 64` is `2 ^ 128 - 2 ^ 64`, and `-1 >> 65` is not `-1`. -/
theorem signed_inexact :
    (ofInt 7).mod (ofInt (-3)) = ofInt (-1) ∧ (ofInt 7).mod (ofInt (-3)) ≠ ofInt ((7 : ℤ).tmod (-3)) ∧
      (ofInt (-2 ^ 64)).uAbs.toNat = 2 ^ 128 - 2 ^ 64 ∧
      (ofInt (-1)).shr 65 ≠ ofInt ((-1 : ℤ) >>> 65) := by
  decide +kernel

end Values

end Mrustc.Int128.S128
