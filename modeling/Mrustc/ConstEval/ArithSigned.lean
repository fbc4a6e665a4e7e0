import Mrustc.ConstEval.ArithUnsigned

/-! # The signed arm of the checked arithmetic

Types of up to 64 bits are computed without overflow in 128 bits, and no overflow is ever seen. For 128 bits
the absolute value of `-2 ^ 64` is wrong, and the limits of a saturated sum are.
-/

namespace Mrustc.ConstEval

open Mir (BinOp)
open Int128

section Range

variable {ti : TypeInfo} {z : ℤ}

theorem fits_signed (hty : ti.ty = .signed) : ti.Fits z ↔ -2 ^ (ti.bits - 1) ≤ z ∧ z < 2 ^ (ti.bits - 1) := by
  rw [TypeInfo.Fits, if_pos hty]

theorem two_pow_pred (hti : ti.Integer) : (2 : ℤ) ^ ti.bits = 2 * 2 ^ (ti.bits - 1) := by
  rw [← pow_succ', Nat.sub_add_cancel hti.pos]

/-- The width is 128, or the values have at most 64 bits. -/
theorem pred_le (hti : ti.Integer) :
    ti.bits = 128 ∧ (2 : ℤ) ^ (ti.bits - 1) = 2 ^ 127 ∨
      ti.bits ≠ 128 ∧ (2 : ℤ) ^ (ti.bits - 1) ≤ 2 ^ 63 := by
  rcases hti.le with h | h
  · exact .inr ⟨by omega, pow_le_pow_right₀ (by norm_num) (by omega)⟩
  · exact .inl ⟨h, by rw [h]⟩

theorem range_of_fits (hti : ti.Integer) (hty : ti.ty = .signed) (h : ti.Fits z) : -2 ^ 127 ≤ z ∧ z < 2 ^ 127 := by
  have hz := (fits_signed hty).mp h
  rcases pred_le hti with ⟨-, hp⟩ | ⟨-, hp⟩
  · rwa [hp] at hz
  · constructor <;> linarith

theorem bmod_mem (z : ℤ) : -2 ^ 127 ≤ z.bmod (2 ^ 128) ∧ z.bmod (2 ^ 128) < 2 ^ 127 := by
  rw [← S128.toInt_ofInt]
  exact S128.toInt_mem _

theorem ofInt_bmod (z : ℤ) : S128.ofInt (z.bmod (2 ^ 128)) = S128.ofInt z := by
  rw [← S128.toInt_ofInt, S128.ofInt_toInt]

theorem le_absVal (z : ℤ) : |z| ≤ S128.absVal z := by
  rw [S128.absVal]
  split
  · rename_i h
    rw [h]
    norm_num
  · exact le_rfl

theorem maskS_bmod (hti : ti.Integer) (z : ℤ) :
    ti.maskS (S128.ofInt z) = U128.ofInt ((z.bmod (2 ^ 128)).tmod (2 ^ ti.bits)) := by
  rw [← ofInt_bmod, maskS_ofInt hti (bmod_mem z)]

theorem tmod_of_abs_lt {n : ℤ} (h : |z| < n) : z.tmod n = z := by
  have h := abs_lt.mp h
  rcases lt_or_ge z 0 with hneg | hnn
  · rw [← neg_neg z, Int.neg_tmod, Int.tmod_eq_of_lt (by omega) (by omega)]
  · exact Int.tmod_eq_of_lt hnn h.2

/-- With 128 bits nothing is masked. -/
theorem maskS_wide (hti : ti.Integer) (h : ti.bits = 128) (v : S128) : ti.maskS v = v.inner := by
  have hv := S128.toInt_mem v
  rw [← S128.ofInt_toInt v, maskS_ofInt hti hv, h, tmod_of_abs_lt (abs_lt.mpr ⟨by omega, by omega⟩)]
  rfl

end Range

section Products

variable {saturate : Bool} {x y z : ℤ}

/-- A product is taken to overflow if its absolute value is less than that of a factor. -/
def ProductOverflow (x y z : ℤ) : Prop :=
  x ≠ 0 ∧ y ≠ 0 ∧ (S128.absVal z < S128.absVal x ∨ S128.absVal z < S128.absVal y)

instance decidableProductOverflow (x y z : ℤ) : Decidable (ProductOverflow x y z) := by
  unfold ProductOverflow
  infer_instance

/-- The exact product does not look like an overflow if neither factor is `-2 ^ 64`. -/
theorem not_productOverflow (hx : x ≠ -2 ^ 64) (hy : y ≠ -2 ^ 64) : ¬ProductOverflow x y (x * y) := by
  rintro ⟨h1, h2, h⟩
  have habs := le_absVal (x * y)
  have hone := Int.one_le_abs h1
  have hone' := Int.one_le_abs h2
  rw [S128.absVal_of_ne hx, S128.absVal_of_ne hy] at h
  rw [abs_mul] at habs
  rcases h with h | h <;> nlinarith

theorem bmod_of_dvd (hz : -2 ^ 127 ≤ z ∧ z < 2 ^ 127) {m : ℤ} (h : (2 ^ 128 : ℤ) ∣ z - m) :
    m.bmod (2 ^ 128) = z := by
  have hm := bmod_mem m
  have heq := S128.ofInt_eq_iff.mpr h
  have heq := congrArg S128.toInt heq
  rw [S128.toInt_ofInt_of_mem hz, S128.toInt_ofInt] at heq
  exact heq.symm

/-- `z` is the word of a product of 128 bits; it is wrong where a factor is `-2 ^ 64`. -/
theorem wideProduct_iff (hx : -2 ^ 127 ≤ x ∧ x < 2 ^ 127) (hy : -2 ^ 127 ≤ y ∧ y < 2 ^ 127)
    (hz : -2 ^ 127 ≤ z ∧ z < 2 ^ 127)
    (hmul : (2 ^ 128 : ℤ) ∣ z - x * y ↔ (x = -2 ^ 64 ∨ y = -2 ^ 64 → (2 ^ 127 : ℤ) ∣ x * y)) :
    ((ProductOverflow x y z ↔ ¬(-2 ^ 127 ≤ x * y ∧ x * y < 2 ^ 127)) ∧
      (ProductOverflow x y z → saturate = false) ∧ (2 ^ 128 : ℤ) ∣ z - x * y) ↔ WideProduct saturate x y := by
  have habs : ∀ a : ℤ, -2 ^ 127 ≤ a ∧ a < 2 ^ 127 → |a| ≤ 2 ^ 127 :=
    fun a ha => abs_le.mpr ⟨ha.1, ha.2.le⟩
  have hbig : S128.absVal (-2 ^ 64) = 2 ^ 128 - 2 ^ 64 := if_pos rfl
  rw [WideProduct]
  by_cases hfits : -2 ^ 127 ≤ x * y ∧ x * y < 2 ^ 127
  · rw [if_pos hfits]
    simp only [hfits, and_self, not_true_eq_false, iff_false]
    constructor
    · rintro ⟨hp, -, hd⟩
      by_contra hcon
      simp only [not_or, not_and_or, not_not] at hcon
      obtain ⟨hx0, hy0, hcon⟩ := hcon
      have hdvd := hmul.mp hd hcon
      have hxy : x * y ≠ 0 := mul_ne_zero hx0 hy0
      have hval : x * y = -2 ^ 127 := by omega
      have hz' : z = -2 ^ 127 := by omega
      have hza : S128.absVal z = 2 ^ 127 := by rw [hz']; decide
      refine hp ⟨hx0, hy0, ?_⟩
      rcases hcon with h | h <;> rw [h, hbig, hza] <;> norm_num
    · intro h
      have hne : x = 0 ∨ y = 0 ∨ (x ≠ -2 ^ 64 ∧ y ≠ -2 ^ 64) := h
      have hd : (2 ^ 128 : ℤ) ∣ z - x * y := by
        refine hmul.mpr fun hc => ?_
        rcases h with rfl | rfl | h
        · simp
        · simp
        · exact (hc.elim h.1 h.2).elim
      have hz' : z = x * y := by omega
      have hsilent : ¬ProductOverflow x y z := by
        rcases hne with h | h | h
        · exact fun hp => hp.1 h
        · exact fun hp => hp.2.1 h
        · rw [hz']
          exact not_productOverflow h.1 h.2
      exact ⟨hsilent, fun hp => absurd hp hsilent, hd⟩
  · rw [if_neg hfits]
    simp only [hfits, not_false_eq_true, iff_true]
    have hx0 : x ≠ 0 := by
      rintro rfl
      exact hfits (by simp)
    have hy0 : y ≠ 0 := by
      rintro rfl
      exact hfits (by simp)
    constructor
    · rintro ⟨hp, hs, hd⟩
      have hdvd := hmul.mp hd
      refine ⟨hs hp, ?_, ?_, ?_⟩
      · rintro rfl
        have h := hdvd (.inl rfl)
        omega
      · rintro rfl
        have h := hdvd (.inr rfl)
        omega
      · by_cases hx' : x = -2 ^ 64
        · exact .inl hx'
        by_cases hy' : y = -2 ^ 64
        · exact .inr (.inl hy')
        obtain ⟨-, -, hp⟩ := hp
        rw [bmod_of_dvd hz hd]
        rw [S128.absVal_of_ne hx', S128.absVal_of_ne hy'] at hp
        have hxa := habs x hx
        have hya := habs y hy
        have hz' : z ≠ -2 ^ 64 := by
          rintro rfl
          rw [hbig] at hp
          omega
        rw [S128.absVal_of_ne hz'] at hp
        exact .inr (.inr ⟨hz', lt_max_iff.mpr hp⟩)
    · rintro ⟨hs, h1, h2, h3⟩
      have hdvd : x = -2 ^ 64 ∨ y = -2 ^ 64 → (2 ^ 127 : ℤ) ∣ x * y := by
        rintro (rfl | rfl)
        · have h := h1 rfl
          omega
        · have h := h2 rfl
          omega
      have hd := hmul.mpr hdvd
      have hza : (2 ^ 127 : ℤ) ∣ x * y → S128.absVal z < 2 ^ 128 - 2 ^ 64 := by
        intro h
        have hz' : z ≠ -2 ^ 64 := by omega
        rw [S128.absVal_of_ne hz']
        exact (habs z hz).trans_lt (by norm_num)
      refine ⟨⟨hx0, hy0, ?_⟩, fun _ => hs, hd⟩
      by_cases hx' : x = -2 ^ 64
      · have h := hza (hdvd (.inl hx'))
        rw [hx', hbig]
        exact .inl h
      by_cases hy' : y = -2 ^ 64
      · have h := hza (hdvd (.inr hy'))
        rw [hy', hbig]
        exact .inr h
      obtain ⟨hw, hlt⟩ := (h3.resolve_left hx').resolve_left hy'
      rw [bmod_of_dvd hz hd] at hw hlt
      rw [S128.absVal_of_ne hx', S128.absVal_of_ne hy', S128.absVal_of_ne hw]
      exact lt_max_iff.mp hlt

end Products

section Signed

variable {ti : TypeInfo} {saturate : Bool} {x y : ℤ}

theorem sumSign_ofInt (hx : -2 ^ 127 ≤ x ∧ x < 2 ^ 127) (hy : -2 ^ 127 ≤ y ∧ y < 2 ^ 127) :
    sumSign (S128.ofInt x) (S128.ofInt y) = decide (x + y < 0) := by
  have habs : ∀ z : ℤ, -2 ^ 127 ≤ z ∧ z < 2 ^ 127 →
      (if decide (z < 0) = true then (U128.ofInt z).not.add ⟨1, 0⟩ else U128.ofInt z) = U128.ofInt |z| := by
    intro z hz
    have hone : (⟨1, 0⟩ : U128) = U128.ofInt 1 := by decide
    by_cases h : z < 0
    · rw [if_pos (decide_eq_true h), S128.unot_ofInt, hone, S128.uadd_ofInt, abs_of_neg h]
      congr 1
      ring
    · rw [if_neg (by simpa using h), abs_of_nonneg (not_lt.mp h)]
  have hmem : ∀ z : ℤ, -2 ^ 127 ≤ z ∧ z < 2 ^ 127 → 0 ≤ |z| ∧ |z| < 2 ^ 128 := fun z hz =>
    ⟨abs_nonneg z, abs_lt.mpr ⟨by omega, by omega⟩⟩
  simp only [sumSign, cmp_zero_lt hx, cmp_zero_lt hy, S128.inner_ofInt, habs x hx, habs y hy,
    ucmp_ofInt (hmem x hx) (hmem y hy), compare_lt_iff_lt, compare_gt_iff_gt]
  rcases lt_or_ge x 0 with h1 | h1 <;> rcases lt_or_ge y 0 with h2 | h2
  · simp [h1, h2]
    omega
  · simp [h1, h2.not_gt, abs_of_neg h1, abs_of_nonneg h2]
    omega
  · simp [h1.not_gt, h2, abs_of_neg h2, abs_of_nonneg h1]
    omega
  · simp [h1.not_gt, h2.not_gt]
    omega

variable (hti : ti.Integer) (hty : ti.ty = .signed) (hx : ti.Fits x) (hy : ti.Fits y)
include hti hty hx hy

/-- A sum of narrow operands is taken to fit, and the limits of a wide one are wrong. -/
theorem signed_add_exact_iff : IntExact ti .add saturate x y
    (arithSigned ti .add (S128.ofInt x) (S128.ofInt y) saturate) ↔
      ti.Fits (x + y) ∨ (ti.bits = 128 ∧ saturate = false) := by
  have hxr := range_of_fits hti hty hx
  have hyr := range_of_fits hti hty hy
  have hx := (fits_signed hty).mp hx
  have hy := (fits_signed hty).mp hy
  have hmem := bmod_mem (x + y)
  have hlim : U128.shl ⟨0, 0⟩ (ti.bits - 1) = U128.ofInt 0 := by
    rw [← ofInt_zero, S128.ushl_ofInt, zero_mul]
  have hone : (⟨1, 0⟩ : U128) = U128.ofInt 1 := by decide
  have hcmp : (S128.mk (U128.ofInt (x + y))).cmp ⟨⟨0, 0⟩⟩ = .lt ↔ (x + y).bmod (2 ^ 128) < 0 := by
    rw [← cmp_zero_lt hmem, ofInt_bmod]
    rfl
  have hover : (decide ((x + y).bmod (2 ^ 128) < 0) ≠ decide (x + y < 0)) ↔
      ¬(-2 ^ 127 ≤ x + y ∧ x + y < 2 ^ 127) := by
    rw [ne_eq, decide_eq_decide, Int.bmod_def]
    omega
  have hpick : (if x + y < 0 then U128.ofInt 0 else U128.ofInt (0 - 1)) =
      U128.ofInt (if x + y < 0 then 0 else -1) := by
    rw [apply_ite U128.ofInt]
    rfl
  simp only [arithSigned, sumSign_ofInt hxr hyr, S128.inner_ofInt, S128.uadd_ofInt, hcmp, hlim, hone, S128.usub_ofInt,
    hover, decide_eq_true_eq, hpick]
  rw [intExact_limit hti (by simp) rfl, sub_self, fits_signed hty, TypeInfo.min, TypeInfo.max, if_pos hty, if_pos hty]
  rcases pred_le hti with ⟨h128, hp⟩ | ⟨h128, hp⟩
  · rw [hp, h128]
    simp only [dvd_zero, implies_true, and_true, true_and, iff_self]
    by_cases hfits : -2 ^ 127 ≤ x + y ∧ x + y < 2 ^ 127
    · exact iff_of_true (fun h => absurd hfits h) (.inl hfits)
    · simp only [hfits, not_false_eq_true, true_imp_iff, false_or]
      cases saturate
      · simp
      · refine iff_of_false (fun h => ?_) (by decide)
        have h := h rfl
        split at h <;> revert h <;> norm_num
  · simp only [h128, false_and, or_false, dvd_zero, implies_true, and_true]
    have hr : -2 ^ 127 ≤ x + y ∧ x + y < 2 ^ 127 := ⟨by linarith, by linarith⟩
    simp only [hr, and_self, not_true_eq_false, false_imp_iff, and_true, false_iff, not_not]

theorem signed_sub_exact_iff : IntExact ti .sub saturate x y
    (arithSigned ti .sub (S128.ofInt x) (S128.ofInt y) saturate) ↔ ti.Fits (x - y) := by
  have hx := (fits_signed hty).mp hx
  have hy := (fits_signed hty).mp hy
  have hpow := two_pow_pred hti
  have hmask : ti.maskS (S128.ofInt (x - y)) = U128.ofInt (x - y) := by
    rcases pred_le hti with ⟨h128, hp⟩ | ⟨h128, hp⟩
    · rw [maskS_wide hti h128]
      rfl
    · rw [maskS_ofInt hti ⟨by linarith, by linarith⟩, tmod_of_abs_lt (abs_lt.mpr ⟨by linarith, by linarith⟩)]
  have hcmp : (U128.ofInt (x - y)).cmp (U128.ofInt (x - y)) = .eq := by
    rw [U128.cmp_eq, compare_eq_iff_eq]
  simp only [arithSigned, S128.sub_ofInt, S128.inner_ofInt, hmask, hcmp, ne_eq, not_true_eq_false, decide_false,
    false_and, if_false]
  rw [intExact_silent hti (by simp) rfl, sub_self]
  simp

theorem narrow_ne (h128 : ti.bits ≠ 128) : x ≠ -2 ^ 64 ∧ y ≠ -2 ^ 64 ∧ |x| ≤ 2 ^ 63 ∧ |y| ≤ 2 ^ 63 := by
  have hx := (fits_signed hty).mp hx
  have hy := (fits_signed hty).mp hy
  rcases pred_le hti with ⟨h, -⟩ | ⟨-, hp⟩
  · exact absurd h h128
  · exact ⟨by linarith, by linarith, abs_le.mpr ⟨by linarith, by linarith⟩,
      abs_le.mpr ⟨by linarith, by linarith⟩⟩

theorem signed_div_exact_iff : IntExact ti .div saturate x y
    (arithSigned ti .div (S128.ofInt x) (S128.ofInt y) saturate) ↔
      (y ≠ 0 → (x = -2 ^ 64 → y = -2 ^ 64) ∧ (y = -2 ^ 64 → x = -2 ^ 64 ∨ |x| < 2 ^ 64)) := by
  have hxr := range_of_fits hti hty hx
  have hyr := range_of_fits hti hty hy
  rw [arithSigned]
  by_cases h0 : y = 0
  · rw [if_pos ((cmp_zero_eq hyr).mpr h0), h0]
    exact iff_of_true (intExact_none (exactResult_div_zero _) _) fun h => absurd rfl h
  rw [if_neg (mt (cmp_zero_eq hyr).mp h0), ← S128.div_ofInt_iff hxr hyr h0]
  simp only [ne_eq, h0, not_false_eq_true, true_imp_iff]
  by_cases h128 : ti.bits = 128
  · rw [maskS_wide hti h128, ← S128.ofInt_toInt ((S128.ofInt x).div (S128.ofInt y)), S128.inner_ofInt,
      intExact_plain hti (by decide) (exactResult_div h0 _), S128.ofInt_eq_iff, h128]
  · obtain ⟨hx', hy', hxle, -⟩ := narrow_ne hti hty hx hy h128
    have hquot := S128.div_ofInt_of_ne hxr hyr h0 hx' hy'
    have hle : |x.tdiv y| ≤ |x| := by
      rw [Int.abs_eq_natAbs, Int.abs_eq_natAbs]
      exact_mod_cast Int.natAbs_tdiv_le_natAbs x y
    have hmem := abs_le.mp (hle.trans hxle)
    rw [hquot, maskS_ofInt hti ⟨by linarith, by linarith⟩, intExact_plain hti (by decide) (exactResult_div h0 _)]
    exact iff_of_true (dvd_tmod_sub _ _) rfl

theorem signed_mod_exact_iff : IntExact ti .mod saturate x y
    (arithSigned ti .mod (S128.ofInt x) (S128.ofInt y) saturate) ↔
      (y ≠ 0 → if x = -2 ^ 64 then (if 0 < y then y ∣ 2 ^ 128 - 2 ^ 65 else y ∣ 2 ^ 64)
        else if y = -2 ^ 64 then x = 0 else y < 0 → y ∣ x) := by
  have hxr := range_of_fits hti hty hx
  have hyr := range_of_fits hti hty hy
  rw [arithSigned]
  by_cases h0 : y = 0
  · rw [if_pos ((cmp_zero_eq hyr).mpr h0), h0]
    exact iff_of_true (intExact_none (exactResult_mod_zero _) _) fun h => absurd rfl h
  rw [if_neg (mt (cmp_zero_eq hyr).mp h0)]
  by_cases h128 : ti.bits = 128
  · rw [← S128.mod_ofInt_iff hxr hyr h0, maskS_wide hti h128,
      ← S128.ofInt_toInt ((S128.ofInt x).mod (S128.ofInt y)), S128.inner_ofInt,
      intExact_plain hti (by decide) (exactResult_mod h0 _), S128.ofInt_eq_iff, h128]
    simp [h0]
  · obtain ⟨hx', hy', -, hyle⟩ := narrow_ne hti hty hx hy h128
    have hy := (fits_signed hty).mp hy
    have hpow := two_pow_pred hti
    have hlt : |x.tmod y| < |y| := by
      rw [Int.abs_eq_natAbs, Int.abs_eq_natAbs, Int.natAbs_tmod]
      exact_mod_cast Nat.mod_lt _ (Int.natAbs_pos.mpr h0)
    have hmem := abs_lt.mp (hlt.trans_le hyle)
    have habs : |y| ≤ 2 ^ (ti.bits - 1) := abs_le.mpr ⟨hy.1, hy.2.le⟩
    have hmem' := abs_lt.mp (hlt.trans_le habs)
    have hdvd : y ∣ x ↔ x.tmod y = 0 := Int.dvd_iff_tmod_eq_zero
    rw [S128.mod_ofInt_of_ne hxr hyr h0 hx' hy', maskS_ofInt hti ⟨by split <;> linarith, by split <;> linarith⟩,
      tmod_of_abs_lt (abs_lt.mpr ⟨by split <;> linarith, by split <;> linarith⟩),
      intExact_plain hti (by decide) (exactResult_mod h0 _)]
    simp only [ne_eq, h0, not_false_eq_true, true_imp_iff, if_neg hx', if_neg hy', hdvd]
    by_cases hneg : y < 0
    · rw [if_pos hneg]
      simp only [hneg, true_imp_iff]
      constructor
      · intro h
        have h := Int.eq_zero_of_abs_lt_dvd h (abs_lt.mpr ⟨by linarith, by linarith⟩)
        omega
      · intro h
        rw [h]
        simp
    · rw [if_neg hneg, sub_self]
      exact iff_of_true (dvd_zero _) fun h => absurd h hneg

/-- The arm for a product whose word stands for `z`. -/
theorem signed_mul_arm {z : ℤ} (hz : -2 ^ 127 ≤ z ∧ z < 2 ^ 127)
    (hmul : (S128.ofInt x).mul (S128.ofInt y) = S128.ofInt z) :
    arithSigned ti .mul (S128.ofInt x) (S128.ofInt y) saturate =
      if ProductOverflow x y z ∧ saturate = true then .error (.todo "do_arith signed mul overflow - saturate")
      else .ok (.int (ti.maskS (S128.ofInt z)) (decide (ProductOverflow x y z))) := by
  have hxr := range_of_fits hti hty hx
  have hyr := range_of_fits hti hty hy
  simp only [arithSigned, hmul, S128.uAbs_ofInt hz, S128.uAbs_ofInt hxr, S128.uAbs_ofInt hyr,
    ucmp_ofInt (S128.absVal_mem hz) (S128.absVal_mem hxr), ucmp_ofInt (S128.absVal_mem hz) (S128.absVal_mem hyr),
    compare_lt_iff_lt, ne_eq, cmp_zero_eq hxr, cmp_zero_eq hyr]
  rfl

/-- Products of narrow operands are taken to fit. -/
theorem signed_mul_narrow_iff (h128 : ti.bits ≠ 128) : IntExact ti .mul saturate x y
    (arithSigned ti .mul (S128.ofInt x) (S128.ofInt y) saturate) ↔ ti.Fits (x * y) := by
  have hxr := range_of_fits hti hty hx
  have hyr := range_of_fits hti hty hy
  obtain ⟨hx', hy', hxle, hyle⟩ := narrow_ne hti hty hx hy h128
  have hle : |x * y| ≤ 2 ^ 126 := by
    rw [abs_mul]
    calc |x| * |y| ≤ 2 ^ 63 * 2 ^ 63 := mul_le_mul hxle hyle (abs_nonneg y) (by norm_num)
      _ = 2 ^ 126 := by norm_num
  have hr := abs_le.mp hle
  have hmem : -2 ^ 127 ≤ x * y ∧ x * y < 2 ^ 127 := ⟨by linarith, by linarith⟩
  have hsilent := not_productOverflow hx' hy'
  rw [signed_mul_arm hti hty hx hy hmem (S128.mul_ofInt_of_ne hxr hyr hx' hy'), maskS_ofInt hti hmem,
    intExact_todo hti (by simp) rfl]
  have hdvd := dvd_tmod_sub (x * y) (2 ^ ti.bits)
  simp only [hsilent, false_iff, not_not, false_imp_iff, hdvd, and_true]

/-- Products of 128 bits. -/
theorem signed_mul_wide_iff (h128 : ti.bits = 128) : IntExact ti .mul saturate x y
    (arithSigned ti .mul (S128.ofInt x) (S128.ofInt y) saturate) ↔ WideProduct saturate x y := by
  have hxr := range_of_fits hti hty hx
  have hyr := range_of_fits hti hty hy
  have hz := S128.toInt_mem ((S128.ofInt x).mul (S128.ofInt y))
  have hmul := S128.mul_ofInt_iff hxr hyr
  have hword := S128.ofInt_toInt ((S128.ofInt x).mul (S128.ofInt y))
  generalize ((S128.ofInt x).mul (S128.ofInt y)).toInt = z at hz hword
  rw [← hword, S128.ofInt_eq_iff] at hmul
  rw [signed_mul_arm hti hty hx hy hz hword.symm, maskS_wide hti h128, S128.inner_ofInt,
    intExact_todo hti (by simp) rfl, fits_signed hty, h128]
  exact wideProduct_iff hxr hyr hz hmul

end Signed

end Mrustc.ConstEval
