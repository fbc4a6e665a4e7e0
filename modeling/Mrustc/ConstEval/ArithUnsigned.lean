import Mrustc.ConstEval.Arith

/-! # The unsigned arm of the checked arithmetic

Operands are integers below `2 ^ bits`, and the 128-bit words hold the results modulo `2 ^ 128`. Only a
product can be taken for exact when it is not.
-/

namespace Mrustc.ConstEval

open Hir (CoreType)
open Mir (Param BinOp)
open Int128

section Masks

variable {ti : TypeInfo} {z a b : ℤ}

theorem ucmp_ofInt (ha : 0 ≤ a ∧ a < 2 ^ 128) (hb : 0 ≤ b ∧ b < 2 ^ 128) :
    (U128.ofInt a).cmp (U128.ofInt b) = compare a b := by
  rw [U128.cmp_eq, S128.toNat_ofInt, S128.toNat_ofInt, Int.emod_eq_of_lt ha.1 ha.2, Int.emod_eq_of_lt hb.1 hb.2]
  obtain ⟨m, rfl⟩ := Int.eq_ofNat_of_zero_le ha.1
  obtain ⟨n, rfl⟩ := Int.eq_ofNat_of_zero_le hb.1
  rw [Int.toNat_natCast, Int.toNat_natCast]
  rcases lt_trichotomy m n with h | h | h
  · rw [compare_lt_iff_lt.mpr h, compare_lt_iff_lt.mpr (by exact_mod_cast h)]
  · rw [compare_eq_iff_eq.mpr h, compare_eq_iff_eq.mpr (by exact_mod_cast h)]
  · rw [compare_gt_iff_gt.mpr h, compare_gt_iff_gt.mpr (by exact_mod_cast h)]

theorem ofInt_zero : U128.ofInt 0 = ⟨0, 0⟩ := by decide

theorem cmp_zero (hz : -2 ^ 127 ≤ z ∧ z < 2 ^ 127) : (S128.ofInt z).cmp ⟨⟨0, 0⟩⟩ = compare z 0 := by
  rw [← ofInt_zero]
  exact S128.cmp_ofInt hz (by norm_num)

theorem cmp_zero_lt (hz : -2 ^ 127 ≤ z ∧ z < 2 ^ 127) : (S128.ofInt z).cmp ⟨⟨0, 0⟩⟩ = .lt ↔ z < 0 := by
  rw [cmp_zero hz, compare_lt_iff_lt]

theorem cmp_zero_eq (hz : -2 ^ 127 ≤ z ∧ z < 2 ^ 127) : (S128.ofInt z).cmp ⟨⟨0, 0⟩⟩ = .eq ↔ z = 0 := by
  rw [cmp_zero hz, compare_eq_iff_eq]

theorem ucmp_zero_eq (hz : 0 ≤ z ∧ z < 2 ^ 128) : (U128.ofInt z).cmp ⟨0, 0⟩ = .eq ↔ z = 0 := by
  rw [← ofInt_zero, ucmp_ofInt hz (by norm_num), compare_eq_iff_eq]

theorem toNat_mask (hle : ti.bits ≤ 64 ∨ ti.bits = 128) (v : U128) :
    (ti.mask v).toNat = v.toNat % 2 ^ ti.bits := by
  have hlo := v.lo.isLt
  have hhi := v.hi.isLt
  rw [TypeInfo.mask]
  by_cases h64 : ti.bits < 64
  · have hpow : (1#64 <<< ti.bits).toNat = 2 ^ ti.bits := by
      rw [BitVec.toNat_shiftLeft, Nat.shiftLeft_eq]
      simpa using Nat.mod_eq_of_lt (Nat.pow_lt_pow_right one_lt_two h64)
    have hmask : ((1#64 <<< ti.bits) - 1).toNat = 2 ^ ti.bits - 1 := by
      have hle : 2 ^ ti.bits ≤ 2 ^ 64 := Nat.pow_le_pow_right two_pos h64.le
      have hpos := Nat.two_pow_pos ti.bits
      have hone : (1#64).toNat = 1 := rfl
      rw [BitVec.toNat_sub, hpow]
      simp only [BitVec.ofNat_eq_ofNat, hone]
      omega
    obtain ⟨k, hk⟩ := Nat.pow_dvd_pow 2 h64.le
    rw [if_pos h64, U128.toNat_eq, U128.toNat_eq, BitVec.toNat_and, hmask, Nat.and_two_pow_sub_one_eq_mod, hk]
    simp [mul_assoc, Nat.add_mod]
  · rw [if_neg h64]
    rcases hle with hle | hle
    · have h64 : ti.bits = 64 := by omega
      rw [if_pos h64, U128.toNat_eq, U128.toNat_eq, h64]
      simp only [BitVec.toNat_ofNat, BitVec.ofNat_eq_ofNat]
      omega
    · rw [if_neg (by omega), if_neg (by omega), hle, Nat.mod_eq_of_lt v.toNat_lt]

variable (hti : ti.Integer)
include hti

theorem two_pow_le : (2 ^ ti.bits : ℤ) ≤ 2 ^ 128 := pow_le_pow_right₀ (by norm_num) hti.le_bits

theorem mask_ofInt (z : ℤ) : ti.mask (U128.ofInt z) = U128.ofInt (z % 2 ^ ti.bits) := by
  have hpos : (0 : ℤ) < 2 ^ ti.bits := by positivity
  have hnn := Int.emod_nonneg z hpos.ne'
  have hlt := (Int.emod_lt_of_pos z hpos).trans_le (two_pow_le hti)
  apply U128.ext_toNat
  rw [toNat_mask hti.le, S128.toNat_ofInt, S128.toNat_ofInt, Mir.ConstFold.toNat_emod_emod hti.le_bits,
    Int.emod_eq_of_lt hnn hlt]

/-- Masking a signed value keeps its sign. -/
theorem maskS_ofInt (hz : -2 ^ 127 ≤ z ∧ z < 2 ^ 127) :
    ti.maskS (S128.ofInt z) = U128.ofInt (z.tmod (2 ^ ti.bits)) := by
  rw [TypeInfo.maskS, S128.neg_ofInt, S128.inner_ofInt, S128.inner_ofInt, mask_ofInt hti, mask_ofInt hti]
  by_cases hneg : z < 0
  · have htmod : z.tmod (2 ^ ti.bits) = -(-z % 2 ^ ti.bits) := by
      rw [← Int.tmod_eq_emod_of_nonneg (by omega), Int.neg_tmod, neg_neg]
    rw [if_pos ((cmp_zero_lt hz).mpr hneg), htmod]
    exact congrArg S128.inner (S128.neg_ofInt _)
  · rw [if_neg (mt (cmp_zero_lt hz).mp hneg), Int.tmod_eq_emod_of_nonneg (not_lt.mp hneg)]

end Masks

section Divides

theorem dvd_emod_sub (z n : ℤ) : n ∣ z % n - z :=
  ⟨-(z / n), by linarith [Int.emod_add_mul_ediv z n]⟩

/-- All ones are the greatest value. -/
theorem dvd_ones (n : ℤ) : n ∣ -1 % n - (n - 1) := by
  have h := (dvd_emod_sub (-1) n).sub (dvd_refl n)
  rwa [show -1 % n - -1 - n = -1 % n - (n - 1) by ring] at h

theorem dvd_tmod_sub (z n : ℤ) : n ∣ z.tmod n - z :=
  ⟨-(z.tdiv n), by linarith [Int.tmod_add_mul_tdiv z n]⟩

end Divides

/-! ## Words and results -/

section Words

variable {ti : TypeInfo} {op : BinOp} {saturate : Bool} {x y z m : ℤ} {b : Bool}

/-- The word and the flag that an arm gives are the right ones. -/
def IntExact (ti : TypeInfo) (op : BinOp) (saturate : Bool) (x y : ℤ) (res : Except Failure Outcome) : Prop :=
  ∃ u, res = .ok (.int u (reported ti op x y)) ∧
    ∀ m ∈ exactResult op ti.bits x y, u.toNat % 2 ^ ti.bits = (result ti op saturate m % 2 ^ ti.bits).toNat

theorem ofInt_toNat_mod (hle : ti.bits ≤ 128) (z m : ℤ) :
    (U128.ofInt z).toNat % 2 ^ ti.bits = (m % 2 ^ ti.bits).toNat ↔ (2 ^ ti.bits : ℤ) ∣ z - m := by
  have hpos : (0 : ℤ) < 2 ^ ti.bits := by positivity
  have hz := Int.emod_nonneg z hpos.ne'
  have hm := Int.emod_nonneg m hpos.ne'
  rw [S128.toNat_ofInt, Mir.ConstFold.toNat_emod_emod hle, Int.dvd_iff_emod_eq_zero,
    ← Int.emod_eq_emod_iff_emod_sub_eq_zero]
  constructor
  · intro h
    rw [← Int.toNat_of_nonneg hz, ← Int.toNat_of_nonneg hm, h]
  · intro h
    rw [h]

theorem intExact_ok (hti : ti.Integer) (z : ℤ) (b : Bool) :
    IntExact ti op saturate x y (.ok (.int (U128.ofInt z) b)) ↔
      b = reported ti op x y ∧
        ∀ m ∈ exactResult op ti.bits x y, (2 ^ ti.bits : ℤ) ∣ z - result ti op saturate m := by
  simp only [← ofInt_toNat_mod hti.le_bits]
  constructor
  · rintro ⟨u, hres, hu⟩
    obtain ⟨rfl, rfl⟩ := Outcome.int.inj (Except.ok.inj hres)
    exact ⟨rfl, hu⟩
  · rintro ⟨rfl, hu⟩
    exact ⟨_, rfl, hu⟩

theorem not_intExact_error (e : Failure) : ¬IntExact ti op saturate x y (.error e) := by
  rintro ⟨u, hres, -⟩
  cases hres

/-- An arm that may saturate. -/
theorem intExact_limit (hti : ti.Integer) (hop : op ∈ [.add, .sub, .mul])
    (hexact : exactResult op ti.bits x y = some m)
    {p : Prop} [Decidable p] (lim : ℤ) :
    IntExact ti op saturate x y
        (.ok (.int (if p ∧ saturate = true then U128.ofInt lim else U128.ofInt z) (decide p))) ↔
      (p ↔ ¬ti.Fits m) ∧
        (p → saturate = true → (2 ^ ti.bits : ℤ) ∣ lim - if m < 0 then ti.min else ti.max) ∧
        (¬p ∨ saturate = false → (2 ^ ti.bits : ℤ) ∣ z - m) := by
  have hover : overflows ti op m = decide (¬ti.Fits m) := by simp [overflows, hop]
  have hrep : reported ti op x y = decide (¬ti.Fits m) := by rw [reported, hexact, ← hover]; rfl
  rw [← apply_ite U128.ofInt, intExact_ok hti, hexact, hrep, decide_eq_decide]
  simp only [Option.mem_some_iff, forall_eq', result, hover, decide_eq_true_eq]
  refine and_congr_right fun hp => ?_
  by_cases h : p <;> cases saturate <;> simp [h, ← hp]

/-- An operator that does not overflow. -/
theorem intExact_plain (hti : ti.Integer) (hop : op ∉ [.add, .sub, .mul])
    (hexact : exactResult op ti.bits x y = some m)
    (z : ℤ) : IntExact ti op saturate x y (.ok (.int (U128.ofInt z) false)) ↔ (2 ^ ti.bits : ℤ) ∣ z - m := by
  have hover : overflows ti op m = false := by simp only [overflows, hop, false_and, decide_false]
  have hrep : reported ti op x y = false := by rw [reported, hexact, ← hover]; rfl
  rw [intExact_ok hti, hexact, hrep]
  simp [result, hover]

/-- An arm that gives up where it would have to saturate. -/
theorem intExact_todo (hti : ti.Integer) (hop : op ∈ [.add, .sub, .mul])
    (hexact : exactResult op ti.bits x y = some m) {p : Prop} [Decidable p] (z : ℤ) (e : Failure) :
    IntExact ti op saturate x y
        (if p ∧ saturate = true then .error e else .ok (.int (U128.ofInt z) (decide p))) ↔
      (p ↔ ¬ti.Fits m) ∧ (p → saturate = false) ∧ (2 ^ ti.bits : ℤ) ∣ z - m := by
  by_cases h : p ∧ saturate = true
  · rw [if_pos h]
    refine iff_of_false (not_intExact_error e) fun h' => ?_
    rw [h'.2.1 h.1] at h
    exact absurd h.2 Bool.false_ne_true
  · have hlim := @intExact_limit ti op saturate x y z m hti hop hexact p _ 0
    rw [if_neg h] at hlim
    rw [if_neg h, hlim]
    refine and_congr_right fun _ => ?_
    cases saturate
    · simp
    · have hp : ¬p := fun hp => h ⟨hp, rfl⟩
      simp [hp]

/-- An arm that never reports an overflow. -/
theorem intExact_silent (hti : ti.Integer) (hop : op ∈ [.add, .sub, .mul])
    (hexact : exactResult op ti.bits x y = some m) (z : ℤ) :
    IntExact ti op saturate x y (.ok (.int (U128.ofInt z) false)) ↔ ti.Fits m ∧ (2 ^ ti.bits : ℤ) ∣ z - m := by
  have h := @intExact_limit ti op saturate x y z m hti hop hexact False _ 0
  simp only [false_and, if_false, decide_false, false_iff, not_not, false_imp_iff, true_and, not_false_eq_true,
    true_or, true_imp_iff] at h
  exact h

/-- Without a result the operation is to be reported. -/
theorem intExact_none (hexact : exactResult op ti.bits x y = none) (u : U128) :
    IntExact ti op saturate x y (.ok (.int u true)) := by
  refine ⟨u, by rw [reported, hexact]; rfl, ?_⟩
  rw [hexact]
  simp

theorem exactResult_div (h0 : y ≠ 0) (w : ℕ) : exactResult .div w x y = some (x.tdiv y) := if_neg h0

theorem exactResult_div_zero (w : ℕ) : exactResult .div w x 0 = none := rfl

theorem exactResult_mod_zero (w : ℕ) : exactResult .mod w x 0 = none := rfl

theorem exactResult_mod (h0 : y ≠ 0) (w : ℕ) : exactResult .mod w x y = some (x.tmod y) := if_neg h0

end Words

/-! ## The unsigned arm -/

section Unsigned

variable {ti : TypeInfo} {saturate : Bool} {x y : ℤ}

theorem fits_unsigned (hty : ti.ty = .unsigned) {z : ℤ} : ti.Fits z ↔ 0 ≤ z ∧ z < 2 ^ ti.bits := by
  rw [TypeInfo.Fits, if_neg (by simp [hty])]

variable (hti : ti.Integer) (hty : ti.ty = .unsigned) (hx : ti.Fits x) (hy : ti.Fits y)
include hti hty hx hy

theorem unsigned_add_exact : IntExact ti .add saturate x y
    (arithUnsigned ti .add (U128.ofInt x) (U128.ofInt y) saturate) := by
  have hle := two_pow_le hti
  have hx := (fits_unsigned hty).mp hx
  have hy := (fits_unsigned hty).mp hy
  have hpos : (0 : ℤ) < 2 ^ ti.bits := by positivity
  have hnn := Int.emod_nonneg (x + y) hpos.ne'
  have hlt := Int.emod_lt_of_pos (x + y) hpos
  have hnot : U128.not ⟨0, 0⟩ = U128.ofInt (-1) := by decide
  have hcmp : (U128.ofInt ((x + y) % 2 ^ ti.bits)).cmp (U128.ofInt x) = .lt ↔ (x + y) % 2 ^ ti.bits < x := by
    rw [ucmp_ofInt ⟨hnn, hlt.trans_le hle⟩ ⟨hx.1, hx.2.trans_le hle⟩, compare_lt_iff_lt]
  delta arithUnsigned
  simp only [S128.uadd_ofInt, mask_ofInt hti, hnot, hcmp]
  rw [intExact_limit hti (by simp) rfl, fits_unsigned hty]
  refine ⟨?_, ?_, fun _ => dvd_emod_sub _ _⟩
  · by_cases h : x + y < 2 ^ ti.bits
    · rw [Int.emod_eq_of_lt (by omega) h]
      omega
    · rw [← Int.sub_emod_right, Int.emod_eq_of_lt (by omega) (by omega)]
      omega
  · intro _ _
    rw [if_neg (by omega), TypeInfo.max, if_neg (by simp [hty])]
    exact dvd_ones _

theorem unsigned_sub_exact : IntExact ti .sub saturate x y
    (arithUnsigned ti .sub (U128.ofInt x) (U128.ofInt y) saturate) := by
  have hle := two_pow_le hti
  have hx := (fits_unsigned hty).mp hx
  have hy := (fits_unsigned hty).mp hy
  have hpos : (0 : ℤ) < 2 ^ ti.bits := by positivity
  have hnn := Int.emod_nonneg (x - y) hpos.ne'
  have hlt := Int.emod_lt_of_pos (x - y) hpos
  have hcmp : (U128.ofInt ((x - y) % 2 ^ ti.bits)).cmp (U128.ofInt x) = .gt ↔ x < (x - y) % 2 ^ ti.bits := by
    rw [ucmp_ofInt ⟨hnn, hlt.trans_le hle⟩ ⟨hx.1, hx.2.trans_le hle⟩, compare_gt_iff_gt]
  delta arithUnsigned
  simp only [S128.usub_ofInt, mask_ofInt hti, ← ofInt_zero, hcmp]
  rw [intExact_limit hti (by simp) rfl, fits_unsigned hty]
  refine ⟨?_, ?_, fun _ => dvd_emod_sub _ _⟩
  · by_cases h : 0 ≤ x - y
    · rw [Int.emod_eq_of_lt h (by omega)]
      omega
    · rw [← Int.add_emod_right, Int.emod_eq_of_lt (by omega) (by omega)]
      omega
  · intro h _
    have hneg : x - y < 0 := by
      by_contra hge
      rw [Int.emod_eq_of_lt (by omega) (by omega)] at h
      omega
    rw [if_pos hneg, TypeInfo.min, if_neg (by simp [hty])]
    exact dvd_emod_sub 0 _

/-- A product that wraps to more than both factors is taken for exact. -/
theorem unsigned_mul_exact_iff : IntExact ti .mul saturate x y
    (arithUnsigned ti .mul (U128.ofInt x) (U128.ofInt y) saturate) ↔
      x * y < 2 ^ ti.bits ∨ x * y % 2 ^ ti.bits < max x y := by
  have hle := two_pow_le hti
  have hx := (fits_unsigned hty).mp hx
  have hy := (fits_unsigned hty).mp hy
  have hpos : (0 : ℤ) < 2 ^ ti.bits := by positivity
  have hnn := Int.emod_nonneg (x * y) hpos.ne'
  have hlt := Int.emod_lt_of_pos (x * y) hpos
  have hxy : 0 ≤ x * y := mul_nonneg hx.1 hy.1
  have hnot : U128.not ⟨0, 0⟩ = U128.ofInt (-1) := by decide
  have hcmp : ∀ z, 0 ≤ z ∧ z < 2 ^ ti.bits →
      ((U128.ofInt (x * y % 2 ^ ti.bits)).cmp (U128.ofInt z) = .lt ↔ x * y % 2 ^ ti.bits < z) := fun z hz => by
    rw [ucmp_ofInt ⟨hnn, hlt.trans_le hle⟩ ⟨hz.1, hz.2.trans_le hle⟩, compare_lt_iff_lt]
  have hzero : ∀ z, 0 ≤ z ∧ z < 2 ^ ti.bits → ((U128.ofInt z).cmp ⟨0, 0⟩ = .eq ↔ z = 0) :=
    fun z hz => ucmp_zero_eq ⟨hz.1, hz.2.trans_le hle⟩
  delta arithUnsigned
  simp only [S128.umul_ofInt, mask_ofInt hti, hnot, hcmp x hx, hcmp y hy, hzero x hx, hzero y hy,
    ne_eq]
  rw [intExact_limit hti (by simp) rfl, fits_unsigned hty, lt_max_iff]
  have hmul : x * y % 2 ^ ti.bits < x ∨ x * y % 2 ^ ti.bits < y → x * y < 2 ^ ti.bits → x = 0 ∨ y = 0 := by
    intro h hfits
    rw [Int.emod_eq_of_lt hxy hfits] at h
    by_contra hne
    rw [not_or] at hne
    have h1 : x * 1 ≤ x * y := mul_le_mul_of_nonneg_left (by omega) hx.1
    have h2 : 1 * y ≤ x * y := mul_le_mul_of_nonneg_right (by omega) hy.1
    omega
  constructor
  · rintro ⟨h, -, -⟩
    by_cases hfits : x * y < 2 ^ ti.bits
    · exact .inl hfits
    · exact .inr (h.mpr fun h => hfits h.2).2.2
  · intro h
    refine ⟨⟨?_, ?_⟩, ?_, fun _ => dvd_emod_sub _ _⟩
    · rintro ⟨hx0, hy0, hlt⟩ ⟨-, hfits⟩
      exact (hmul hlt hfits).elim hx0 hy0
    · intro hfits
      have hge : ¬x * y < 2 ^ ti.bits := fun h => hfits ⟨hxy, h⟩
      refine ⟨?_, ?_, h.resolve_left hge⟩
      · rintro rfl
        exact hge (by simp)
      · rintro rfl
        exact hge (by simp)
    · intro _ _
      rw [if_neg (not_lt.mpr hxy), TypeInfo.max, if_neg (by simp [hty])]
      exact dvd_ones _

theorem unsigned_div_exact : IntExact ti .div saturate x y
    (arithUnsigned ti .div (U128.ofInt x) (U128.ofInt y) saturate) := by
  have hle := two_pow_le hti
  have hx := (fits_unsigned hty).mp hx
  have hy := (fits_unsigned hty).mp hy
  have hzero := ucmp_zero_eq ⟨hy.1, hy.2.trans_le hle⟩
  delta arithUnsigned
  dsimp only
  by_cases h0 : y = 0
  · rw [if_pos (hzero.mpr h0), h0]
    exact intExact_none (exactResult_div_zero _) _
  · rw [if_neg (mt hzero.mp h0), (S128.udiv_ofInt ⟨hx.1, hx.2.trans_le hle⟩ ⟨by omega, hy.2.trans_le hle⟩).1,
      mask_ofInt hti, intExact_plain hti (by decide) (exactResult_div h0 _), Int.tdiv_eq_ediv_of_nonneg hx.1]
    exact dvd_emod_sub _ _

theorem unsigned_mod_exact : IntExact ti .mod saturate x y
    (arithUnsigned ti .mod (U128.ofInt x) (U128.ofInt y) saturate) := by
  have hle := two_pow_le hti
  have hx := (fits_unsigned hty).mp hx
  have hy := (fits_unsigned hty).mp hy
  have hzero := ucmp_zero_eq ⟨hy.1, hy.2.trans_le hle⟩
  delta arithUnsigned
  dsimp only
  by_cases h0 : y = 0
  · rw [if_pos (hzero.mpr h0), h0]
    exact intExact_none (exactResult_mod_zero _) _
  · rw [if_neg (mt hzero.mp h0), (S128.udiv_ofInt ⟨hx.1, hx.2.trans_le hle⟩ ⟨by omega, hy.2.trans_le hle⟩).2,
      mask_ofInt hti, intExact_plain hti (by decide) (exactResult_mod h0 _), Int.tmod_eq_emod_of_nonneg hx.1]
    exact dvd_emod_sub _ _

end Unsigned

/-! ## Bitwise operators -/

section Bitwise

variable {ti : TypeInfo} {saturate : Bool} {x y : ℤ} {op : BinOp}

/-- The word that a bitwise operator gives. -/
def bitwise (op : BinOp) (l r : U128) : Option U128 :=
  match op with
  | .bitOr => some (l.or r)
  | .bitAnd => some (l.and r)
  | .bitXor => some (l.xor r)
  | _ => none

theorem setWidth_ofInt {w : ℕ} (hw : w ≤ 128) (z : ℤ) : (BitVec.ofInt 128 z).setWidth w = BitVec.ofInt w z := by
  apply BitVec.eq_of_toNat_eq
  rw [BitVec.toNat_setWidth, BitVec.toNat_ofInt, BitVec.toNat_ofInt]
  exact_mod_cast Mir.ConstFold.toNat_emod_emod hw z

theorem toInt_emod {w : ℕ} (v : BitVec w) : (v.toInt % 2 ^ w).toNat = v.toNat := by
  have hcast : (2 ^ w : ℤ) = ((2 ^ w : ℕ) : ℤ) := by push_cast; rfl
  rw [BitVec.toInt_eq_toNat_bmod, hcast, Int.bmod_emod, ← Int.natCast_emod, Nat.mod_eq_of_lt v.isLt,
    Int.toNat_natCast]

/-- Bitwise operators commute with cutting the words to their width. -/
theorem bitwise_exact (hti : ti.Integer) {u : U128} (h : bitwise op (U128.ofInt x) (U128.ofInt y) = some u) :
    IntExact ti op saturate x y (.ok (.int u false)) := by
  have hx := setWidth_ofInt hti.le_bits x
  have hy := setWidth_ofInt hti.le_bits y
  have hmod : ∀ v : BitVec ti.bits, u.bits.setWidth ti.bits = v →
      u.toNat % 2 ^ ti.bits = (v.toInt % 2 ^ ti.bits).toNat := by
    rintro v rfl
    rw [toInt_emod, BitVec.toNat_setWidth, U128.toNat_bits]
  cases op <;> cases h
  all_goals
    refine ⟨_, rfl, ?_⟩
    rintro m ⟨rfl⟩
    apply hmod
  case bitOr => rw [U128.bits_or, BitVec.setWidth_or, S128.bits_ofInt, S128.bits_ofInt, hx, hy]
  case bitAnd => rw [U128.bits_and, BitVec.setWidth_and, S128.bits_ofInt, S128.bits_ofInt, hx, hy]
  case bitXor => rw [U128.bits_xor, BitVec.setWidth_xor, S128.bits_ofInt, S128.bits_ofInt, hx, hy]

end Bitwise

end Mrustc.ConstEval
