import Mrustc.Int128.U128

/-! # What the operations on 128-bit integers compute

Every operation of `U128` is the one on bit vectors of width 128.
-/

namespace Mrustc.Int128.U128

variable {a b v : U128} {n : ℕ}

theorem toNat_eq (v : U128) : v.toNat = 2 ^ 64 * v.hi.toNat + v.lo.toNat := by
  have h := v.lo.isLt
  rw [toNat, bits, BitVec.toNat_append, Nat.shiftLeft_eq, Nat.mul_comm]
  exact (Nat.two_pow_add_eq_or_of_lt h _).symm

theorem toNat_lt (v : U128) : v.toNat < 2 ^ 128 := v.bits.isLt

@[simp] theorem toNat_bits (v : U128) : v.bits.toNat = v.toNat := rfl

theorem ext_toNat (h : a.toNat = b.toNat) : a = b := by
  rw [toNat_eq, toNat_eq] at h
  have ha := a.lo.isLt
  have hb := b.lo.isLt
  have hlo : a.lo = b.lo := BitVec.eq_of_toNat_eq (by omega)
  have hhi : a.hi = b.hi := BitVec.eq_of_toNat_eq (by omega)
  cases a
  cases b
  simp_all

theorem bits_injective (h : a.bits = b.bits) : a = b := ext_toNat (congrArg BitVec.toNat h)

theorem toNat_zero : (⟨0, 0⟩ : U128).toNat = 0 := rfl

@[simp] theorem bits_ofBits (x : BitVec 128) : (ofBits x).bits = x := by
  apply BitVec.eq_of_toNat_eq
  have h := x.isLt
  rw [toNat_bits, toNat_eq]
  simp only [ofBits, BitVec.toNat_setWidth, BitVec.toNat_ushiftRight, Nat.shiftRight_eq_div_pow]
  omega

theorem toNat_ofNat (n : ℕ) : (ofNat n).toNat = n % 2 ^ 128 := by
  rw [← toNat_bits, ofNat, bits_ofBits, BitVec.toNat_ofNat]

@[simp] theorem bits_not (v : U128) : v.not.bits = ~~~v.bits := BitVec.not_append.symm
@[simp] theorem bits_or (a b : U128) : (a.or b).bits = a.bits ||| b.bits :=
  BitVec.or_append.symm
@[simp] theorem bits_and (a b : U128) : (a.and b).bits = a.bits &&& b.bits :=
  BitVec.and_append.symm
@[simp] theorem bits_xor (a b : U128) : (a.xor b).bits = a.bits ^^^ b.bits :=
  BitVec.xor_append.symm

theorem toNat_add (a b : U128) : (a.add b).toNat = (a.toNat + b.toNat) % 2 ^ 128 := by
  have h1 := a.lo.isLt
  have h2 := b.lo.isLt
  rw [toNat_eq, toNat_eq, toNat_eq, add]
  by_cases h : a.lo + b.lo < a.lo
  · simp only [h, if_true, BitVec.toNat_add]
    rw [BitVec.lt_def, BitVec.toNat_add] at h
    simp only [BitVec.ofNat_eq_ofNat, BitVec.toNat_ofNat]
    omega
  · simp only [h, if_false, BitVec.toNat_add]
    rw [BitVec.lt_def, BitVec.toNat_add] at h
    simp only [BitVec.ofNat_eq_ofNat, BitVec.toNat_ofNat]
    omega

theorem toNat_sub (a b : U128) : (a.sub b).toNat = (2 ^ 128 - b.toNat + a.toNat) % 2 ^ 128 := by
  have h1 := a.lo.isLt
  have h2 := b.lo.isLt
  have h3 := a.hi.isLt
  have h4 := b.hi.isLt
  rw [toNat_eq, toNat_eq, toNat_eq, sub]
  by_cases h : a.lo - b.lo > a.lo
  · simp only [h, if_true, BitVec.toNat_sub]
    rw [gt_iff_lt, BitVec.lt_def, BitVec.toNat_sub] at h
    simp only [BitVec.ofNat_eq_ofNat, BitVec.toNat_ofNat]
    omega
  · simp only [h, if_false, BitVec.toNat_sub]
    rw [gt_iff_lt, BitVec.lt_def, BitVec.toNat_sub] at h
    simp only [BitVec.ofNat_eq_ofNat, BitVec.toNat_ofNat]
    omega

@[simp] theorem bits_add (a b : U128) : (a.add b).bits = a.bits + b.bits :=
  BitVec.eq_of_toNat_eq (toNat_add a b)

@[simp] theorem bits_sub (a b : U128) : (a.sub b).bits = a.bits - b.bits :=
  BitVec.eq_of_toNat_eq (toNat_sub a b)

theorem getLsbD_bits (v : U128) (i : ℕ) :
    v.bits.getLsbD i = if i < 64 then v.lo.getLsbD i else v.hi.getLsbD (i - 64) := by
  rw [bits, BitVec.getLsbD_append]

@[simp] theorem bits_shl (v : U128) (n : ℕ) : (v.shl n).bits = v.bits <<< n := by
  apply BitVec.eq_of_getLsbD_eq
  intro i hi
  rw [BitVec.getLsbD_shiftLeft, getLsbD_bits, getLsbD_bits, shl]
  by_cases h0 : n = 0
  · subst h0
    simp [hi]
  by_cases h128 : 128 ≤ n
  · simp [h0, h128]
    grind
  by_cases h64 : 64 ≤ n
  · have hi' : i - 64 - (n - 64) = i - n := by omega
    simp [h0, h128, h64, hi']
    grind
  · simp [h0, h128, h64]
    grind

@[simp] theorem bits_shr (v : U128) (n : ℕ) : (v.shr n).bits = v.bits >>> n := by
  apply BitVec.eq_of_getLsbD_eq
  intro i hi
  rw [BitVec.getLsbD_ushiftRight, getLsbD_bits, getLsbD_bits, shr]
  by_cases h0 : n = 0
  · subst h0
    simp
  by_cases h128 : 128 ≤ n
  · simp [h0, h128]
    grind
  by_cases h64 : 64 ≤ n
  · have hi' : n - 64 + i = n + i - 64 := by omega
    simp [h0, h128, h64, hi']
    grind
  · simp [h0, h128, h64]
    grind

theorem cmp_eq (a b : U128) : a.cmp b = compare a.toNat b.toNat := by
  have ha := a.lo.isLt
  have hb := b.lo.isLt
  rw [toNat_eq, toNat_eq, cmp]
  by_cases hhi : a.hi = b.hi
  · rw [if_neg (not_not.mpr hhi), hhi]
    by_cases hlo : a.lo = b.lo
    · rw [if_neg (not_not.mpr hlo), hlo, compare_eq_iff_eq.mpr rfl]
    · have hne : a.lo.toNat ≠ b.lo.toNat := fun h => hlo (BitVec.eq_of_toNat_eq h)
      rw [if_pos hlo]
      by_cases h : a.lo < b.lo
      · rw [if_pos h, Eq.comm, compare_lt_iff_lt]
        have h := BitVec.lt_def.mp h
        omega
      · rw [if_neg h, Eq.comm, compare_gt_iff_gt]
        have h := mt BitVec.lt_def.mpr h
        omega
  · have hne : a.hi.toNat ≠ b.hi.toNat := fun h => hhi (BitVec.eq_of_toNat_eq h)
    rw [if_pos hhi]
    by_cases h : a.hi < b.hi
    · rw [if_pos h, Eq.comm, compare_lt_iff_lt]
      have h := BitVec.lt_def.mp h
      omega
    · rw [if_neg h, Eq.comm, compare_gt_iff_gt]
      have h := mt BitVec.lt_def.mpr h
      omega

theorem cmp_eq_lt : a.cmp b = .lt ↔ a.toNat < b.toNat := by
  rw [cmp_eq, compare_lt_iff_lt]

theorem cmp_width : b.cmp ⟨128, 0⟩ = .lt ↔ b.toNat < 128 := cmp_eq_lt

theorem double_eq (b : U128) : b.double = b.shl 1 := rfl

theorem half_eq (b : U128) : b.half = b.shr 1 := rfl

theorem toNat_double (h : 2 * b.toNat < 2 ^ 128) : b.double.toNat = 2 * b.toNat := by
  rw [← toNat_bits, double_eq, bits_shl, BitVec.toNat_shiftLeft, Nat.shiftLeft_eq, toNat_bits,
    Nat.mul_comm, pow_one, Nat.mod_eq_of_lt h]

theorem toNat_half (b : U128) : b.half.toNat = b.toNat / 2 := by
  rw [← toNat_bits, half_eq, bits_shr, BitVec.toNat_ushiftRight, Nat.shiftRight_eq_div_pow, toNat_bits,
    pow_one]

section Mul

theorem toNat_one_shl {k : ℕ} (hk : k < 64) : (1#64 <<< k).toNat = 2 ^ k := by
  rw [← BitVec.twoPow_eq, BitVec.toNat_twoPow_of_lt hk]

theorem one_shl_and (w : BitVec 64) {k : ℕ} (hk : k < 64) :
    1#64 <<< k &&& w ≠ 0 ↔ w.getLsbD k = true := by
  rw [← BitVec.twoPow_eq, BitVec.twoPow_and]
  by_cases hw : w.getLsbD k = true
  · rw [if_pos hw, iff_true_right hw]
    intro h0
    have h1 := congrArg BitVec.toNat h0
    rw [BitVec.toNat_twoPow_of_lt hk] at h1
    exact absurd h1 (Nat.two_pow_pos k).ne'
  · rw [if_neg hw]
    exact iff_of_false (fun h => h rfl) hw

theorem testBit_toNat (a : U128) (i : ℕ) :
    a.toNat.testBit i = if i < 64 then a.lo.getLsbD i else a.hi.getLsbD (i - 64) := by
  rw [← getLsbD_bits, ← toNat_bits, BitVec.testBit_toNat]

/-- The loop stops early where no bit of `a` is left. -/
theorem mulLoop_stop {a : U128} {i : ℕ} (hi : i < 128) (h : a.hi = 0 ∧ a.lo < 1#64 <<< (i % 64) ∨
    i ≥ 64 ∧ a.hi < 1#64 <<< (i % 64)) : a.toNat < 2 ^ i := by
  have hlo := a.lo.isLt
  have hk : i % 64 < 64 := Nat.mod_lt _ (by norm_num)
  rw [BitVec.lt_def, BitVec.lt_def, toNat_one_shl hk] at h
  rw [toNat_eq]
  by_cases h64 : i < 64
  · obtain ⟨hhi, h⟩ := h.resolve_right fun h => absurd h.1 (Nat.not_le.mpr h64)
    rw [Nat.mod_eq_of_lt h64] at h
    rw [hhi]
    simpa using h
  · obtain ⟨d, rfl⟩ := Nat.exists_eq_add_of_le (Nat.not_lt.mp h64)
    have hd : (64 + d) % 64 = d := by omega
    rw [hd] at h
    rw [pow_add]
    rcases h with ⟨hhi, -⟩ | ⟨-, h⟩
    · have hpos := Nat.two_pow_pos d
      rw [hhi]
      simp only [BitVec.ofNat_eq_ofNat, BitVec.toNat_ofNat, Nat.zero_mod, mul_zero, zero_add]
      nlinarith
    · nlinarith

theorem mulLoop_test {a : U128} {i : ℕ} (hi : i < 128) :
    1#64 <<< (i % 64) &&& (if i ≥ 64 then a.hi else a.lo) ≠ 0 ↔ a.toNat.testBit i = true := by
  rw [one_shl_and _ (Nat.mod_lt _ (by norm_num)), testBit_toNat]
  by_cases h64 : i < 64
  · rw [if_pos h64, if_neg (Nat.not_le.mpr h64), Nat.mod_eq_of_lt h64]
  · have hmod : i % 64 = i - 64 := by omega
    rw [if_neg h64, if_pos (Nat.not_lt.mp h64), hmod]

theorem mod_two_pow_succ (x i : ℕ) : x % 2 ^ (i + 1) = x % 2 ^ i + 2 ^ i * (x.testBit i).toNat := by
  rw [Nat.mod_pow_succ, Nat.toNat_testBit]

/-- Behind the round `i` the sum holds the product with the low bits of `a`, and `b` is shifted. -/
theorem mulLoop_bits (a : U128) (b₀ : BitVec 128) {n i : ℕ} {b o : U128} (hi : i + n = 128)
    (hb : b.bits = b₀ * BitVec.ofNat 128 (2 ^ i))
    (ho : o.bits = BitVec.ofNat 128 (a.toNat % 2 ^ i) * b₀) :
    (mulLoop a n i b o).bits = a.bits * b₀ := by
  have hdone {i : ℕ} {o : U128} (ho : o.bits = BitVec.ofNat 128 (a.toNat % 2 ^ i) * b₀)
      (h : a.toNat < 2 ^ i) : o.bits = a.bits * b₀ := by
    rw [ho, Nat.mod_eq_of_lt h, ← toNat_bits, BitVec.ofNat_toNat, BitVec.setWidth_eq]
  induction n generalizing i b o with
  | zero =>
    obtain rfl : i = 128 := hi
    exact hdone ho a.toNat_lt
  | succ n ih =>
    rw [mulLoop]
    by_cases h1 : a.hi = 0 ∧ a.lo < 1#64 <<< (i % 64)
    · rw [if_pos h1]
      exact hdone ho (mulLoop_stop (by omega) (.inl h1))
    by_cases h2 : i ≥ 64 ∧ a.hi < 1#64 <<< (i % 64)
    · rw [if_neg h1, if_pos h2]
      exact hdone ho (mulLoop_stop (by omega) (.inr h2))
    rw [if_neg h1, if_neg h2]
    refine ih (by omega) ?_ ?_
    · have h2 : BitVec.ofNat 128 (2 ^ (i + 1)) = BitVec.ofNat 128 (2 ^ i) * BitVec.twoPow 128 1 := by
        rw [pow_succ, BitVec.ofNat_mul]
        rfl
      rw [double_eq, bits_shl, hb, h2, ← BitVec.mul_assoc, BitVec.shiftLeft_eq_mul_twoPow]
    · rw [mod_two_pow_succ]
      by_cases hbit : a.toNat.testBit i = true
      · rw [if_pos ((mulLoop_test (by omega)).mpr hbit), bits_add, ho, hb, hbit, Bool.toNat_true,
          mul_one, BitVec.ofNat_add, BitVec.add_mul, BitVec.mul_comm b₀]
      · rw [if_neg (mt (mulLoop_test (by omega)).mp hbit), Bool.eq_false_of_not_eq_true hbit, ho,
          Bool.toNat_false, mul_zero, add_zero]

@[simp] theorem bits_mul (a b : U128) : (a.mul b).bits = a.bits * b.bits := by
  refine mulLoop_bits a b.bits rfl ?_ ?_
  · simp
  · simp [bits, Nat.mod_one]

end Mul

section Div

variable {b₀ mask q : U128}

theorem toNat_sub_of_le (h : b.toNat ≤ a.toNat) : (a.sub b).toNat = a.toNat - b.toNat := by
  have ha := a.toNat_lt
  rw [toNat_sub]
  omega

theorem toNat_add_of_lt (h : a.toNat + b.toNat < 2 ^ 128) : (a.add b).toNat = a.toNat + b.toNat := by
  rw [toNat_add, Nat.mod_eq_of_lt h]

/-- The first loop finds the highest multiple `b * 2 ^ k` that is at most `a`. -/
theorem divShift_spec {shift : ℕ} (hle : b.toNat ≤ a.toNat) (hn : a.toNat < b.toNat * 2 ^ (n + 1)) :
    ∃ k, (divShift a.half n shift b).1 = shift + k ∧
      (divShift a.half n shift b).2.toNat = b.toNat * 2 ^ k ∧
      b.toNat * 2 ^ k ≤ a.toNat ∧ a.toNat < b.toNat * 2 ^ (k + 1) := by
  induction n generalizing shift b with
  | zero => exact ⟨0, rfl, (mul_one _).symm, by simpa using hle, hn⟩
  | succ n ih =>
    rw [divShift]
    by_cases h : a.half.cmp b = .lt
    · rw [if_neg (not_not.mpr h)]
      rw [cmp_eq_lt, toNat_half] at h
      refine ⟨0, rfl, (mul_one _).symm, by simpa using hle, ?_⟩
      rw [zero_add, pow_one]
      omega
    · rw [if_pos h]
      rw [cmp_eq_lt, toNat_half] at h
      have ha := a.toNat_lt
      have hd : b.double.toNat = 2 * b.toNat := toNat_double (by omega)
      have hpow (k : ℕ) : b.double.toNat * 2 ^ k = b.toNat * 2 ^ (k + 1) := by
        rw [hd, pow_succ]
        ring
      obtain ⟨k, h1, h2, h3, h4⟩ := @ih b.double (shift + 1) (by omega) (by rw [hpow]; exact hn)
      rw [hpow] at h2 h3 h4
      exact ⟨k + 1, by rw [h1, add_assoc, add_comm 1], h2, h3, h4⟩

/-- With `n` rounds to go, `mask` is the bit of the quotient that the round decides. -/
theorem divLoop_spec (hb₀ : 0 < b₀.toNat) (hmask : mask.toNat = 2 ^ n / 2)
    (hb : b.toNat = b₀.toNat * 2 ^ n / 2) (ha : a.toNat < b₀.toNat * 2 ^ n)
    (hq : q.toNat + a.toNat / b₀.toNat < 2 ^ 128) :
    (divLoop n mask a b q).1.toNat = q.toNat + a.toNat / b₀.toNat ∧
      (divLoop n mask a b q).2.toNat = a.toNat % b₀.toNat := by
  induction n generalizing mask a b q with
  | zero =>
    rw [pow_zero, mul_one] at ha
    rw [divLoop, Nat.div_eq_of_lt ha, Nat.mod_eq_of_lt ha]
    exact ⟨rfl, rfl⟩
  | succ n ih =>
    rw [pow_succ, Nat.mul_div_cancel _ two_pos] at hmask
    rw [pow_succ, ← mul_assoc, Nat.mul_div_cancel _ two_pos] at hb
    rw [pow_succ, ← mul_assoc] at ha
    have hmask' : mask.half.toNat = 2 ^ n / 2 := by rw [toNat_half, hmask]
    have hb' : b.half.toNat = b₀.toNat * 2 ^ n / 2 := by rw [toNat_half, hb]
    rw [divLoop]
    by_cases h : a.cmp b = .lt
    · rw [if_neg (not_not.mpr h)]
      rw [cmp_eq_lt, hb] at h
      exact ih hmask' hb' h hq
    · rw [if_pos h]
      rw [cmp_eq_lt, not_lt] at h
      have hsub : (a.sub b).toNat = a.toNat - b.toNat := toNat_sub_of_le h
      have hsplit : a.toNat = (a.sub b).toNat + b₀.toNat * 2 ^ n := by rw [hsub, ← hb]; omega
      have hdiv : a.toNat / b₀.toNat = (a.sub b).toNat / b₀.toNat + 2 ^ n := by
        rw [hsplit, Nat.add_mul_div_left _ _ hb₀]
      have hmod : a.toNat % b₀.toNat = (a.sub b).toNat % b₀.toNat := by
        rw [hsplit, Nat.add_mul_mod_self_left]
      rw [hdiv] at hq
      have hlt : q.toNat + 2 ^ n < 2 ^ 128 :=
        (Nat.add_le_add_left (Nat.le_add_left _ _) _).trans_lt hq
      have hadd : (q.add mask).toNat = q.toNat + 2 ^ n := by
        rw [toNat_add_of_lt (by rwa [hmask]), hmask]
      obtain ⟨h1, h2⟩ := ih (a := a.sub b) (q := q.add mask) hmask' hb' (by omega)
        (by rw [hadd]; omega)
      rw [h1, h2, hdiv, hmod, hadd]
      exact ⟨by ring, rfl⟩

theorem toNat_low {w : BitVec 64} : (⟨w, 0⟩ : U128).toNat = w.toNat := by
  rw [toNat_eq]
  simp

/-- The first mask of the second loop. -/
theorem toNat_mask {k : ℕ} (hk : k < 128) :
    (⟨if k ≥ 64 then 0 else 1#64 <<< k, if k < 64 then 0 else 1#64 <<< (k - 64)⟩ : U128).toNat = 2 ^ k := by
  rw [toNat_eq]
  by_cases h : k < 64
  · rw [if_neg (Nat.not_le.mpr h), if_pos h, toNat_one_shl h]
    simp
  · obtain ⟨d, rfl⟩ := Nat.exists_eq_add_of_le (Nat.not_lt.mp h)
    rw [if_pos (Nat.not_lt.mp h), if_neg h, toNat_one_shl (by omega), Nat.add_sub_cancel_left, pow_add]
    simp

theorem divMod_spec (a : U128) (hb : 0 < b.toNat) :
    (a.div b).toNat = a.toNat / b.toNat ∧ (a.mod b).toNat = a.toNat % b.toNat := by
  rw [div, mod, divMod]
  by_cases hhi : a.hi = 0 ∧ b.hi = 0
  · have ha : a.toNat = a.lo.toNat := by rw [toNat_eq, hhi.1]; simp
    have hb : b.toNat = b.lo.toNat := by rw [toNat_eq, hhi.2]; simp
    rw [if_pos hhi, toNat_low, toNat_low, ha, hb, BitVec.toNat_udiv, BitVec.toNat_umod]
    exact ⟨rfl, rfl⟩
  rw [if_neg hhi]
  by_cases hlt : a.cmp b = .lt
  · rw [if_pos hlt]
    rw [cmp_eq_lt] at hlt
    rw [Nat.div_eq_of_lt hlt, Nat.mod_eq_of_lt hlt]
    exact ⟨toNat_zero, rfl⟩
  rw [if_neg hlt]
  rw [cmp_eq_lt, not_lt] at hlt
  have ha := a.toNat_lt
  obtain ⟨k, h1, h2, h3, h4⟩ := @divShift_spec a b 128 0 hlt (by omega)
  have hk : k < 128 := by
    by_contra hk
    have hpow : 2 ^ 128 ≤ 2 ^ k := Nat.pow_le_pow_right two_pos (Nat.not_lt.mp hk)
    nlinarith
  rw [zero_add] at h1
  simp only [h1, if_neg hk.ne]
  have h := divLoop_spec (q := ⟨0, 0⟩) (n := k + 1) hb ((toNat_mask hk).trans (by rw [pow_succ]; omega))
    (h2.trans (by rw [pow_succ, ← mul_assoc]; omega)) h4
    (by rw [toNat_zero, zero_add]; exact (Nat.div_le_self _ _).trans_lt ha)
  rwa [toNat_zero, zero_add] at h

/-- However many rounds the first loop has made, the divisor that it shifts is a multiple of `b` below
`2 ^ 128`: no bit was shifted out of it. -/
theorem toNat_divShift (a b : U128) (n shift : ℕ) :
    (divShift a.half n shift b).2.toNat * 2 ^ shift = b.toNat * 2 ^ (divShift a.half n shift b).1 := by
  induction n generalizing shift b with
  | zero => rfl
  | succ n ih =>
    rw [divShift]
    by_cases h : a.half.cmp b = .lt
    · rw [if_neg (not_not.mpr h)]
    · rw [if_pos h]
      rw [cmp_eq_lt, toNat_half] at h
      have ha := a.toNat_lt
      have hd : b.double.toNat = 2 * b.toNat := toNat_double (by omega)
      have hstep := ih b.double (shift + 1)
      rw [hd, pow_succ] at hstep
      linarith

end Div

section Exact

theorem toNat_mul (a b : U128) : (a.mul b).toNat = a.toNat * b.toNat % 2 ^ 128 := by
  rw [← toNat_bits, bits_mul, BitVec.toNat_mul, toNat_bits, toNat_bits]

theorem toNat_shl (a : U128) (n : ℕ) : (a.shl n).toNat = a.toNat * 2 ^ n % 2 ^ 128 := by
  rw [← toNat_bits, bits_shl, BitVec.toNat_shiftLeft, Nat.shiftLeft_eq, toNat_bits]

theorem toNat_shr (a : U128) (n : ℕ) : (a.shr n).toNat = a.toNat / 2 ^ n := by
  rw [← toNat_bits, bits_shr, BitVec.toNat_ushiftRight, Nat.shiftRight_eq_div_pow, toNat_bits]

/-- An amount below 128 lies in the low 32 bits. -/
theorem toNat_amount (h : b.toNat < 128) : (b.truncateU64.setWidth 32).toNat = b.toNat := by
  have hb := toNat_eq b
  rw [truncateU64, BitVec.toNat_setWidth]
  omega

theorem toNat_shlWide (a b : U128) : (a.shlWide b).toNat = a.toNat * 2 ^ b.toNat % 2 ^ 128 := by
  rw [shlWide]
  by_cases h : b.cmp ⟨128, 0⟩ = .lt
  · rw [if_neg (not_not.mpr h), toNat_shl, toNat_amount (cmp_width.mp h)]
  · have hle : 128 ≤ b.toNat := not_lt.mp (mt cmp_width.mpr h)
    rw [if_pos h, toNat_zero, Eq.comm]
    exact Nat.mod_eq_zero_of_dvd ((pow_dvd_pow 2 hle).mul_left _)

theorem toNat_shrWide (a b : U128) : (a.shrWide b).toNat = a.toNat / 2 ^ b.toNat := by
  rw [shrWide]
  by_cases h : b.cmp ⟨128, 0⟩ = .lt
  · rw [if_neg (not_not.mpr h), toNat_shr, toNat_amount (cmp_width.mp h)]
  · have hle : 128 ≤ b.toNat := not_lt.mp (mt cmp_width.mpr h)
    rw [if_pos h, toNat_zero, Eq.comm]
    exact Nat.div_eq_of_lt (a.toNat_lt.trans_le (Nat.pow_le_pow_right two_pos hle))

theorem bit_eq (a : U128) (i : ℕ) : a.bit i = a.toNat.testBit i := by
  rw [testBit_toNat, bit]
  by_cases h64 : i < 64
  · rw [if_pos h64, if_pos h64]
  · rw [if_neg h64, if_neg h64, ite_eq_left_iff]
    intro h128
    rw [BitVec.getLsbD_of_ge _ _ (by omega)]

theorem divMod_exact (a : U128) (hb : 0 < b.toNat) :
    a.toNat = (a.divMod b).1.toNat * b.toNat + (a.divMod b).2.toNat ∧
      (a.divMod b).2.toNat < b.toNat := by
  obtain ⟨hq, hr⟩ := divMod_spec a hb
  rw [div] at hq
  rw [mod] at hr
  rw [hq, hr]
  exact ⟨(Nat.div_add_mod' _ _).symm, Nat.mod_lt _ hb⟩

/-- Every operation agrees with the one on natural numbers modulo `2 ^ 128`. -/
theorem arithmetic_exact (a b : U128) :
    (a.add b).toNat = (a.toNat + b.toNat) % 2 ^ 128 ∧
    (a.sub b).toNat = (2 ^ 128 - b.toNat + a.toNat) % 2 ^ 128 ∧
    (a.mul b).toNat = a.toNat * b.toNat % 2 ^ 128 ∧
    (∀ n, (a.shl n).toNat = a.toNat * 2 ^ n % 2 ^ 128) ∧
    (∀ n, (a.shr n).toNat = a.toNat / 2 ^ n) ∧
    (a.shlWide b).toNat = a.toNat * 2 ^ b.toNat % 2 ^ 128 ∧
    (a.shrWide b).toNat = a.toNat / 2 ^ b.toNat ∧
    a.cmp b = compare a.toNat b.toNat ∧
    (∀ i, a.bit i = a.toNat.testBit i) ∧
    (b ≠ ⟨0, 0⟩ → a.toNat = (a.divMod b).1.toNat * b.toNat + (a.divMod b).2.toNat ∧
      (a.divMod b).2.toNat < b.toNat) ∧
    ∀ n, (divShift a.half n 0 b).2.toNat = b.toNat * 2 ^ (divShift a.half n 0 b).1 := by
  refine ⟨toNat_add a b, toNat_sub a b, toNat_mul a b, toNat_shl a, toNat_shr a, toNat_shlWide a b,
    toNat_shrWide a b, cmp_eq a b, bit_eq a, ?_, ?_⟩
  · intro hb
    exact divMod_exact a (Nat.pos_of_ne_zero fun h => hb (ext_toNat h))
  · intro n
    rw [← toNat_divShift, pow_zero, mul_one]

end Exact

end Mrustc.Int128.U128
