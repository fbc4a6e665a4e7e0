import Mathlib

/-! # Rounding to the nearest float

The patterns of the non-negative numbers of a binary format, with exponents that are not bounded above: the
pattern after the last finite one is infinity, and rounding takes it for the power of two that would stand there.
Ties go to the even pattern.
-/

namespace Mrustc.Rounding

/-- A binary format by the bits of its fraction and of its exponent. -/
structure Format where
  mBits : ℕ
  expBits : ℕ
  mBits_pos : 0 < mBits
  one_lt_expBits : 1 < expBits

namespace Format

variable (f : Format)

/-- The exponent field of one. -/
def zeroExp : ℕ := 2 ^ (f.expBits - 1) - 1

def infinity : ℕ := (2 ^ f.expBits - 1) * 2 ^ f.mBits

def signBit : ℕ := f.mBits + f.expBits

/-- The number of a pattern in units of the smallest positive number. -/
def units (r : ℕ) : ℕ :=
  if r / 2 ^ f.mBits = 0 then r else (2 ^ f.mBits + r % 2 ^ f.mBits) * 2 ^ (r / 2 ^ f.mBits - 1)

/-- How many units make one. -/
def unitsInOne : ℕ := 2 ^ (f.zeroExp + f.mBits - 1)

def value (r : ℕ) : ℚ := f.units r / f.unitsInOne

/-- No pattern is nearer to `v` than `r`, and an equally near one only if `r` is even. -/
def IsNearest (v : ℚ) (r : ℕ) : Prop :=
  ∀ r', |v - f.value r| ≤ |v - f.value r'| ∧ (|v - f.value r| = |v - f.value r'| → r' = r ∨ Even r)

/-- The pattern `w` is the nearest float of the integer `z`; zero has no sign. -/
def IsNearestInt (z : ℤ) (w : ℕ) : Prop :=
  ∃ r ≤ f.infinity, f.IsNearest z.natAbs r ∧ w = (if z < 0 then 2 ^ f.signBit else 0) + r

end Format

variable {f : Format} {v : ℚ} {r a e : ℕ}

theorem zeroExp_pos (f : Format) : 0 < f.zeroExp := by
  have hpow : 2 ^ 1 ≤ 2 ^ (f.expBits - 1) := Nat.pow_le_pow_right two_pos (Nat.le_sub_one_of_lt f.one_lt_expBits)
  rw [Format.zeroExp]
  omega

theorem infinity_lt (f : Format) : f.infinity < 2 ^ f.signBit := by
  rw [Format.infinity, Format.signBit, add_comm, pow_add]
  exact Nat.mul_lt_mul_of_pos_right (Nat.sub_lt (Nat.two_pow_pos _) one_pos) (Nat.two_pow_pos _)

theorem units_of_lt (h : r < 2 ^ f.mBits) : f.units r = r := if_pos (Nat.div_eq_of_lt h)

/-- A significand with its leading bit, also after a carry. -/
theorem units_add (ha : 2 ^ f.mBits ≤ a ∧ a ≤ 2 ^ (f.mBits + 1)) : f.units (e * 2 ^ f.mBits + a) = a * 2 ^ e := by
  have hpos : 0 < 2 ^ f.mBits := Nat.two_pow_pos _
  have hpow : 2 ^ (f.mBits + 1) = 2 * 2 ^ f.mBits := pow_succ' 2 _
  obtain ⟨b, rfl⟩ := Nat.exists_eq_add_of_le ha.1
  have hb : b ≤ 2 ^ f.mBits := by omega
  rw [Format.units]
  rcases hb.lt_or_eq with hlt | rfl
  · have hr : e * 2 ^ f.mBits + (2 ^ f.mBits + b) = b + 2 ^ f.mBits * (e + 1) := by ring
    have hdiv : (b + 2 ^ f.mBits * (e + 1)) / 2 ^ f.mBits = e + 1 := by
      rw [Nat.add_mul_div_left _ _ hpos, Nat.div_eq_of_lt hlt, zero_add]
    have hmod : (b + 2 ^ f.mBits * (e + 1)) % 2 ^ f.mBits = b := by
      rw [Nat.add_mul_mod_self_left, Nat.mod_eq_of_lt hlt]
    rw [hr, hdiv, hmod, if_neg (Nat.succ_ne_zero e), Nat.add_sub_cancel]
  · have hr : e * 2 ^ f.mBits + (2 ^ f.mBits + 2 ^ f.mBits) = 2 ^ f.mBits * (e + 2) := by ring
    rw [hr, Nat.mul_div_cancel_left _ hpos, Nat.mul_mod_right, if_neg (Nat.succ_ne_zero _)]
    have he : e + 2 - 1 = e + 1 := rfl
    rw [he, pow_succ]
    ring

/-- Every pattern from the first normal one on has a significand and an exponent. -/
theorem exists_significand (h : 2 ^ f.mBits ≤ r) :
    ∃ e a, r = e * 2 ^ f.mBits + a ∧ 2 ^ f.mBits ≤ a ∧ a < 2 ^ (f.mBits + 1) := by
  have hpos : 0 < 2 ^ f.mBits := Nat.two_pow_pos _
  have hdm := Nat.div_add_mod' r (2 ^ f.mBits)
  have hlt := Nat.mod_lt r hpos
  obtain ⟨e, he⟩ := Nat.exists_eq_succ_of_ne_zero (Nat.div_pos h hpos).ne'
  rw [he, Nat.succ_eq_add_one] at hdm
  refine ⟨e, 2 ^ f.mBits + r % 2 ^ f.mBits, ?_, Nat.le_add_right _ _, ?_⟩
  · rw [add_mul, one_mul] at hdm
    linarith
  · rw [pow_succ']
    omega

theorem units_strictMono : StrictMono f.units := by
  refine strictMono_nat_of_lt_succ fun r => ?_
  have hpow : 2 ^ (f.mBits + 1) = 2 * 2 ^ f.mBits := pow_succ' 2 _
  by_cases h : r < 2 ^ f.mBits
  · rw [units_of_lt h]
    rcases (Nat.succ_le_of_lt h).lt_or_eq with hlt | heq
    · rw [units_of_lt hlt]
      exact Nat.lt_succ_self r
    · have := @units_add f (r + 1) 0 (by omega)
      rw [zero_mul, zero_add, pow_zero, mul_one] at this
      omega
  · obtain ⟨e, a, rfl, ha⟩ := exists_significand (not_lt.mp h)
    rw [add_assoc, units_add ⟨ha.1, ha.2.le⟩, units_add ⟨by omega, ha.2⟩]
    exact Nat.mul_lt_mul_of_pos_right (Nat.lt_succ_self a) (Nat.two_pow_pos e)

theorem unitsInOne_pos : (0 : ℚ) < f.unitsInOne := by
  rw [Format.unitsInOne]
  positivity

theorem value_strictMono : StrictMono f.value := fun _ _ h =>
  div_lt_div_of_pos_right (Nat.cast_lt.mpr (units_strictMono h)) unitsInOne_pos

@[simp] theorem value_zero : f.value 0 = 0 := by simp [Format.value, Format.units]

theorem value_nonneg (r : ℕ) : 0 ≤ f.value r := by
  rw [← @value_zero f]
  exact value_strictMono.monotone (Nat.zero_le r)

/-- Between two neighbours the lower one is nearest up to the middle. -/
theorem isNearest_lower (hle : f.value r ≤ v) (hmid : 2 * v ≤ f.value r + f.value (r + 1))
    (htie : 2 * v = f.value r + f.value (r + 1) → Even r) : f.IsNearest v r := by
  intro r'
  have hself : |v - f.value r| = v - f.value r := abs_of_nonneg (sub_nonneg.mpr hle)
  rcases lt_trichotomy r' r with hlt | rfl | hgt
  · have hval : f.value r' < f.value r := value_strictMono hlt
    rw [hself, abs_of_nonneg (by linarith)]
    exact ⟨by linarith, fun heq => absurd heq (by linarith)⟩
  · exact ⟨le_rfl, fun _ => .inl rfl⟩
  · have hval : f.value (r + 1) ≤ f.value r' := value_strictMono.monotone hgt
    have hneg := neg_le_abs (v - f.value r')
    refine ⟨by rw [hself]; linarith, fun heq => .inr (htie ?_)⟩
    rw [hself] at heq
    linarith

/-- Between two neighbours the upper one is nearest from the middle on. -/
theorem isNearest_upper (hle : v ≤ f.value (r + 1)) (hmid : f.value r + f.value (r + 1) ≤ 2 * v)
    (htie : 2 * v = f.value r + f.value (r + 1) → Even (r + 1)) : f.IsNearest v (r + 1) := by
  intro r'
  have hself : |v - f.value (r + 1)| = f.value (r + 1) - v := by
    rw [abs_sub_comm]
    exact abs_of_nonneg (sub_nonneg.mpr hle)
  rcases lt_trichotomy r' (r + 1) with hlt | rfl | hgt
  · have hval : f.value r' ≤ f.value r := value_strictMono.monotone (Nat.le_of_lt_succ hlt)
    have hpos := le_abs_self (v - f.value r')
    refine ⟨by rw [hself]; linarith, fun heq => .inr (htie ?_)⟩
    rw [hself] at heq
    linarith
  · exact ⟨le_rfl, fun _ => .inl rfl⟩
  · have hval : f.value (r + 1) < f.value r' := value_strictMono hgt
    rw [hself, abs_sub_comm, abs_of_nonneg (by linarith)]
    exact ⟨by linarith, fun heq => absurd heq (by linarith)⟩

/-- Rounding between two neighbours that are `2 * h` apart, on a scale by `d`. -/
theorem isNearest_of_scaled {d lo : ℚ} {h t : ℕ} (hd : 0 < d) (hlow : f.value r * d = lo)
    (hhigh : f.value (r + 1) * d = lo + 2 * h) (hv : v * d = lo + t) (ht : t ≤ 2 * h) :
    f.IsNearest v (r + if h < t ∨ t = h ∧ ¬Even r then 1 else 0) := by
  have hcast : (t : ℚ) ≤ 2 * h := by exact_mod_cast ht
  have hsum : (f.value r + f.value (r + 1)) * d = 2 * lo + 2 * h := by
    rw [add_mul, hlow, hhigh]
    ring
  have hdouble : 2 * v * d = 2 * lo + 2 * t := by
    rw [mul_assoc, hv]
    ring
  have htie : 2 * v = f.value r + f.value (r + 1) → t = h := by
    intro heq
    rw [heq, hsum] at hdouble
    exact_mod_cast (show (t : ℚ) = h by linarith)
  split
  case isTrue hup =>
    have hle : h ≤ t := hup.elim Nat.le_of_lt fun hup => hup.1.ge
    have hle' : (h : ℚ) ≤ t := by exact_mod_cast hle
    apply isNearest_upper
    · apply le_of_mul_le_mul_right _ hd
      rw [hv, hhigh]
      linarith
    · apply le_of_mul_le_mul_right _ hd
      rw [hsum, hdouble]
      linarith
    · intro heq
      have hodd := hup.resolve_left (htie heq).le.not_gt
      rw [Nat.even_add_one]
      exact hodd.2
  case isFalse hup =>
    have hle : t ≤ h := not_lt.mp fun hlt => hup (.inl hlt)
    have hle' : (t : ℚ) ≤ h := by exact_mod_cast hle
    have hnonneg : (0 : ℚ) ≤ t := t.cast_nonneg
    rw [add_zero]
    apply isNearest_lower
    · apply le_of_mul_le_mul_right _ hd
      rw [hv, hlow]
      linarith
    · apply le_of_mul_le_mul_right _ hd
      rw [hsum, hdouble]
      linarith
    · intro heq
      by_contra hodd
      exact hup (.inr ⟨htie heq, hodd⟩)

/-- A number with a pattern of its own is rounded to itself. -/
theorem Format.IsNearest.eq_of_value {r' : ℕ} (h : f.IsNearest (f.value r') r) : r = r' := by
  have hle := (h r').1
  rw [sub_self, abs_zero] at hle
  have hzero := abs_eq_zero.mp (le_antisymm hle (abs_nonneg _))
  exact (value_strictMono.injective (sub_eq_zero.mp hzero)).symm

/-- Rounding does not cross a number that has a pattern. -/
theorem Format.IsNearest.le_of_le {r' : ℕ} (h : f.IsNearest v r) (hv : f.value r' ≤ v) : r' ≤ r := by
  by_contra hlt
  have hval := @value_strictMono f _ _ (not_le.mp hlt)
  have hle := (h r').1
  rw [abs_of_nonneg (by linarith), abs_of_nonneg (by linarith)] at hle
  linarith

theorem Format.IsNearest.ge_of_le {r' : ℕ} (h : f.IsNearest v r) (hv : v ≤ f.value r') : r ≤ r' := by
  by_contra hlt
  have hval := @value_strictMono f _ _ (not_le.mp hlt)
  have hle := (h r').1
  rw [abs_sub_comm, abs_of_nonneg (by linarith), abs_sub_comm, abs_of_nonneg (by linarith)] at hle
  linarith

/-- The sign of a nearest float is that of the integer. -/
theorem Format.IsNearestInt.sign {z : ℤ} {w : ℕ} (h : f.IsNearestInt z w) : z < 0 ↔ 2 ^ f.signBit ≤ w := by
  obtain ⟨r, hr, -, rfl⟩ := h
  have := infinity_lt f
  split <;> omega

theorem Format.IsNearestInt.magnitude {z : ℤ} {w : ℕ} (h : f.IsNearestInt z w) :
    f.IsNearest z.natAbs (w % 2 ^ f.signBit) := by
  obtain ⟨r, hr, hnear, rfl⟩ := h
  have hlt := hr.trans_lt (infinity_lt f)
  split
  · rwa [Nat.add_mod_left, Nat.mod_eq_of_lt hlt]
  · rwa [zero_add, Nat.mod_eq_of_lt hlt]

/-- The pattern of a number without sign. -/
theorem isNearestInt_natCast {m p : ℕ} : f.IsNearestInt m p ↔ p ≤ f.infinity ∧ f.IsNearest m p := by
  rw [Format.IsNearestInt, if_neg (Int.natCast_nonneg _).not_gt, Int.natAbs_natCast]
  constructor
  · rintro ⟨r, hr, hnear, rfl⟩
    rw [zero_add]
    exact ⟨hr, hnear⟩
  · exact fun h => ⟨p, h.1, h.2, (zero_add p).symm⟩

/-- A sign put above a magnitude. -/
theorem isNearestInt_sign_add {z : ℤ} {p : ℕ} (hp : p ≤ f.infinity) :
    f.IsNearestInt z ((if z < 0 then 2 ^ f.signBit else 0) + p) ↔ f.IsNearest z.natAbs p := by
  constructor
  · intro h
    have hmag := h.magnitude
    have hlt := hp.trans_lt (infinity_lt f)
    split at hmag
    · rwa [Nat.add_mod_left, Nat.mod_eq_of_lt hlt] at hmag
    · rwa [zero_add, Nat.mod_eq_of_lt hlt] at hmag
  · exact fun h => ⟨p, hp, h, rfl⟩

/-- A significand at its exponent, in units. -/
theorem value_add (ha : 2 ^ f.mBits ≤ a ∧ a ≤ 2 ^ (f.mBits + 1)) :
    f.value (e * 2 ^ f.mBits + a) = a * 2 ^ e / f.unitsInOne := by
  rw [Format.value, units_add ha]
  push_cast
  rfl

/-- The pattern of a power of two. -/
theorem value_two_pow (k : ℕ) : f.value ((k + f.zeroExp) * 2 ^ f.mBits) = 2 ^ k := by
  obtain ⟨z, hz⟩ := Nat.exists_eq_succ_of_ne_zero (zeroExp_pos f).ne'
  have hr : (k + f.zeroExp) * 2 ^ f.mBits = (k + z) * 2 ^ f.mBits + 2 ^ f.mBits := by
    rw [hz, Nat.succ_eq_add_one]
    ring
  have hone : (f.unitsInOne : ℚ) = 2 ^ z * 2 ^ f.mBits := by
    rw [Format.unitsInOne, hz, ← pow_add]
    push_cast
    congr 1
    omega
  rw [hr, value_add ⟨le_rfl, Nat.pow_le_pow_right two_pos (Nat.le_succ _)⟩, hone, div_eq_iff (by positivity)]
  push_cast
  ring

/-- From an odd pattern the next one is reached from the middle between them on. -/
theorem Format.IsNearest.eq_succ_iff {t : ℕ} (h : f.IsNearest v r) (hr : r ≤ t + 1) (ht : ¬Even t) :
    r = t + 1 ↔ f.value t + f.value (t + 1) ≤ 2 * v := by
  have hstep : f.value t < f.value (t + 1) := value_strictMono (Nat.lt_succ_self t)
  constructor
  · rintro rfl
    have hle := (h t).1
    have hpos := le_abs_self (v - f.value t)
    rcases le_total v (f.value t) with hv | hv
    · rw [abs_sub_comm, abs_of_nonneg (by linarith), abs_sub_comm, abs_of_nonneg (by linarith)] at hle
      linarith
    · rw [abs_of_nonneg (sub_nonneg.mpr hv)] at hle
      have hneg := neg_le_abs (v - f.value (t + 1))
      linarith
  · intro hmid
    by_contra hne
    have hlt : r ≤ t := by omega
    have hval : f.value r ≤ f.value t := value_strictMono.monotone hlt
    obtain ⟨hle, htie⟩ := h (t + 1)
    rw [abs_of_nonneg (by linarith : 0 ≤ v - f.value r)] at hle htie
    rcases le_total v (f.value (t + 1)) with hv | hv
    · rw [abs_sub_comm, abs_of_nonneg (sub_nonneg.mpr hv)] at hle htie
      have heven := (htie (by linarith)).resolve_left fun heq => hne heq.symm
      have heq : r = t := value_strictMono.injective (le_antisymm hval (by linarith))
      exact ht (heq ▸ heven)
    · rw [abs_of_nonneg (sub_nonneg.mpr hv)] at hle
      linarith

/-- The same for an integer, between integers: in units of the smallest positive number no pattern up to infinity is
nearer to `n`, and an equally near one only if `r` is even. -/
def Format.RoundsTo (f : Format) (n r : ℕ) : Prop :=
  r ≤ f.infinity ∧ ∀ r' ≤ f.infinity,
    |(n * f.unitsInOne : ℤ) - f.units r| ≤ |(n * f.unitsInOne : ℤ) - f.units r'| ∧
      (|(n * f.unitsInOne : ℤ) - f.units r| = |(n * f.unitsInOne : ℤ) - f.units r'| → r' = r ∨ Even r)

/-- The distance in units. -/
theorem abs_sub_value (n r : ℕ) :
    ((|(n * f.unitsInOne : ℤ) - f.units r| : ℤ) : ℚ) = |(n : ℚ) - f.value r| * f.unitsInOne := by
  have hone := @unitsInOne_pos f
  have hval : f.value r * f.unitsInOne = f.units r := div_mul_cancel₀ _ hone.ne'
  calc ((|(n * f.unitsInOne : ℤ) - f.units r| : ℤ) : ℚ)
      = |(n : ℚ) * f.unitsInOne - f.units r| := by push_cast; rfl
    _ = |((n : ℚ) - f.value r) * f.unitsInOne| := by rw [sub_mul, hval]
    _ = |(n : ℚ) - f.value r| * f.unitsInOne := by rw [abs_mul, abs_of_pos hone]

theorem Format.IsNearest.roundsTo {n : ℕ} (h : f.IsNearest n r) (hr : r ≤ f.infinity) : f.RoundsTo n r := by
  refine ⟨hr, fun r' _ => ?_⟩
  obtain ⟨hle, htie⟩ := h r'
  have hone := @unitsInOne_pos f
  constructor
  · rw [← @Int.cast_le ℚ, abs_sub_value, abs_sub_value]
    exact mul_le_mul_of_nonneg_right hle hone.le
  · intro heq
    rw [← @Int.cast_inj ℚ, abs_sub_value, abs_sub_value] at heq
    exact htie (mul_right_cancel₀ hone.ne' heq)

end Mrustc.Rounding
