import Mrustc.Mir.FoldMeaning

/-! # Exactness of constant folding

Each operator is exact under a condition on its operands: the results of `isize` must fit without wrapping,
a negative divisor must divide, the minimum must not be negated, and `-2 ^ 64` and long shifts of
negative numbers are exceptions for `i128`.
-/

namespace Mrustc.Mir.ConstFold

open Hir (CoreType)
open Int128

/-- When a binary operator on two operands `x` and `y` is exact; `t` is the type of the left one. -/
def ExactBinOp (op : BinOp) (t : CoreType) (x y : ℤ) : Prop :=
  match op with
  | .add => t = .isize → fits t (x + y) = true
  | .sub => t = .isize → fits t (x - y) = true
  | .mul =>
    (t = .isize → fits t (x * y) = true) ∧
      (t = .i128 → x = -2 ^ 64 ∨ y = -2 ^ 64 → (2 ^ 127 : ℤ) ∣ x * y)
  | .div =>
    (t = .isize → fits t (x.tdiv y) = true) ∧
      (t = .i128 → (x = -2 ^ 64 → y = -2 ^ 64) ∧ (y = -2 ^ 64 → x = -2 ^ 64 ∨ |x| < 2 ^ 64))
  | .mod =>
    if t = .i128 ∧ x = -2 ^ 64 then (if 0 < y then y ∣ 2 ^ 128 - 2 ^ 65 else y ∣ 2 ^ 64)
    else if t = .i128 ∧ y = -2 ^ 64 then x = 0
    else y < 0 → y ∣ x
  | .bitShl => t = .isize → fits t (x * 2 ^ y.toNat) = true
  | .bitShr => t = .i128 → x < 0 → y ≤ 64
  | _ => True

/-- When a negation is exact. -/
def ExactUniOp (op : UniOp) (t : CoreType) (x : ℤ) : Prop :=
  match op with
  | .inv => True
  | .neg => t ≠ .i128 → fits t (-x) = true

/-- When folding an expression is exact. -/
def Exact {P : Type} (src : RValue CoreType P (Constant P)) : Prop :=
  match src with
  | .cast val type => type = .isize → ∀ n ∈ number val, fits type (n.2.bmod (2 ^ 128)) = true
  | .binOp l op r =>
    ∀ n ∈ (known l).bind number, ∀ m ∈ (known r).bind number, ExactBinOp op n.1 n.2 m.2
  | .uniOp val op => ∀ n ∈ number val, ExactUniOp op n.1 n.2
  | _ => True

section Results

variable {P : Type} {t : CoreType} {w : ℕ} {z : ℤ} {c c' : Constant P}

theorem foldsTo_none : FoldsTo (.ok none) c := ⟨none, rfl, by simp⟩

theorem foldsTo_some : FoldsTo (.ok (some c')) c ↔ c' = c ∧ (number c').isSome := by
  constructor
  · rintro ⟨new, heq, h⟩
    obtain rfl := Except.ok.inj heq
    exact h c' rfl
  · intro h
    exact ⟨some c', rfl, fun _ hc => by obtain rfl := Option.some.inj hc; exact h⟩

theorem mem_of_fits (ht : intTy t = some (true, w)) (h : fits t z = true) : -2 ^ 127 ≤ z ∧ z < 2 ^ 127 := by
  have hle : (2 : ℤ) ^ (w - 1) ≤ 2 ^ 127 :=
    pow_le_pow_right₀ (by norm_num) (Nat.sub_le_sub_right (width_pos ht).2 1)
  have h := (fits_signed ht).mp h
  omega

theorem nonneg_of_fits (ht : intTy t = some (false, w)) (h : fits t z = true) : 0 ≤ z ∧ z < 2 ^ 128 := by
  have hle : (2 : ℤ) ^ w ≤ 2 ^ 128 := pow_le_pow_right₀ (by norm_num) (width_pos ht).2
  have h := (fits_unsigned ht).mp h
  omega

theorem foldsTo_newUint (ht : intTy t = some (false, w)) (z : ℤ) :
    FoldsTo (P := P) (newUint 64 t (U128.ofInt z)) (ofNumber t (wrap t z)) := by
  have heq : newUint 64 t (U128.ofInt z) = .ok (some (ofNumber (P := P) t (wrap t z))) := by
    simp [newUint, truncateU_ofInt ht, ofNumber, ht]
  rw [heq, foldsTo_some, number_ofNumber ht (fits_wrap ht z)]
  exact ⟨rfl, rfl⟩

theorem foldsTo_int (ht : intTy t = some (true, w)) {v : ℤ} :
    FoldsTo (P := P) (.ok (some (.int v t))) (ofNumber t (wrap t z)) ↔ v = wrap t z := by
  have hz : ofNumber (P := P) t (wrap t z) = .int (wrap t z) t := by simp [ofNumber, ht]
  rw [foldsTo_some, hz, Constant.int.injEq]
  constructor
  · exact fun h => h.1.1
  · rintro rfl
    rw [← hz, number_ofNumber ht (fits_wrap ht z)]
    exact ⟨⟨rfl, rfl⟩, rfl⟩

theorem foldsTo_newInt (ht : intTy t = some (true, w)) (hsize : t ≠ .isize) {z' : ℤ} :
    FoldsTo (P := P) (newInt 64 t (S128.ofInt z')) (ofNumber t (wrap t z)) ↔ wrap t z' = wrap t z := by
  rw [newInt, foldsTo_int ht, truncateS_ofInt ht hsize]

theorem foldsTo_isize {z' : ℤ} (hz : -2 ^ 127 ≤ z' ∧ z' < 2 ^ 127) :
    FoldsTo (P := P) (newInt 64 .isize (S128.ofInt z')) (ofNumber .isize (wrap .isize z)) ↔
      z' = wrap .isize z := by
  rw [newInt, foldsTo_int rfl, truncateS_isize, S128.toInt_ofInt_of_mem hz]

/-- An exact operation on the class is folded exactly where `isize` does not wrap. -/
theorem foldsTo_ofInt (ht : intTy t = some (true, w)) (hz : t = .isize → -2 ^ 127 ≤ z ∧ z < 2 ^ 127) :
    FoldsTo (P := P) (newInt 64 t (S128.ofInt z)) (ofNumber t (wrap t z)) ↔
      (t = .isize → fits t z = true) := by
  by_cases hsize : t = .isize
  · subst hsize
    rw [foldsTo_isize (hz rfl), Eq.comm, wrap_eq_iff ht]
    exact ⟨fun h _ => h, fun h => h rfl⟩
  · rw [foldsTo_newInt ht hsize]
    exact iff_of_true rfl fun h => absurd h hsize

theorem foldsTo_fits (ht : intTy t = some (true, w)) {z' : ℤ} (h : fits t z' = true) :
    FoldsTo (P := P) (newInt 64 t (S128.ofInt z')) (ofNumber t (wrap t z)) ↔ z' = wrap t z := by
  by_cases hsize : t = .isize
  · subst hsize
    exact foldsTo_isize (mem_of_fits ht h)
  · rw [foldsTo_newInt ht hsize, wrap_of_fits ht h]

theorem foldsTo_i128 (v : S128) :
    FoldsTo (P := P) (newInt 64 .i128 v) (ofNumber .i128 (wrap .i128 z)) ↔ v = S128.ofInt z := by
  rw [newInt, foldsTo_int rfl, wrap_signed rfl]
  constructor
  · intro h
    have h : v.toInt = (S128.ofInt z).toInt := h.trans (S128.toInt_ofInt z).symm
    rw [← S128.ofInt_toInt v, h, S128.ofInt_toInt]
  · rintro rfl
    exact S128.toInt_ofInt z

end Results

section Signed

variable {P : Type} {t : CoreType} {w : ℕ} {x y : ℤ}

/-- Only `i128` holds `-2 ^ 64`. -/
theorem mem_i64_of_fits (ht : intTy t = some (true, w)) (h128 : t ≠ .i128) (hx : fits t x = true) :
    w ≤ 64 ∧ -2 ^ 63 ≤ x ∧ x < 2 ^ 63 := by
  have hw : w ≤ 64 := by
    cases t
    case i128 => exact absurd rfl h128
    all_goals simp [intTy] at ht <;> omega
  have hle : (2 : ℤ) ^ (w - 1) ≤ 2 ^ 63 := pow_le_pow_right₀ (by norm_num) (Nat.sub_le_sub_right hw 1)
  have h := (fits_signed ht).mp hx
  exact ⟨hw, by omega, by omega⟩

variable (ht : intTy t = some (true, w))
include ht

theorem fits_toInt (X : BitVec w) : fits t X.toInt = true := by
  rw [← wrap_eq_iff ht, wrap_signed ht, BitVec.toInt_bmod_cancel]

/-- An operation on the bits that commutes with sign extension. -/
theorem bits_exact {v : S128} {X : BitVec w} (hv : v.inner.bits = X.signExtend 128) :
    FoldsTo (P := P) (newInt 64 t v) (ofNumber t (wrap t X.toInt)) := by
  have hfits := fits_toInt ht X
  have hv : v = S128.ofInt X.toInt := S128.eq_ofInt hv
  rw [hv, foldsTo_fits ht hfits, wrap_of_fits ht hfits]

variable (hx : fits t x = true)
include hx

/-- Sign extension leaves the value as it is. -/
theorem ofInt_signExtend : BitVec.ofInt 128 x = (BitVec.ofInt w x).signExtend 128 := by
  have hmem := mem_of_fits ht hx
  have hw := width_pos ht
  apply BitVec.eq_of_toInt_eq
  rw [BitVec.toInt_signExtend_of_le hw.2, BitVec.toInt_ofInt, BitVec.toInt_ofInt, ← wrap_signed ht,
    wrap_of_fits ht hx, Int.bmod_eq_of_le (by omega) (by omega)]

theorem inv_exact : FoldsTo (P := P) (newInt 64 t (S128.ofInt x).not) (ofNumber t (wrap t (-x - 1))) := by
  have hx' := (fits_signed ht).mp hx
  have hfits : fits t (-x - 1) = true := (fits_signed ht).mpr (by omega)
  rw [S128.not_ofInt, foldsTo_fits ht hfits, wrap_of_fits ht hfits]

theorem neg_exact : FoldsTo (P := P) (.ok (some (.int (S128.ofInt x).neg.toInt t)))
    (ofNumber t (wrap t (-x))) ↔ ExactUniOp .neg t x := by
  rw [foldsTo_int ht, S128.neg_ofInt, ExactUniOp]
  by_cases h128 : t = .i128
  · subst h128
    obtain ⟨-, rfl⟩ := Prod.mk.inj (Option.some.inj ht)
    rw [S128.toInt_ofInt, wrap_signed ht]
    exact iff_of_true rfl fun h => absurd rfl h
  · have h := (mem_i64_of_fits ht h128 hx).2
    rw [S128.toInt_ofInt_of_mem (by omega), Eq.comm, wrap_eq_iff ht]
    exact ⟨fun h _ => h, fun h => h h128⟩

theorem shl_exact (h0 : 0 ≤ y ∧ y < w) :
    FoldsTo (P := P) (newInt 64 t ((S128.ofInt x).shl y.toNat)) (ofNumber t (wrap t (x * 2 ^ y.toNat))) ↔
      ExactBinOp .bitShl t x y := by
  rw [S128.shl_ofInt]
  apply foldsTo_ofInt ht
  intro hsize
  obtain ⟨hw, h⟩ := mem_i64_of_fits ht (by simp [hsize]) hx
  have hle : (2 : ℤ) ^ y.toNat ≤ 2 ^ 63 := pow_le_pow_right₀ (by norm_num) (by omega)
  have hpos : (0 : ℤ) < 2 ^ y.toNat := by positivity
  constructor <;> nlinarith

theorem fits_shiftRight (n : ℕ) : fits t (x >>> n) = true := by
  have hx := (fits_signed ht).mp hx
  have hone : (1 : ℤ) ≤ 2 ^ n := one_le_pow₀ (by norm_num)
  have hpos' : (0 : ℤ) < 2 ^ (w - 1) := by positivity
  rw [fits_signed ht, Int.shiftRight_eq_div_pow]
  push_cast
  constructor
  · rw [Int.le_ediv_iff_mul_le (by positivity)]
    nlinarith
  · rw [Int.ediv_lt_iff_lt_mul (by positivity)]
    nlinarith

theorem shr_exact (h0 : 0 ≤ y ∧ y < w) :
    FoldsTo (P := P) (newInt 64 t ((S128.ofInt x).shr y.toNat)) (ofNumber t (wrap t (x >>> y.toNat))) ↔
      ExactBinOp .bitShr t x y := by
  have hw := (width_pos ht).2
  by_cases h128 : t = .i128
  · have hshr := S128.shr_ofInt_iff (n := y.toNat) (mem_of_fits ht hx) (by omega)
    subst h128
    rw [foldsTo_i128, hshr, ExactBinOp]
    constructor
    · intro h _ hneg
      have h := h hneg
      omega
    · intro h hneg
      have h := h rfl hneg
      omega
  · have hw := (mem_i64_of_fits ht h128 hx).1
    have hfits := fits_shiftRight ht hx y.toNat
    rw [S128.shr_ofInt (mem_of_fits ht hx) (by omega), foldsTo_fits ht hfits, wrap_of_fits ht hfits]
    exact iff_of_true rfl fun h => absurd h h128

variable (hy : fits t y = true)
include hy

theorem mem_i64_isize (hsize : t = .isize) : (-2 ^ 63 ≤ x ∧ x < 2 ^ 63) ∧ -2 ^ 63 ≤ y ∧ y < 2 ^ 63 :=
  have h128 : t ≠ .i128 := by simp [hsize]
  ⟨(mem_i64_of_fits ht h128 hx).2, (mem_i64_of_fits ht h128 hy).2⟩

theorem add_exact : FoldsTo (P := P) (newInt 64 t ((S128.ofInt x).add (S128.ofInt y)))
    (ofNumber t (wrap t (x + y))) ↔ ExactBinOp .add t x y := by
  rw [S128.add_ofInt]
  apply foldsTo_ofInt ht
  intro hsize
  have h := mem_i64_isize ht hx hy hsize
  omega

theorem sub_exact : FoldsTo (P := P) (newInt 64 t ((S128.ofInt x).sub (S128.ofInt y)))
    (ofNumber t (wrap t (x - y))) ↔ ExactBinOp .sub t x y := by
  rw [S128.sub_ofInt]
  apply foldsTo_ofInt ht
  intro hsize
  have h := mem_i64_isize ht hx hy hsize
  omega

theorem mul_exact : FoldsTo (P := P) (newInt 64 t ((S128.ofInt x).mul (S128.ofInt y)))
    (ofNumber t (wrap t (x * y))) ↔ ExactBinOp .mul t x y := by
  by_cases h128 : t = .i128
  · have hmul := S128.mul_ofInt_iff (mem_of_fits ht hx) (mem_of_fits ht hy)
    subst h128
    rw [foldsTo_i128, hmul]
    simp [ExactBinOp]
  · have h1 := (mem_i64_of_fits ht h128 hx).2
    have h2 := (mem_i64_of_fits ht h128 hy).2
    rw [S128.mul_ofInt_of_ne (mem_of_fits ht hx) (mem_of_fits ht hy) (by omega) (by omega),
      foldsTo_ofInt ht]
    · simp [ExactBinOp, h128]
    · intro _
      constructor <;> nlinarith

theorem div_exact (h0 : y ≠ 0) : FoldsTo (P := P) (newInt 64 t ((S128.ofInt x).div (S128.ofInt y)))
    (ofNumber t (wrap t (x.tdiv y))) ↔ ExactBinOp .div t x y := by
  by_cases h128 : t = .i128
  · have hdiv := S128.div_ofInt_iff (mem_of_fits ht hx) (mem_of_fits ht hy) h0
    subst h128
    rw [foldsTo_i128, hdiv]
    simp [ExactBinOp]
  · have h1 := (mem_i64_of_fits ht h128 hx).2
    have h2 := (mem_i64_of_fits ht h128 hy).2
    rw [S128.div_ofInt_of_ne (mem_of_fits ht hx) (mem_of_fits ht hy) h0 (by omega) (by omega),
      foldsTo_ofInt ht]
    · simp [ExactBinOp, h128]
    · intro _
      have habs : (x.tdiv y).natAbs ≤ x.natAbs := by
        rw [Int.natAbs_tdiv]
        exact Nat.div_le_self _ _
      omega

theorem mod_exact (h0 : y ≠ 0) : FoldsTo (P := P) (newInt 64 t ((S128.ofInt x).mod (S128.ofInt y)))
    (ofNumber t (wrap t (x.tmod y))) ↔ ExactBinOp .mod t x y := by
  by_cases h128 : t = .i128
  · have hmod := S128.mod_ofInt_iff (mem_of_fits ht hx) (mem_of_fits ht hy) h0
    subst h128
    rw [foldsTo_i128, hmod]
    simp [ExactBinOp]
  · have h1 := (mem_i64_of_fits ht h128 hx).2
    have h2 := (mem_i64_of_fits ht h128 hy).2
    have hlt : (x.tmod y).natAbs < y.natAbs := by
      rw [Int.natAbs_tmod]
      exact Nat.mod_lt _ (Int.natAbs_pos.mpr h0)
    have hy' := (fits_signed ht).mp hy
    have hfits : fits t (x.tmod y) = true := (fits_signed ht).mpr (by omega)
    have hfits' : fits t (-x.tmod y) = true := (fits_signed ht).mpr (by omega)
    have hdvd : y ∣ x ↔ x.tmod y = 0 := Int.dvd_iff_tmod_eq_zero
    rw [S128.mod_ofInt_of_ne (mem_of_fits ht hx) (mem_of_fits ht hy) h0 (by omega) (by omega)]
    simp only [ExactBinOp, h128, false_and, if_false, hdvd]
    by_cases hneg : y < 0
    · rw [if_pos hneg, foldsTo_fits ht hfits', wrap_of_fits ht hfits]
      omega
    · rw [if_neg hneg, foldsTo_fits ht hfits, wrap_of_fits ht hfits]
      exact iff_of_true rfl fun h => absurd h hneg

theorem and_exact : FoldsTo (P := P) (newInt 64 t ((S128.ofInt x).and (S128.ofInt y)))
    (ofNumber t (wrap t (BitVec.ofInt w x &&& BitVec.ofInt w y).toInt)) := by
  apply bits_exact ht
  rw [S128.and, U128.bits_and, S128.inner_ofInt, S128.inner_ofInt, S128.bits_ofInt, S128.bits_ofInt,
    ofInt_signExtend ht hx, ofInt_signExtend ht hy, BitVec.signExtend_and]

theorem or_exact : FoldsTo (P := P) (newInt 64 t ((S128.ofInt x).or (S128.ofInt y)))
    (ofNumber t (wrap t (BitVec.ofInt w x ||| BitVec.ofInt w y).toInt)) := by
  apply bits_exact ht
  rw [S128.or, U128.bits_or, S128.inner_ofInt, S128.inner_ofInt, S128.bits_ofInt, S128.bits_ofInt,
    ofInt_signExtend ht hx, ofInt_signExtend ht hy, BitVec.signExtend_or]

theorem xor_exact : FoldsTo (P := P) (newInt 64 t ((S128.ofInt x).xor (S128.ofInt y)))
    (ofNumber t (wrap t (BitVec.ofInt w x ^^^ BitVec.ofInt w y).toInt)) := by
  apply bits_exact ht
  rw [S128.xor, U128.bits_xor, S128.inner_ofInt, S128.inner_ofInt, S128.bits_ofInt, S128.bits_ofInt,
    ofInt_signExtend ht hx, ofInt_signExtend ht hy, BitVec.signExtend_xor]

end Signed

section Unsigned

variable {P : Type} {t : CoreType} {w : ℕ} {x y : ℤ} (ht : intTy t = some (false, w))
include ht

theorem setWidth_ofInt (z : ℤ) : (BitVec.ofInt 128 z).setWidth w = BitVec.ofInt w z := by
  apply BitVec.eq_of_toNat_eq
  rw [BitVec.toNat_setWidth, BitVec.toNat_ofInt, BitVec.toNat_ofInt]
  exact_mod_cast toNat_emod_emod (width_pos ht).2 z

/-- An operation on the bits that commutes with truncation. -/
theorem ubits_exact {v : U128} {X : BitVec w} (hv : v.bits.setWidth w = X) :
    FoldsTo (P := P) (newUint 64 t v) (ofNumber t (wrap t X.toInt)) := by
  have hX : v.toNat % 2 ^ w = X.toNat := by
    rw [← hv, BitVec.toNat_setWidth, U128.toNat_bits]
  have hwrap : wrap t X.toInt = wrap t v.toNat := by
    have hmod : ((2 ^ w : ℕ) : ℤ) = 2 ^ w := by push_cast; rfl
    rw [wrap_unsigned ht, wrap_unsigned ht, ← hmod, BitVec.toInt_eq_toNat_bmod, Int.bmod_emod, ← hX]
    push_cast
    exact Int.emod_emod _ _
  rw [hwrap, ← S128.ofInt_toNat v]
  have h := foldsTo_newUint (P := P) ht v.toNat
  rwa [S128.ofInt_toNat] at h ⊢

theorem uand_exact : FoldsTo (P := P) (newUint 64 t ((U128.ofInt x).and (U128.ofInt y)))
    (ofNumber t (wrap t (BitVec.ofInt w x &&& BitVec.ofInt w y).toInt)) := by
  apply ubits_exact ht
  rw [U128.bits_and, S128.bits_ofInt, S128.bits_ofInt, BitVec.setWidth_and, setWidth_ofInt ht,
    setWidth_ofInt ht]

theorem uor_exact : FoldsTo (P := P) (newUint 64 t ((U128.ofInt x).or (U128.ofInt y)))
    (ofNumber t (wrap t (BitVec.ofInt w x ||| BitVec.ofInt w y).toInt)) := by
  apply ubits_exact ht
  rw [U128.bits_or, S128.bits_ofInt, S128.bits_ofInt, BitVec.setWidth_or, setWidth_ofInt ht,
    setWidth_ofInt ht]

theorem uxor_exact : FoldsTo (P := P) (newUint 64 t ((U128.ofInt x).xor (U128.ofInt y)))
    (ofNumber t (wrap t (BitVec.ofInt w x ^^^ BitVec.ofInt w y).toInt)) := by
  apply ubits_exact ht
  rw [U128.bits_xor, S128.bits_ofInt, S128.bits_ofInt, BitVec.setWidth_xor, setWidth_ofInt ht,
    setWidth_ofInt ht]

variable (hx : fits t x = true)
include hx

theorem ushr_exact (n : ℕ) :
    FoldsTo (P := P) (newUint 64 t ((U128.ofInt x).shr n)) (ofNumber t (wrap t (x >>> n))) := by
  rw [S128.ushr_ofInt (nonneg_of_fits ht hx)]
  exact foldsTo_newUint ht _

variable (hy : fits t y = true)
include hy

theorem udiv_exact (h0 : y ≠ 0) : FoldsTo (P := P) (newUint 64 t ((U128.ofInt x).div (U128.ofInt y)))
    (ofNumber t (wrap t (x.tdiv y))) := by
  have hx := nonneg_of_fits ht hx
  have hy := nonneg_of_fits ht hy
  rw [(S128.udiv_ofInt hx ⟨by omega, hy.2⟩).1, Int.tdiv_eq_ediv_of_nonneg hx.1]
  exact foldsTo_newUint ht _

theorem umod_exact (h0 : y ≠ 0) : FoldsTo (P := P) (newUint 64 t ((U128.ofInt x).mod (U128.ofInt y)))
    (ofNumber t (wrap t (x.tmod y))) := by
  have hx := nonneg_of_fits ht hx
  have hy := nonneg_of_fits ht hy
  rw [(S128.udiv_ofInt hx ⟨by omega, hy.2⟩).2, Int.tmod_eq_emod_of_nonneg hx.1]
  exact foldsTo_newUint ht _

end Unsigned

end Mrustc.Mir.ConstFold
