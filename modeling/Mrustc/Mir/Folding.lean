import Mrustc.Mir.FoldExact

/-! # Folding whole expressions

The exactness condition of each expression, and of a chain of them.
-/

namespace Mrustc.Mir.ConstFold

open Hir (CoreType)
open Int128

section Operators

variable {P : Type} {t t' : CoreType} {w : ℕ} {x y z : ℤ} {c : Constant P} {op : BinOp}

theorem ofNumber_int (ht : intTy t = some (true, w)) : ofNumber (P := P) t x = .int x t := by
  simp [ofNumber, ht]

theorem ofNumber_uint (ht : intTy t = some (false, w)) : ofNumber (P := P) t x = .uint x.toNat t := by
  simp [ofNumber, ht]

theorem ofNat_toNat (h : 0 ≤ x) : U128.ofNat x.toNat = U128.ofInt x := by
  rw [S128.ofNat_eq_ofInt, Int.toNat_of_nonneg h]

section Pair

variable {fl : CoreType → UInt64 → UInt64 → Folded P} {fb : Bool → Bool → Folded P}
  {fi : CoreType → S128 → S128 → Folded P} {fu : CoreType → U128 → U128 → Folded P}

theorem foldPair_int :
    foldPair op fl fb fi fu (.int x t) (.int y t) = fi t (S128.ofInt x) (S128.ofInt y) := by
  rw [foldPair, if_neg (not_not_intro rfl)]
  exact if_neg (not_not_intro rfl)

theorem foldPair_uint (hx : 0 ≤ x) (hy : 0 ≤ y) :
    foldPair op fl fb fi fu (.uint x.toNat t) (.uint y.toNat t) = fu t (U128.ofInt x) (U128.ofInt y) := by
  rw [foldPair, if_neg (not_not_intro rfl), ← ofNat_toNat hx, ← ofNat_toNat hy]
  exact if_neg (not_not_intro rfl)

theorem foldPair_bool {b b' : Bool} : foldPair op fl fb fi fu (.bool b) (.bool b') = fb b b' :=
  if_neg (not_not_intro rfl)

end Pair

theorem ofInt_eq_zero (hy : -2 ^ 127 ≤ y ∧ y < 2 ^ 127) : S128.ofInt y = S128.ofInt 0 ↔ y = 0 := by
  rw [S128.ofInt_eq_iff]
  omega

theorem uofInt_eq_zero (hy : 0 ≤ y ∧ y < 2 ^ 128) : U128.ofInt y = U128.ofNat 0 ↔ y = 0 := by
  have h : U128.ofInt y = U128.ofInt 0 ↔ S128.ofInt y = S128.ofInt 0 := by
    rw [S128.ofInt, S128.ofInt, S128.mk.injEq]
  rw [S128.ofNat_eq_ofInt, Nat.cast_zero, h, S128.ofInt_eq_iff]
  omega

variable [Ord P] {ops : DoubleOps}

/-- The operators on two signed integers. -/
theorem foldValues_int (ht : intTy t = some (true, w)) (hx : fits t x = true) (hy : fits t y = true)
    (h : arith op w x y = some z) :
    FoldsTo (P := P) (foldValues 64 ops (.int x t) op (.int y t)) (ofNumber t (wrap t z)) ↔
      ExactBinOp op t x y := by
  have hzero := ofInt_eq_zero (mem_of_fits ht hy)
  cases op <;> simp only [arith, reduceCtorEq, Option.some.injEq, Option.ite_none_left_eq_some] at h
  case add =>
    subst h
    simp only [foldValues, foldArith, foldPair_int]
    exact add_exact ht hx hy
  case sub =>
    subst h
    simp only [foldValues, foldArith, foldPair_int]
    exact sub_exact ht hx hy
  case mul =>
    subst h
    simp only [foldValues, foldArith, foldPair_int]
    exact mul_exact ht hx hy
  case div =>
    obtain ⟨h0, rfl⟩ := h
    simp only [foldValues, foldDiv, foldPair_int, hzero, if_neg h0]
    exact div_exact ht hx hy h0
  case mod =>
    obtain ⟨h0, rfl⟩ := h
    simp only [foldValues, foldMod, foldPair_int, hzero, if_neg h0]
    exact mod_exact ht hx hy h0
  case bitAnd =>
    subst h
    simp only [foldValues, foldBits, foldPair_int]
    exact iff_of_true (and_exact ht hx hy) trivial
  case bitOr =>
    subst h
    simp only [foldValues, foldBits, foldPair_int]
    exact iff_of_true (or_exact ht hx hy) trivial
  case bitXor =>
    subst h
    simp only [foldValues, foldBits, foldPair_int]
    exact iff_of_true (xor_exact ht hx hy) trivial

/-- The operators on two unsigned integers are always exact. -/
theorem foldValues_uint (ht : intTy t = some (false, w)) (hx : fits t x = true) (hy : fits t y = true)
    (h : arith op w x y = some z) :
    FoldsTo (P := P) (foldValues 64 ops (.uint x.toNat t) op (.uint y.toNat t)) (ofNumber t (wrap t z)) := by
  have hx0 := (nonneg_of_fits ht hx).1
  have hy0 := (nonneg_of_fits ht hy).1
  have hzero := uofInt_eq_zero (nonneg_of_fits ht hy)
  cases op <;> simp only [arith, reduceCtorEq, Option.some.injEq, Option.ite_none_left_eq_some] at h
  case add =>
    subst h
    simp only [foldValues, foldArith, foldPair_uint hx0 hy0, S128.uadd_ofInt]
    exact foldsTo_newUint ht _
  case sub =>
    subst h
    simp only [foldValues, foldArith, foldPair_uint hx0 hy0, S128.usub_ofInt]
    exact foldsTo_newUint ht _
  case mul =>
    subst h
    simp only [foldValues, foldArith, foldPair_uint hx0 hy0, S128.umul_ofInt]
    exact foldsTo_newUint ht _
  case div =>
    obtain ⟨h0, rfl⟩ := h
    simp only [foldValues, foldDiv, foldPair_uint hx0 hy0, hzero, if_neg h0]
    exact udiv_exact ht hx hy h0
  case mod =>
    obtain ⟨h0, rfl⟩ := h
    simp only [foldValues, foldMod, foldPair_uint hx0 hy0, hzero, if_neg h0]
    exact umod_exact ht hx hy h0
  case bitAnd =>
    subst h
    simp only [foldValues, foldBits, foldPair_uint hx0 hy0]
    exact uand_exact ht
  case bitOr =>
    subst h
    simp only [foldValues, foldBits, foldPair_uint hx0 hy0]
    exact uor_exact ht
  case bitXor =>
    subst h
    simp only [foldValues, foldBits, foldPair_uint hx0 hy0]
    exact uxor_exact ht

/-- The condition of an operator does not bind unsigned operands. -/
theorem exactBinOp_uint (ht : intTy t = some (false, w)) (hy : 0 ≤ y) : ExactBinOp op t x y := by
  have hsize : t ≠ .isize := fun h => by simp [h, intTy] at ht
  have h128 : t ≠ .i128 := fun h => by simp [h, intTy] at ht
  cases op <;> simp [ExactBinOp, hsize, h128]
  exact fun h => absurd hy h.not_ge

omit [Ord P] in
theorem shiftLen_ofNumber {s : Bool} (ht : intTy t = some (s, w)) (hy : 0 ≤ y) :
    shiftLen (ofNumber (P := P) t y) = some (U128.ofInt y) := by
  cases s
  · rw [ofNumber_uint ht, shiftLen, ofNat_toNat hy]
  · rw [ofNumber_int ht]
    rfl

theorem shiftLen_eq (hy : 0 ≤ y ∧ y < 128) :
    (U128.ofInt y).cmp (U128.ofNat 128) ≠ .gt ∧ (U128.ofInt y).truncateU64.toNat = y.toNat := by
  have hnat : (U128.ofInt y).toNat = y.toNat := by
    rw [S128.toNat_ofInt, Int.emod_eq_of_lt hy.1 (by omega)]
  constructor
  · rw [U128.cmp_eq, hnat, U128.toNat_ofNat, ne_eq, compare_gt_iff_gt]
    omega
  · rw [U128.toNat_eq] at hnat
    rw [U128.truncateU64]
    omega

section Shift

variable {s s' : Bool} {w' : ℕ} {l r : Constant P} {ints : S128 → ℕ → S128} {uints : U128 → ℕ → U128}

omit [Ord P] in
theorem foldShift_int (hr : shiftLen r = some (U128.ofInt y)) (hy : 0 ≤ y ∧ y < 128) :
    foldShift 64 op ints uints (.int x t) r = newInt 64 t (ints (S128.ofInt x) y.toNat) := by
  obtain ⟨hgt, heq⟩ := shiftLen_eq hy
  simp only [foldShift, hr, if_neg hgt, heq]

omit [Ord P] in
theorem foldShift_uint (hr : shiftLen r = some (U128.ofInt y)) (hy : 0 ≤ y ∧ y < 128) (hx : 0 ≤ x) :
    foldShift 64 op ints uints (.uint x.toNat t) r = newUint 64 t (uints (U128.ofInt x) y.toNat) := by
  obtain ⟨hgt, heq⟩ := shiftLen_eq hy
  simp only [foldShift, hr, if_neg hgt, heq, ofNat_toNat hx]

/-- Shifts by less than the width. -/
theorem foldValues_shift (ht : intTy t = some (s, w)) (ht' : intTy t' = some (s', w'))
    (hx : fits t x = true) (h : shift op w x y = some z) :
    FoldsTo (P := P) (foldValues 64 ops (ofNumber t x) op (ofNumber t' y)) (ofNumber t (wrap t z)) ↔
      ExactBinOp op t x y := by
  unfold shift at h
  obtain ⟨hy, h⟩ := Option.ite_none_right_eq_some.mp h
  have hw := (width_pos ht).2
  have hr := shiftLen_ofNumber (P := P) ht' hy.1
  have hy' : 0 ≤ y ∧ y < 128 := ⟨hy.1, by omega⟩
  cases s
  · have hx0 := (nonneg_of_fits ht hx).1
    rw [ofNumber_uint ht (x := x), iff_true_right (exactBinOp_uint ht hy.1)]
    cases op <;> simp only [reduceCtorEq, Option.some.injEq] at h
    case bitShl =>
      subst h
      rw [foldValues, foldShift_uint hr hy' hx0, S128.ushl_ofInt]
      exact foldsTo_newUint ht _
    case bitShr =>
      subst h
      rw [foldValues, foldShift_uint hr hy' hx0]
      exact ushr_exact ht hx _
  · rw [ofNumber_int ht (x := x)]
    cases op <;> simp only [reduceCtorEq, Option.some.injEq] at h
    case bitShl =>
      subst h
      rw [foldValues, foldShift_int hr hy']
      exact shl_exact ht hx hy
    case bitShr =>
      subst h
      rw [foldValues, foldShift_int hr hy']
      exact shr_exact ht hx hy

end Shift

section Compare

theorem foldCmp_eq (holds : Ordering → Bool) (hx : number c = some (t, x)) (r : Constant P) :
    foldCmp holds c r = .ok (some (.bool (holds (c.ord r)))) := by
  cases c <;> first | rfl | cases hx

/-- The types of numbers are the integers, `bool` and `char`. -/
theorem fits_cases (h : fits t x = true) :
    (∃ w, intTy t = some (true, w)) ∨ (∃ w, intTy t = some (false, w)) ∨ t = .bool ∨ t = .char := by
  cases t <;> simp_all [fits, intTy]

theorem compare_natCast (a b : ℕ) : compare (a : ℤ) (b : ℤ) = compare a b := by
  rw [compare, compare]
  simp [instOrdInt, instOrdNat, compareOfLessAndEq]

theorem ord_int (hx : -2 ^ 127 ≤ x ∧ x < 2 ^ 127) (hy : -2 ^ 127 ≤ y ∧ y < 2 ^ 127) :
    (Constant.int (P := P) x t).ord (.int y t) = compare x y := by
  have hself : compare t.ctorIdx t.ctorIdx = .eq := compare_eq_iff_eq.mpr rfl
  simp only [Constant.ord, S128.cmp_ofInt hx hy, hself]
  split <;> simp_all

theorem ord_uint (hx : 0 ≤ x ∧ x < 2 ^ 128) (hy : 0 ≤ y ∧ y < 2 ^ 128) :
    (Constant.uint (P := P) x.toNat t).ord (.uint y.toNat t) = compare x y := by
  have hself : compare t.ctorIdx t.ctorIdx = .eq := compare_eq_iff_eq.mpr rfl
  obtain ⟨a, rfl⟩ := Int.eq_ofNat_of_zero_le hx.1
  obtain ⟨b, rfl⟩ := Int.eq_ofNat_of_zero_le hy.1
  have ha : a % 2 ^ 128 = a := Nat.mod_eq_of_lt (by omega)
  have hb : b % 2 ^ 128 = b := Nat.mod_eq_of_lt (by omega)
  simp only [Constant.ord, Int.toNat_natCast, U128.cmp_eq, U128.toNat_ofNat, ha, hb, hself, compare_natCast]
  split <;> simp_all

/-- Constants of one type are ordered by value. -/
theorem ord_ofNumber (hx : fits t x = true) (hy : fits t y = true) :
    (ofNumber (P := P) t x).ord (ofNumber t y) = compare x y := by
  rcases fits_cases hx with ⟨w, ht⟩ | ⟨w, ht⟩ | rfl | rfl
  · rw [ofNumber_int ht, ofNumber_int ht]
    exact ord_int (mem_of_fits ht hx) (mem_of_fits ht hy)
  · rw [ofNumber_uint ht, ofNumber_uint ht]
    exact ord_uint (nonneg_of_fits ht hx) (nonneg_of_fits ht hy)
  · simp only [fits, intTy, Bool.or_eq_true, decide_eq_true_eq] at hx hy
    rcases hx with rfl | rfl <;> rcases hy with rfl | rfl <;> rfl
  · simp only [fits, intTy, Bool.and_eq_true, decide_eq_true_eq] at hx hy
    exact ord_uint (by omega) (by omega)

/-- Comparisons are by value. -/
theorem foldValues_compare {b : Bool} {r : Constant P} (hx : number c = some (t, x))
    (hy : number r = some (t, y)) (h : compareOp op x y = some b) :
    FoldsTo (foldValues 64 ops c op r) (.bool b) := by
  obtain ⟨hc, hfx⟩ := number_eq_some hx
  obtain ⟨hr, hfy⟩ := number_eq_some hy
  have hord : c.ord r = compare x y := by rw [hc, hr, ord_ofNumber hfx hfy]
  have hcmp {holds : Ordering → Bool} (hb : holds (compare x y) = b) :
      FoldsTo (foldCmp holds c r) (.bool b) := by
    rw [foldCmp_eq holds hx, hord, hb, foldsTo_some]
    exact ⟨rfl, rfl⟩
  cases op <;> simp only [compareOp, reduceCtorEq, Option.some.injEq] at h <;> subst h
  case eq =>
    rw [foldValues]
    apply hcmp
    simp
  case ne =>
    rw [foldValues]
    apply hcmp
    simp
  case lt =>
    rw [foldValues]
    apply hcmp
    simp [compare_lt_iff_lt]
  case le =>
    rw [foldValues]
    apply hcmp
    simp [compare_gt_iff_gt]
  case gt =>
    rw [foldValues]
    apply hcmp
    simp [compare_gt_iff_gt]
  case ge =>
    rw [foldValues]
    apply hcmp
    simp [compare_lt_iff_lt]

end Compare

/-- The operators on booleans. -/
theorem foldValues_bool {b : Bool} (h : boolOp op x y = some b) :
    FoldsTo (P := P) (foldValues 64 ops (.bool (x ≠ 0)) op (.bool (y ≠ 0))) (.bool b) := by
  have hpair {bools : Bool → Bool → Bool} {ints : S128 → S128 → S128} {uints : U128 → U128 → U128}
      (hb : bools (x ≠ 0) (y ≠ 0) = b) :
      FoldsTo (P := P) (foldBits 64 op bools ints uints (.bool (x ≠ 0)) (.bool (y ≠ 0))) (.bool b) := by
    rw [foldBits, foldPair_bool, foldsTo_some, hb]
    exact ⟨rfl, rfl⟩
  cases op <;> simp only [boolOp, reduceCtorEq, Option.some.injEq] at h
  case bitAnd => exact hpair h
  case bitOr => exact hpair h
  case bitXor => exact hpair h

section Evaluated

variable {r d : Constant P}

theorem foldValues_evalCompare (hx : number c = some (t, x)) (hy : number r = some (t', y))
    (h : evalCompare op t x t' y = some d) : FoldsTo (foldValues 64 ops c op r) d := by
  obtain ⟨rfl, hmap⟩ := Option.ite_none_right_eq_some.mp h
  obtain ⟨b, hb, rfl⟩ := Option.map_eq_some_iff.mp hmap
  exact foldValues_compare hx hy hb

theorem foldValues_evalShift (hx : number c = some (t, x)) (hy : number r = some (t', y))
    (h : evalShift op t x t' y = some d) :
    FoldsTo (foldValues 64 ops c op r) d ↔ ExactBinOp op t x y := by
  obtain ⟨rfl, hfx⟩ := number_eq_some hx
  obtain ⟨rfl, -⟩ := number_eq_some hy
  simp only [evalShift, Option.bind_eq_bind, Option.bind_eq_some_iff, Option.some.injEq] at h
  obtain ⟨⟨s, w⟩, ht, ⟨s', w'⟩, ht', z, hz, rfl⟩ := h
  exact foldValues_shift ht ht' hfx hz

theorem foldValues_evalArith (hx : number c = some (t, x)) (hy : number r = some (t', y))
    (h : evalArith op t x t' y = some d) :
    FoldsTo (foldValues 64 ops c op r) d ↔ ExactBinOp op t x y := by
  obtain ⟨rfl, hfx⟩ := number_eq_some hx
  obtain ⟨rfl, hfy⟩ := number_eq_some hy
  obtain ⟨hne, heval⟩ := Option.ite_none_left_eq_some.mp h
  obtain rfl := not_not.mp hne
  by_cases hbool : t = .bool
  · rw [if_pos hbool] at heval
    obtain ⟨b, hb, rfl⟩ := Option.map_eq_some_iff.mp heval
    subst hbool
    have hexact : ExactBinOp op .bool x y := by
      cases op <;> trivial
    exact iff_of_true (foldValues_bool hb) hexact
  · rw [if_neg hbool] at heval
    simp only [Option.bind_eq_bind, Option.bind_eq_some_iff, Option.some.injEq] at heval
    obtain ⟨⟨s, w⟩, ht, z, hz, rfl⟩ := heval
    cases s
    · have hy0 := (nonneg_of_fits ht hfy).1
      rw [ofNumber_uint ht (x := x), ofNumber_uint ht (x := y)]
      exact iff_of_true (foldValues_uint ht hfx hfy hz) (exactBinOp_uint ht hy0)
    · rw [ofNumber_int ht (x := x), ofNumber_int ht (x := y)]
      exact foldValues_int ht hfx hfy hz

/-- Every binary operator on numbers is exact exactly under its condition. -/
theorem foldBinOp_iff (hx : number c = some (t, x)) (hy : number r = some (t', y))
    (h : evalBinOp op t x t' y = some d) : FoldsTo (foldBinOp 64 ops c op r) d ↔ ExactBinOp op t x y := by
  have hfold : foldBinOp 64 ops c op r = foldValues 64 ops c op r := by
    unfold foldBinOp
    split <;> first | rfl | cases hx | cases hy
  rw [hfold]
  cases op
  case bitShl | bitShr => exact foldValues_evalShift hx hy h
  case eq | ne | gt | ge | lt | le => exact iff_of_true (foldValues_evalCompare hx hy h) trivial
  all_goals exact foldValues_evalArith hx hy h

end Evaluated

section Unary

variable {d : Constant P} {uop : UniOp}

omit [Ord P] in
theorem foldUniOp_int (ht : intTy t = some (true, w)) (hx : fits t x = true)
    (h : evalUniOp uop t x = some d) :
    FoldsTo (P := P) (foldUniOp 64 uop (.int x t)) d ↔ ExactUniOp uop t x := by
  cases uop with
  | inv =>
    simp only [evalUniOp, ht, Option.some.injEq] at h
    subst h
    have hfold : foldInv (P := P) 64 (.int x t) = newInt 64 t (S128.ofInt x).not := by
      cases t <;> first | rfl | cases ht
    rw [foldUniOp, hfold]
    exact iff_of_true (inv_exact ht hx) trivial
  | neg =>
    simp only [evalUniOp, ht, Option.some.injEq] at h
    subst h
    exact neg_exact ht hx

omit [Ord P] in
/-- The inverse of a `u128` is not folded. -/
theorem foldInv_uint (ht : intTy t = some (false, w)) (hx : fits t x = true) :
    FoldsTo (P := P) (foldInv 64 (.uint x.toNat t)) (ofNumber t (wrap t (-x - 1))) := by
  have hx0 := (nonneg_of_fits ht hx).1
  by_cases h128 : t = .u128
  · subst h128
    exact foldsTo_none
  · have hfold : foldInv (P := P) 64 (.uint x.toNat t) = newUint 64 t (U128.ofNat x.toNat).not := by
      cases t <;> first | rfl | exact absurd rfl h128 | cases ht
    rw [hfold, ofNat_toNat hx0, S128.unot_ofInt]
    exact foldsTo_newUint ht _

omit [Ord P] in
theorem foldUniOp_iff (hx : number c = some (t, x)) (h : evalUniOp uop t x = some d) :
    FoldsTo (foldUniOp 64 uop c) d ↔ ExactUniOp uop t x := by
  obtain ⟨rfl, hfx⟩ := number_eq_some hx
  rcases fits_cases hfx with ⟨w, ht⟩ | ⟨w, ht⟩ | rfl | rfl
  · rw [ofNumber_int ht]
    exact foldUniOp_int ht hfx h
  · rw [ofNumber_uint ht]
    cases uop with
    | inv =>
      simp only [evalUniOp, ht, Option.some.injEq] at h
      subst h
      exact iff_of_true (foldInv_uint ht hfx) trivial
    | neg => simp [evalUniOp, ht] at h
  · cases uop with
    | inv =>
      simp only [evalUniOp, intTy, if_true, Option.some.injEq] at h
      subst h
      refine iff_of_true (foldsTo_some.mpr ⟨?_, rfl⟩) trivial
      simp
    | neg => cases h
  · cases uop <;> cases h

end Unary

section Cast

variable {d : Constant P}

omit [Ord P] in
theorem foldsTo_castInt (ht : intTy t = some (true, w)) :
    FoldsTo (P := P) (newInt 64 t (S128.ofInt x)) (ofNumber t (wrap t x)) ↔
      (t = .isize → fits t (x.bmod (2 ^ 128)) = true) := by
  by_cases hsize : t = .isize
  · subst hsize
    have hwrap : wrap .isize x = wrap .isize (x.bmod (2 ^ 128)) := by
      rw [wrap_signed rfl, wrap_signed rfl, Int.bmod_bmod_of_dvd (by norm_num)]
    rw [newInt, foldsTo_int ht, truncateS_isize, S128.toInt_ofInt, hwrap, Eq.comm, wrap_eq_iff ht]
    exact ⟨fun h _ => h, fun h => h rfl⟩
  · rw [foldsTo_newInt ht hsize]
    exact iff_of_true rfl fun h => absurd h hsize

omit [Ord P] in
theorem foldCast_signed (ht : intTy t = some (true, w)) : foldCast 64 ops c t =
    match c with
    | .uint v _ => newInt 64 t ⟨U128.ofNat v⟩
    | .int v _ => newInt 64 t (S128.ofInt v)
    | .bool v => .ok (some (.int v.toNat t))
    | _ => .ok none := by
  cases t <;> first | rfl | cases ht

omit [Ord P] in
theorem foldCast_int (ht : intTy t = some (false, w)) :
    foldCast (P := P) 64 ops (.int x t') t = newUint 64 t (U128.ofInt x) := by
  cases t <;> first | rfl | cases ht

omit [Ord P] in
theorem foldCast_uint (ht : intTy t = some (false, w)) (hx : 0 ≤ x) :
    foldCast (P := P) 64 ops (.uint x.toNat t') t = newUint 64 t (U128.ofInt x) := by
  rw [← ofNat_toNat hx]
  cases t <;> first | rfl | cases ht

omit [Ord P] in
theorem foldCast_bool {b : Bool} (ht : intTy t = some (false, w)) :
    foldCast (P := P) 64 ops (.bool b) t = .ok (some (.uint b.toNat t)) := by
  cases t <;> first | rfl | cases ht

/-- Truth values fit in every integer type. -/
theorem fits_bool {s b : Bool} (ht : intTy t = some (s, w)) : fits t b.toNat = true := by
  cases b <;> cases t <;> first | rfl | cases ht

omit [Ord P] in
/-- Casts of numbers to integers. -/
theorem foldCast_iff {s : Bool} (hx : number c = some (t', x)) (ht : intTy t = some (s, w)) :
    FoldsTo (foldCast 64 ops c t) (ofNumber t (wrap t x)) ↔
      (t = .isize → fits t (x.bmod (2 ^ 128)) = true) := by
  have hunsigned (ht : intTy t = some (false, w)) (h : FoldsTo (foldCast 64 ops c t) (ofNumber t (wrap t x))) :
      FoldsTo (foldCast 64 ops c t) (ofNumber t (wrap t x)) ↔
        (t = .isize → fits t (x.bmod (2 ^ 128)) = true) := by
    refine iff_of_true h fun hsize => ?_
    rw [hsize] at ht
    cases ht
  cases c with
  | int v t'' =>
    obtain ⟨-, rfl, -, -⟩ := number_int hx
    cases s
    · apply hunsigned ht
      rw [foldCast_int ht]
      exact foldsTo_newUint ht _
    · rw [foldCast_signed ht]
      exact foldsTo_castInt ht
  | uint v t'' =>
    obtain ⟨-, rfl, -, -⟩ := number_uint hx
    cases s
    · apply hunsigned ht
      have h := foldsTo_newUint (P := P) ht v
      rwa [← foldCast_uint ht (Int.natCast_nonneg v)] at h
    · rw [foldCast_signed ht]
      simp only [S128.ofNat_eq_ofInt]
      exact foldsTo_castInt ht
  | bool b =>
    obtain ⟨-, rfl⟩ := Prod.mk.inj (Option.some.inj hx)
    have hfits := fits_bool (b := b) ht
    have hnum := number_ofNumber (P := P) ht hfits
    rw [wrap_of_fits ht hfits] at hunsigned ⊢
    cases s
    · rw [ofNumber_uint ht, Int.toNat_natCast] at hnum hunsigned ⊢
      apply hunsigned ht
      rw [foldCast_bool ht, foldsTo_some, hnum]
      exact ⟨rfl, rfl⟩
    · have hmod : (b.toNat : ℤ).bmod (2 ^ 128) = b.toNat := by cases b <;> rfl
      rw [ofNumber_int ht] at hnum ⊢
      rw [foldCast_signed ht, foldsTo_some, hnum, hmod]
      exact iff_of_true ⟨rfl, rfl⟩ fun _ => hfits
  | _ => cases hx

end Cast

/-- Folding an expression is exact exactly under its condition. -/
theorem fold_iff {src : RValue CoreType P (Constant P)} {d : Constant P} (h : eval src = some d) :
    FoldsTo (fold 64 ops src) d ↔ Exact src := by
  cases src with
  | cast val type =>
    simp only [eval, Option.bind_eq_bind, Option.bind_eq_some_iff, Option.some.injEq] at h
    obtain ⟨⟨t, x⟩, hx, ⟨s, w⟩, ht, rfl⟩ := h
    rw [fold, foldCast_iff hx ht, Exact, hx]
    simp
  | binOp l op r =>
    simp only [eval, Option.bind_eq_bind, Option.bind_eq_some_iff] at h
    obtain ⟨c, hc, ⟨t, x⟩, hx, c', hc', ⟨t', y⟩, hy, h⟩ := h
    rw [fold, hc, hc', Exact, hc, hc']
    simp only [Option.bind_some, hx, hy, Option.mem_some_iff, forall_eq']
    exact foldBinOp_iff hx hy h
  | uniOp val op =>
    simp only [eval, Option.bind_eq_bind, Option.bind_eq_some_iff] at h
    obtain ⟨⟨t, x⟩, hx, h⟩ := h
    rw [fold, foldUniOp_iff hx h, Exact, hx]
    simp
  | _ => cases h

end Operators

/-- A chain of foldable expressions over constants. -/
inductive Chain (P : Type)
  | constant (c : Constant P)
  | cast (val : Chain P) (type : CoreType)
  | binOp (l : Chain P) (op : BinOp) (r : Chain P)
  | uniOp (val : Chain P) (op : UniOp)

namespace Chain

variable {P : Type}

/-- The value at run time. -/
def run : Chain P → Option (Constant P)
  | .constant c => some c
  | .cast val type => do eval (.cast (← val.run) type)
  | .binOp l op r => do eval (.binOp (.constant (← l.run)) op (.constant (← r.run)))
  | .uniOp val op => do eval (.uniOp (← val.run) op)

/-- The constant that the pass leaves, if it folds every expression. -/
def folded [Ord P] (ops : DoubleOps) : Chain P → Option (Constant P)
  | .constant c => some c
  | .cast val type => do (fold 64 ops (.cast (← val.folded ops) type)).toOption.join
  | .binOp l op r => do
    (fold 64 ops (.binOp (.constant (← l.folded ops)) op (.constant (← r.folded ops)))).toOption.join
  | .uniOp val op => do (fold 64 ops (.uniOp (← val.folded ops) op)).toOption.join

/-- Each expression is exact on its values at run time. -/
def ExactSteps : Chain P → Prop
  | .constant _ => True
  | .cast val type => val.ExactSteps ∧ ∀ c ∈ val.run, Exact (.cast c type)
  | .binOp l op r =>
    l.ExactSteps ∧ r.ExactSteps ∧
      ∀ c ∈ l.run, ∀ d ∈ r.run, Exact (.binOp (.constant c) op (.constant d))
  | .uniOp val op => val.ExactSteps ∧ ∀ c ∈ val.run, Exact (.uniOp c op)

variable [Ord P] {ops : DoubleOps}

omit [Ord P] in
theorem eq_of_foldsTo {o : Folded P} {c c' : Constant P} (h : FoldsTo o c)
    (ho : o.toOption.join = some c') : c' = c := by
  obtain ⟨new, rfl, hnew⟩ := h
  exact (hnew c' ho).1

theorem folded_eq_run {e : Chain P} {c c' : Constant P} (hexact : e.ExactSteps) (hrun : e.run = some c)
    (hfold : e.folded ops = some c') : c' = c := by
  induction e generalizing c c' with
  | constant d => exact Option.some.inj (hfold.symm.trans hrun)
  | cast val type ih =>
    simp only [run, folded, Option.bind_eq_bind, Option.bind_eq_some_iff] at hrun hfold
    obtain ⟨a, ha, hrun⟩ := hrun
    obtain ⟨a', ha', hfold⟩ := hfold
    obtain rfl := ih hexact.1 ha ha'
    exact eq_of_foldsTo ((fold_iff hrun).mpr (hexact.2 a' ha)) hfold
  | binOp l op r ihl ihr =>
    simp only [run, folded, Option.bind_eq_bind, Option.bind_eq_some_iff] at hrun hfold
    obtain ⟨a, ha, b, hb, hrun⟩ := hrun
    obtain ⟨a', ha', b', hb', hfold⟩ := hfold
    obtain rfl := ihl hexact.1 ha ha'
    obtain rfl := ihr hexact.2.1 hb hb'
    exact eq_of_foldsTo ((fold_iff hrun).mpr (hexact.2.2 a' ha b' hb)) hfold
  | uniOp val op ih =>
    simp only [run, folded, Option.bind_eq_bind, Option.bind_eq_some_iff] at hrun hfold
    obtain ⟨a, ha, hrun⟩ := hrun
    obtain ⟨a', ha', hfold⟩ := hfold
    obtain rfl := ih hexact.1 ha ha'
    exact eq_of_foldsTo ((fold_iff hrun).mpr (hexact.2 a' ha)) hfold

end Chain

end Mrustc.Mir.ConstFold
