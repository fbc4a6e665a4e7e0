import Mrustc.ConstEval.ArithSigned
import Mrustc.ConstEval.BitIntrinsicsExact

/-! # When the checked arithmetic is exact

The arms and the shifts are put together: an operator on two operands of integer types does what it should if
and only if `ArithCondition` holds.
-/

namespace Mrustc.ConstEval

open Hir (CoreType)
open Mir (Param BinOp)
open Int128

section Write

variable {T P : Type} {state : CallStackEntry T P} {ti : TypeInfo} {op : BinOp} {saturate : Bool} {x y : ℤ}
  {dst : ValueRef}

/-- A word and a flag that are written. -/
theorem arithExact_int_iff (hti : ti.Integer) (hroom : dst.Room (ti.bits / 8)) (u : U128) (b : Bool) :
    ArithExact state.target ti op saturate x y dst (Outcome.write state dst ti (.int u b)) ↔
      IntExact ti op saturate x y (.ok (.int u b)) := by
  obtain ⟨dst₁, hrun, hholds, hsame⟩ := @ValueRef.writes_writeUint state.target dst ti.bits (ti.bits / 8) u
    hti.bytes_eq ⟨hti.bytes_pos, hti.bytes_le⟩ hroom
  rw [hti.bits_eq] at hholds
  have hwrite : Outcome.write state dst ti (.int u b) = .ok (dst₁, b) := by
    rw [Outcome.write, hrun]
    rfl
  rw [hwrite]
  constructor
  · rintro ⟨dst', hres, -, hval⟩
    obtain ⟨rfl, rfl⟩ := Prod.mk.inj (Except.ok.inj hres)
    exact ⟨u, rfl, fun m hm => hholds.unique (hval m hm)⟩
  · rintro ⟨u', hres, hval⟩
    obtain ⟨rfl, rfl⟩ := Outcome.int.inj (Except.ok.inj hres)
    exact ⟨dst₁, rfl, hsame, fun m hm => hval m hm ▸ hholds⟩

theorem not_arithExact_error (e : Failure) : ¬ArithExact state.target ti op saturate x y dst (.error e) := by
  rintro ⟨dst', hres, -⟩
  cases hres

/-- What an arm gives is written. -/
theorem arithExact_bind_iff (hti : ti.Integer) (hroom : dst.Room (ti.bits / 8)) {res : Except Failure Outcome}
    (hres : ∀ v, res ≠ .ok (.byte v)) :
    ArithExact state.target ti op saturate x y dst (res >>= Outcome.write state dst ti) ↔
      IntExact ti op saturate x y res := by
  match res with
  | .error e => exact iff_of_false (not_arithExact_error e) (not_intExact_error e)
  | .ok (.byte v) => exact absurd rfl (hres v)
  | .ok (.int u b) => exact arithExact_int_iff hti hroom u b

end Write

section Shifts

variable {ti : TypeInfo} {op : BinOp} {saturate : Bool} {x y : ℤ} {n : ℕ}

theorem exactResult_shl (h : n < ti.bits) : exactResult .bitShl ti.bits x n = some (x * 2 ^ n) := by
  simp [exactResult, Mir.ConstFold.shift, h]

theorem exactResult_shr (h : n < ti.bits) : exactResult .bitShr ti.bits x n = some (x >>> n) := by
  simp [exactResult, Mir.ConstFold.shift, h]

theorem exactResult_shift_none (hop : op = .bitShl ∨ op = .bitShr) (h : ¬(0 ≤ y ∧ y < ti.bits)) :
    exactResult op ti.bits x y = none := by
  rcases hop with rfl | rfl <;> exact if_neg h

/-- Masking keeps the value modulo `2 ^ bits`. -/
theorem dvd_mask (hti : ti.Integer) (z : ℤ) :
    (2 ^ ti.bits : ℤ) ∣ (z.bmod (2 ^ 128)).tmod (2 ^ ti.bits) - z := by
  have hword : (2 ^ ti.bits : ℤ) ∣ z.bmod (2 ^ 128) - z :=
    (pow_dvd_pow 2 hti.le_bits).trans (S128.ofInt_eq_iff.mp (ofInt_bmod _))
  have h := (dvd_tmod_sub (z.bmod (2 ^ 128)) (2 ^ ti.bits)).add hword
  rwa [sub_add_sub_cancel] at h

variable (hti : ti.Integer) (hn : n < ti.bits)
include hti hn

theorem unsigned_shl_exact : ∃ u, shiftUnsigned ti .bitShl (U128.ofInt x) n = .ok u ∧
    IntExact ti .bitShl saturate x n (.ok (.int u false)) := by
  refine ⟨_, rfl, ?_⟩
  rw [S128.ushl_ofInt, mask_ofInt hti, intExact_plain hti (by decide) (exactResult_shl hn)]
  exact dvd_emod_sub _ _

theorem unsigned_shr_exact (hty : ti.ty = .unsigned) (hx : ti.Fits x) :
    ∃ u, shiftUnsigned ti .bitShr (U128.ofInt x) n = .ok u ∧
      IntExact ti .bitShr saturate x n (.ok (.int u false)) := by
  have hx := (fits_unsigned hty).mp hx
  refine ⟨_, rfl, ?_⟩
  rw [S128.ushr_ofInt ⟨hx.1, hx.2.trans_le (two_pow_le hti)⟩, mask_ofInt hti,
    intExact_plain hti (by decide) (exactResult_shr hn)]
  exact dvd_emod_sub _ _

theorem signed_shl_exact : ∃ u, shiftSigned ti .bitShl (S128.ofInt x) n = .ok u ∧
    IntExact ti .bitShl saturate x n (.ok (.int u false)) := by
  refine ⟨_, rfl, ?_⟩
  rw [S128.shl_ofInt, maskS_bmod hti, intExact_plain hti (by decide) (exactResult_shl hn)]
  exact dvd_mask hti _

/-- A negative value of 128 bits is shifted right by at most 64. -/
theorem signed_shr_exact_iff (hty : ti.ty = .signed) (hx : ti.Fits x) :
    (∃ u, shiftSigned ti .bitShr (S128.ofInt x) n = .ok u ∧
      IntExact ti .bitShr saturate x n (.ok (.int u false))) ↔ (x < 0 → n ≤ 64) := by
  have hxr := range_of_fits hti hty hx
  have hshift : (∃ u, shiftSigned ti .bitShr (S128.ofInt x) n = .ok u ∧
      IntExact ti .bitShr saturate x n (.ok (.int u false))) ↔
        IntExact ti .bitShr saturate x n (.ok (.int (ti.maskS ((S128.ofInt x).shr n)) false)) := by
    simp [shiftSigned]
  rw [hshift]
  by_cases h128 : ti.bits = 128
  · rw [maskS_wide hti h128, ← S128.ofInt_toInt ((S128.ofInt x).shr n), S128.inner_ofInt,
      intExact_plain hti (by decide) (exactResult_shr hn), h128, ← S128.ofInt_eq_iff, S128.ofInt_toInt,
      S128.shr_ofInt_iff hxr (h128 ▸ hn)]
  · have h64 : n ≤ 64 := by
      have hle := hti.le
      omega
    rw [S128.shr_ofInt hxr h64, maskS_bmod hti, intExact_plain hti (by decide) (exactResult_shr hn)]
    exact iff_of_true (dvd_mask hti _) fun _ => h64

end Shifts

/-! ## Operators on operands -/

theorem arithUnsigned_ne_byte {ti : TypeInfo} {op : BinOp} (hop : op ∈ arithOps) (l r : U128) (saturate v : Bool) :
    arithUnsigned ti op l r saturate ≠ .ok (.byte v) := by
  intro h
  cases op <;> simp [arithUnsigned, arithOps] at h hop
  all_goals split at h <;> cases h

theorem arithSigned_ne_byte {ti : TypeInfo} {op : BinOp} (hop : op ∈ arithOps) (l r : S128) (saturate v : Bool) :
    arithSigned ti op l r saturate ≠ .ok (.byte v) := by
  intro h
  cases op <;> simp [arithSigned, arithOps] at h hop
  all_goals split at h <;> cases h

/-- The word that a shift by `amt` gives. -/
def shiftWord (ti : TypeInfo) (op : BinOp) (x : ℤ) (amt : ℕ) : Except Failure U128 :=
  if ti.ty = .unsigned then shiftUnsigned ti op (U128.ofInt x) amt else shiftSigned ti op (S128.ofInt x) amt

theorem shiftWord_ok (ti : TypeInfo) {op : BinOp} (hop : op = .bitShl ∨ op = .bitShr) (x : ℤ) (amt : ℕ) :
    ∃ u, shiftWord ti op x amt = .ok u := by
  rw [shiftWord]
  split <;> rcases hop with rfl | rfl <;> exact ⟨_, rfl⟩

section Operators

variable {T P : Type} [DecidableEq T] {state : CallStackEntry T P} {ty tyR : T} {ti tiR : TypeInfo}
  {dst : ValueRef} {valL valR : Param P ValueRef} {op : BinOp} {saturate : Bool} {x y : ℤ}

variable (hinfo : state.typeInfo ty = ti) (hti : ti.Integer) (hl : Denotes state ti valL x)
  (hroom : dst.Room (ti.bits / 8))
include hinfo hti hl hroom

/-- The operators other than the shifts. -/
theorem arith_exact_iff (others : TypeInfo → BinOp → Except Failure (ValueRef × Bool))
    (hr : Denotes state ti valR y) (hop : op ∈ arithOps) (hshift : op ≠ .bitShl ∧ op ≠ .bitShr) :
    ArithExact state.target ti op saturate x y dst
        (doArithChecked state ty dst valL valR others op ty saturate) ↔ ArithCondition ti op saturate x y := by
  have hx := hl.fits
  have hy := hr.fits
  rcases hti.kind with hty | hty
  · have hrun : doArithChecked state ty dst valL valR others op ty saturate =
        arithSigned ti op (S128.ofInt x) (S128.ofInt y) saturate >>= Outcome.write state dst ti := by
      simp [doArithChecked, hshift, hinfo, hty, readParamSint_of_denotes hti hty hl,
        readParamSint_of_denotes hti hty hr, bind, Except.bind]
    have hne : ti.ty ≠ .unsigned := by simp [hty]
    rw [hrun, arithExact_bind_iff hti hroom (arithSigned_ne_byte hop _ _ saturate)]
    cases op
    case add => simpa [ArithCondition, hty] using signed_add_exact_iff hti hty hx hy
    case sub => simpa [ArithCondition, hty] using signed_sub_exact_iff hti hty hx hy
    case mul =>
      rw [ArithCondition, if_pos hty]
      by_cases h128 : ti.bits = 128
      · rw [if_pos h128, signed_mul_wide_iff hti hty hx hy h128]
      · rw [if_neg h128, signed_mul_narrow_iff hti hty hx hy h128]
    case div => simpa [ArithCondition, hty] using signed_div_exact_iff hti hty hx hy
    case mod => simpa [ArithCondition, hty] using signed_mod_exact_iff hti hty hx hy
    case bitOr | bitAnd | bitXor => exact iff_of_true (bitwise_exact hti rfl) trivial
    case bitShl | bitShr => simp at hshift
    all_goals simp [arithOps] at hop
  · have hrun : doArithChecked state ty dst valL valR others op ty saturate =
        arithUnsigned ti op (U128.ofInt x) (U128.ofInt y) saturate >>= Outcome.write state dst ti := by
      simp [doArithChecked, hshift, hinfo, hty, readParamUint_of_unsigned hti hty hl,
        readParamUint_of_unsigned hti hty hr, bind, Except.bind]
    have hne : ti.ty ≠ .signed := by simp [hty]
    rw [hrun, arithExact_bind_iff hti hroom (arithUnsigned_ne_byte hop _ _ saturate)]
    cases op
    case add => exact iff_of_true (unsigned_add_exact hti hty hx hy) fun h => absurd h hne
    case sub => exact iff_of_true (unsigned_sub_exact hti hty hx hy) fun h => absurd h hne
    case mul =>
      rw [ArithCondition, if_neg hne]
      exact unsigned_mul_exact_iff hti hty hx hy
    case div => exact iff_of_true (unsigned_div_exact hti hty hx hy) fun h => absurd h hne
    case mod => exact iff_of_true (unsigned_mod_exact hti hty hx hy) fun h => absurd h hne
    case bitOr | bitAnd | bitXor => exact iff_of_true (bitwise_exact hti rfl) trivial
    case bitShl | bitShr => simp at hshift
    all_goals simp [arithOps] at hop

/-- The shifts: an amount out of range is seen if its low 64 bits are above the width. -/
theorem shift_exact_iff (hinfoR : state.typeInfo tyR = tiR) (htiR : tiR.Integer) (hr : Denotes state tiR valR y)
    (others : TypeInfo → BinOp → Except Failure (ValueRef × Bool)) (hop : op = .bitShl ∨ op = .bitShr) :
    ArithExact state.target ti op saturate x y dst
        (doArithChecked state ty dst valL valR others op tyR saturate) ↔ ArithCondition ti op saturate x y := by
  have hx := hl.fits
  have hlo : (U128.ofInt y).truncateU64.toNat = (y % 2 ^ 64).toNat := by
    rw [toNat_truncateU64, S128.toNat_ofInt]
    omega
  have hamount : readShiftAmount state valR tiR = .ok (U128.ofInt y) := by
    rw [readShiftAmount]
    rcases htiR.kind with hty | hty
    · rw [if_neg (by simp [hty]), readParamSint_of_denotes htiR hty hr]
      rfl
    · rw [if_pos hty, readParamUint_of_unsigned htiR hty hr]
  have hrun : ∀ u, shiftWord ti op x (if ti.bits < (y % 2 ^ 64).toNat then 0 else (y % 2 ^ 64).toNat) = .ok u →
      doArithChecked state ty dst valL valR others op tyR saturate =
        Outcome.write state dst ti (.int u (decide (ti.bits < (y % 2 ^ 64).toNat))) := by
    intro u hu
    rw [doArithChecked, if_pos hop, doShift]
    simp only [hinfo, hinfoR, hamount, bind, Except.bind, hlo, decide_eq_true_eq, gt_iff_lt]
    rcases hti.kind with hty | hty
    · rw [shiftWord, if_neg (by simp [hty])] at hu
      simp only [hty, readParamSint_of_denotes hti hty hl, hu]
      rfl
    · rw [shiftWord, if_pos hty] at hu
      simp only [hty, readParamUint_of_unsigned hti hty hl, hu]
      rfl
  obtain ⟨u, hu⟩ := shiftWord_ok ti hop x (if ti.bits < (y % 2 ^ 64).toNat then 0 else (y % 2 ^ 64).toNat)
  rw [hrun u hu, arithExact_int_iff hti hroom]
  have hcond : ArithCondition ti op saturate x y ↔
      if 0 ≤ y ∧ y < ti.bits then (op = .bitShr → ti.ty = .signed → x < 0 → y ≤ 64)
      else ti.bits < y % 2 ^ 64 := by
    rcases hop with rfl | rfl <;> rfl
  rw [hcond]
  have hle := hti.le_bits
  by_cases hrange : 0 ≤ y ∧ y < ti.bits
  · obtain ⟨n, rfl⟩ := Int.eq_ofNat_of_zero_le hrange.1
    have hn : n < ti.bits := by omega
    have hmod : ((n : ℤ) % 2 ^ 64).toNat = n := by omega
    rw [if_pos hrange]
    rw [hmod, if_neg (by omega)] at hu
    rw [hmod, decide_eq_false (by omega)]
    have hword : (∃ u, shiftWord ti op x n = .ok u ∧ IntExact ti op saturate x n (.ok (.int u false))) ↔
        IntExact ti op saturate x n (.ok (.int u false)) := by
      simp [hu]
    have hle' : ((n : ℤ) ≤ 64) ↔ n ≤ 64 := by omega
    rw [← hword, hle']
    rcases hti.kind with hty | hty
    · have hsigned : shiftWord ti op x n = shiftSigned ti op (S128.ofInt x) n := if_neg (by simp [hty])
      simp only [hsigned, hty, true_imp_iff]
      rcases hop with rfl | rfl
      · exact iff_of_true (signed_shl_exact hti hn) (by simp)
      · rw [signed_shr_exact_iff hti hn hty hx]
        simp
    · have hunsigned : shiftWord ti op x n = shiftUnsigned ti op (U128.ofInt x) n := if_pos hty
      simp only [hunsigned]
      refine iff_of_true ?_ (by simp [hty])
      rcases hop with rfl | rfl
      · exact unsigned_shl_exact hti hn
      · exact unsigned_shr_exact hti hn hty hx
  · have hnone := exactResult_shift_none (x := x) hop hrange
    rw [if_neg hrange]
    constructor
    · rintro ⟨u', hres, -⟩
      have hflag := (Outcome.int.inj (Except.ok.inj hres)).2
      rw [reported, hnone] at hflag
      have hlt := of_decide_eq_true hflag
      omega
    · intro hlt
      rw [decide_eq_true (by omega)]
      exact intExact_none hnone u

end Operators

/-- On operands of integer types with the values `x` and `y`, an arithmetic operator does what it should if and
only if `ArithCondition` holds; only shifts take operands of two types. -/
theorem do_arith_checked_exact_iff {T P : Type} [DecidableEq T] {state : CallStackEntry T P} {ty tyR : T}
    {t tR : CoreType} {dst : ValueRef} {valL valR : Param P ValueRef} {op : BinOp} {x y : ℤ}
    (hty : state.asPrimitive ty = some t) (ht : t ∉ [.f32, .f64, .bool, .char, .str])
    (htyR : state.asPrimitive tyR = some tR) (htR : tR ∉ [.f32, .f64, .bool, .char, .str])
    (hl : Denotes state (TypeInfo.forPrimitive state.target t) valL x)
    (hr : Denotes state (TypeInfo.forPrimitive state.target tR) valR y)
    (hroom : dst.Room ((TypeInfo.forPrimitive state.target t).bits / 8)) (hop : op ∈ arithOps)
    (hsame : op ≠ .bitShl ∧ op ≠ .bitShr → tyR = ty)
    (others : TypeInfo → BinOp → Except Failure (ValueRef × Bool)) (saturate : Bool) :
    ArithExact state.target (TypeInfo.forPrimitive state.target t) op saturate x y dst
        (doArithChecked state ty dst valL valR others op tyR saturate) ↔
      ArithCondition (TypeInfo.forPrimitive state.target t) op saturate x y := by
  have hti := TypeInfo.integer_forPrimitive state.target ht
  by_cases hshift : op = .bitShl ∨ op = .bitShr
  · exact shift_exact_iff (typeInfo_eq hty rfl) hti hl hroom (typeInfo_eq htyR rfl)
      (TypeInfo.integer_forPrimitive state.target htR) hr others hshift
  · have hne : op ≠ .bitShl ∧ op ≠ .bitShr := not_or.mp hshift
    obtain rfl := hsame hne
    obtain rfl := Option.some.inj (hty.symm.trans htyR)
    exact arith_exact_iff (typeInfo_eq hty rfl) hti hl hroom others hr hop hne

section Examples

theorem sub_u8_exact : ArithExact plainState.target (TypeInfo.forPrimitive plainState.target .u8) .sub true 3 5
    ⟨[none], true, 0⟩ (doArithChecked plainState .u8 ⟨[none], true, 0⟩ (.constant (.uint 3 .u8))
      (.constant (.uint 5 .u8)) (fun _ _ => .error .defer) .sub .u8 true) :=
  (@do_arith_checked_exact_iff _ _ _ plainState _ _ .u8 .u8 _ _ _ _ _ _ rfl (by decide) rfl (by decide)
    (.uint (by decide) rfl) (.uint (by decide) rfl) ⟨rfl, le_rfl⟩ (by decide) (fun _ => rfl) _ true).mpr
    fun h => absurd h (by decide)

/-- The sum of `100` and `100` does not fit `i8`, and no overflow is reported. -/
theorem add_i8_inexact : ¬ArithExact plainState.target (TypeInfo.forPrimitive plainState.target .i8) .add false 100 100
    ⟨[none], true, 0⟩ (doArithChecked plainState .i8 ⟨[none], true, 0⟩ (.constant (.int 100 .i8))
      (.constant (.int 100 .i8)) (fun _ _ => .error .defer) .add .i8 false) := by
  rintro ⟨dst', hres, -⟩
  have hrun : (.ok (⟨[some 200], true, 0⟩, false) : Except Failure (ValueRef × Bool)) =
      .ok (dst', reported (TypeInfo.forPrimitive plainState.target .i8) .add 100 100) := hres
  exact absurd (Prod.mk.inj (Except.ok.inj hrun)).2 (by decide)

end Examples

end Mrustc.ConstEval
