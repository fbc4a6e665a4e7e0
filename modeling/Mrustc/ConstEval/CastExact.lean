import Mrustc.ConstEval.BitIntrinsicsExact
import Mrustc.ConstEval.Cast

/-! # Casts and switches of the evaluator

Casts between integers are exact but for a `char` on a big-endian target. A cast of a signed integer to a float
reads the operand without its sign, and a switch looks at one byte of the scrutinee.
-/

namespace Mrustc.ConstEval

open Hir (CoreType)
open Mir (SwitchValues)
open Mir.Monomorph (bytesValue bytesValue_lt size)
open Int128

section Prefix

variable {target : Target} {val : ValueRef} {src : List UInt8} {n m v : ℕ}

theorem eq_map_some_of_mapM :
    ∀ {l : List (Option UInt8)} {src : List UInt8}, l.mapM id = some src → l = src.map some
  | [], src, h => by
    cases Option.some.inj h
    rfl
  | none :: l, src, h => by simp at h
  | some b :: l, src, h => by
    cases hl : l.mapM id with
    | none => simp [hl] at h
    | some src' =>
      have hsrc : b :: src' = src := by simpa [hl] using h
      rw [← hsrc, List.map_cons, eq_map_some_of_mapM hl]

theorem getBytes_take (hm : m ≤ n) (h : val.getBytes n = some src) : val.getBytes m = some (src.take m) := by
  rw [ValueRef.getBytes] at h
  split at h
  case isFalse => cases h
  case isTrue hroom =>
    have hl := eq_map_some_of_mapM h
    have htake : (val.storage.drop val.ofs).take m = (src.take m).map some := by
      have := congrArg (List.take m) hl
      rwa [List.take_take, min_eq_left hm, ← List.map_take] at this
    have hmap : ((src.take m).map some).mapM id = some (src.take m) := by
      rw [List.mapM_map]
      exact ValueRef.mapM_some _
    rw [ValueRef.getBytes, if_pos (by omega), htake, hmap]

theorem bytesValue_take (bigEndian : Bool) (hm : m ≤ src.length) :
    bytesValue bigEndian (src.take m) =
      if bigEndian then bytesValue bigEndian src / 2 ^ (8 * (src.length - m))
      else bytesValue bigEndian src % 2 ^ (8 * m) := by
  have hlen : (src.take m).length = m := List.length_take_of_le hm
  cases bigEndian
  · have hlt := bytesValue_lt false (src.take m)
    have happ := bytesValue_append (src.take m) (src.drop m)
    rw [hlen] at hlt happ
    rw [List.take_append_drop] at happ
    rw [if_neg Bool.false_ne_true, happ, Nat.add_mul_mod_self_left, Nat.mod_eq_of_lt hlt]
  · have hrev (l : List UInt8) : bytesValue true l = bytesValue false l.reverse := by
      rw [← bytesValue_reverse, List.reverse_reverse]
    have hlt := bytesValue_lt false (src.drop m).reverse
    have happ := bytesValue_append (src.drop m).reverse (src.take m).reverse
    rw [List.length_reverse, List.length_drop] at hlt happ
    rw [← List.reverse_append, List.take_append_drop] at happ
    rw [if_pos rfl, hrev, hrev src, happ, Nat.add_mul_div_left _ _ (Nat.two_pow_pos _), Nat.div_eq_of_lt hlt,
      zero_add]

/-- The first bytes of a number: the low ones, or the high ones on a big-endian target. -/
theorem holds_take (hm : m ≤ n) (h : val.Holds target n v) :
    val.Holds target m (if target.bigEndian then v / 2 ^ (8 * (n - m)) else v % 2 ^ (8 * m)) := by
  obtain ⟨src, hget, rfl, rfl⟩ := h
  exact ⟨src.take m, getBytes_take hm hget, List.length_take_of_le hm, bytesValue_take _ hm⟩

end Prefix

section Source

variable {target : Target} {t : CoreType} {val : ValueRef} {z : ℤ}

theorem size_eq (ht : t ∉ [.f32, .f64, .str]) (hchar : t ≠ .char) :
    size target.toTarget t = ((TypeInfo.forPrimitive target t).bits + 7) / 8 := by
  obtain ⟨k, hk⟩ := target.dvd_pointerBits
  cases t
  case f32 | f64 | str => simp at ht
  case char => exact absurd rfl hchar
  case usize | isize =>
    simp only [size, TypeInfo.forPrimitive]
    omega
  all_goals simp [size, TypeInfo.forPrimitive]

theorem size_pos_le (target : Target) (ht : t ∉ [.f32, .f64, .str]) :
    0 < size target.toTarget t ∧ size target.toTarget t ≤ 16 := by
  have hge := target.le_pointerBits
  have hle := target.pointerBits_le
  cases t <;> simp only [size] <;> first | omega | simp at ht

/-- The values of an unsigned type. -/
theorem isValue_unsigned (hty : (TypeInfo.forPrimitive target t).ty = .unsigned) (h : IsValue target t z) :
    0 ≤ z ∧ z < 2 ^ (8 * size target.toTarget t) := by
  obtain ⟨k, hk⟩ := target.dvd_pointerBits
  cases t
  case char | bool =>
    simp only [IsValue] at h
    simp only [size]
    omega
  case usize =>
    have hsize : 8 * (target.pointerBits / 8) = target.pointerBits := by omega
    simpa [IsValue, TypeInfo.Fits, TypeInfo.forPrimitive, size, hsize] using h
  case u8 | u16 | u32 | u64 | u128 => simpa [IsValue, TypeInfo.Fits, TypeInfo.forPrimitive, size] using h
  all_goals cases hty

/-- An unsigned source is read as its value, but for the last byte of a `char`. -/
theorem readUint_of_holdsValue (ht : t ∉ [.f32, .f64, .str])
    (hty : (TypeInfo.forPrimitive target t).ty = .unsigned) (h : HoldsValue target t val z) :
    val.readUint target (TypeInfo.forPrimitive target t).bits =
      .ok (U128.ofInt (if t = .char ∧ target.bigEndian = true then z / 256 else z)) := by
  obtain ⟨h0, hlt⟩ := isValue_unsigned hty h.isValue
  have hholds := h.holds
  rw [Int.emod_eq_of_lt h0 hlt] at hholds
  by_cases hchar : t = .char
  · rw [hchar] at hholds
    have hsize : size target.toTarget .char = 4 := rfl
    have hlt' : z < 2 ^ 24 := by
      have hval := h.isValue
      simp only [hchar, IsValue] at hval
      omega
    have hread := @ValueRef.readUint_of_holds target val 21 3 _ rfl ⟨by omega, by omega⟩
      (holds_take (by rw [hsize]; omega) hholds)
    rw [hchar]
    refine hread.trans (congrArg _ (congrArg _ ?_))
    cases target.bigEndian <;> simp [hsize] <;> omega
  · have hread := ValueRef.readUint_of_holds (size_eq ht hchar).symm (size_pos_le target ht) hholds
    rw [hread, if_neg (fun h => hchar h.1), Int.toNat_of_nonneg h0]

section Signed

variable (hti : (TypeInfo.forPrimitive target t).Integer) (hty : (TypeInfo.forPrimitive target t).ty = .signed)
include hti hty

theorem isValue_signed : IsValue target t z ↔ (TypeInfo.forPrimitive target t).Fits z := by
  cases t
  case bool | char | usize | u8 | u16 | u32 | u64 | u128 | f32 | f64 | str => cases hty
  all_goals rfl

theorem not_mem_of_signed : t ∉ [.f32, .f64, .str] ∧ t ≠ .char := by
  cases t <;> first | decide | cases hty

/-- The bytes of a signed source. -/
theorem holds_of_holdsValue (h : HoldsValue target t val z) :
    val.Holds target ((TypeInfo.forPrimitive target t).bits / 8)
      (z % 2 ^ (TypeInfo.forPrimitive target t).bits).toNat := by
  have hsize := @size_eq target t (not_mem_of_signed hti hty).1 (not_mem_of_signed hti hty).2
  have hholds := h.holds
  rwa [hsize, hti.bytes_eq, hti.bits_eq] at hholds

theorem readSint_of_holdsValue (h : HoldsValue target t val z) :
    val.readSint target (TypeInfo.forPrimitive target t).bits = .ok (S128.ofInt z) := by
  rw [ValueRef.readSint_of_holds hti.bytes_eq ⟨hti.bytes_pos, hti.bytes_le⟩ (holds_of_holdsValue hti hty h),
    toNat_emod, hti.bits_eq, bmod_of_fits hti hty ((isValue_signed hti hty).mp h.isValue)]

/-- Read as an unsigned number a signed source has lost its sign. -/
theorem readUint_of_signed (h : HoldsValue target t val z) :
    val.readUint target (TypeInfo.forPrimitive target t).bits =
      .ok (U128.ofInt (z % 2 ^ (TypeInfo.forPrimitive target t).bits)) := by
  rw [ValueRef.readUint_of_holds hti.bytes_eq ⟨hti.bytes_pos, hti.bytes_le⟩ (holds_of_holdsValue hti hty h),
    toNat_emod]

end Signed

end Source

section Casts

variable {T P : Type} {state : CallStackEntry T P} {host : Target} {te t : CoreType} {srcTy : T} {inval dst : ValueRef}
  {z a : ℤ} {others : Except Failure ValueRef} {ti : TypeInfo}

/-- The low bits are written. -/
theorem writes_ofInt_iff (hti : ti.Integer) (hroom : dst.Room (ti.bits / 8)) :
    ValueRef.Writes state.target dst (ti.bits / 8) (z % 2 ^ ti.bits).toNat
        (dst.writeUint state.target ti.bits (U128.ofInt a)) ↔ a % 2 ^ ti.bits = z % 2 ^ ti.bits := by
  have hdvd : (2 : ℤ) ^ ti.bits ∣ 2 ^ 128 := pow_dvd_pow 2 hti.le_bits
  have hcast : ((U128.ofInt a).toNat : ℤ) % 2 ^ ti.bits = a % 2 ^ ti.bits := by
    rw [S128.toNat_ofInt, Int.toNat_of_nonneg (Int.emod_nonneg _ (by positivity)), Int.emod_emod_of_dvd _ hdvd]
  rw [ValueRef.writes_writeUint_iff hti.bytes_eq ⟨hti.bytes_pos, hti.bytes_le⟩ hroom, hti.bits_eq, ← hcast,
    ← toNat_emod ti z]
  norm_cast

theorem kind_of_source (ht : t ∉ [.f32, .f64, .str]) (target : Target) :
    (TypeInfo.forPrimitive target t).ty = .unsigned ∨
      (TypeInfo.forPrimitive target t).ty = .signed ∧ (TypeInfo.forPrimitive target t).Integer := by
  by_cases hint : t ∈ [.bool, .char]
  · left
    cases t <;> first | rfl | simp at hint
  · have hti := @TypeInfo.integer_forPrimitive target t (by simp_all)
    exact hti.kind.symm.imp id fun hty => ⟨hty, hti⟩

/-- A cast to an integer type. -/
theorem cast_int_iff (hsrc : state.asPrimitive srcTy = some t) (ht : t ∉ [.f32, .f64, .str])
    (hti : (TypeInfo.forPrimitive state.target te).Integer) (h : HoldsValue state.target t inval z)
    (hroom : dst.Room ((TypeInfo.forPrimitive state.target te).bits / 8)) :
    CastExact state.target host te z dst (castPrimitive state host te srcTy inval dst others) ↔
      CastCondition state.target te t z := by
  have hfloat : (TypeInfo.forPrimitive state.target te).ty ≠ .float := by
    rcases hti.kind with hk | hk <;> simp [hk]
  have hinfo := typeInfo_eq hsrc rfl
  simp only [CastExact, CastCondition, if_neg hfloat]
  rcases kind_of_source ht state.target with hty | ⟨hty, hsi⟩
  · have hrun : castPrimitive state host te srcTy inval dst others =
        dst.writeUint state.target (TypeInfo.forPrimitive state.target te).bits
          (U128.ofInt (if t = .char ∧ state.target.bigEndian = true then z / 256 else z)) := by
      have hread := readUint_of_holdsValue ht hty h
      rcases hti.kind with hk | hk <;>
        simp only [castPrimitive, hinfo, hk, hty, hread, bind, Except.bind]
    rw [hrun, writes_ofInt_iff hti hroom]
    by_cases hc : t = .char ∧ state.target.bigEndian = true
    · simp [hc]
    · rw [if_neg hc]
      exact iff_of_true rfl fun h1 h2 => absurd ⟨h1, h2⟩ hc
  · have hrun : castPrimitive state host te srcTy inval dst others =
        dst.writeUint state.target (TypeInfo.forPrimitive state.target te).bits (U128.ofInt z) := by
      have hread := readSint_of_holdsValue hsi hty h
      rcases hti.kind with hk | hk <;>
        simp only [castPrimitive, hinfo, hk, hty, hread, bind, Except.bind, S128.inner_ofInt]
    rw [hrun, writes_ofInt_iff hti hroom]
    exact iff_of_true rfl fun h1 => absurd h1 (not_mem_of_signed hsi hty).2

/-- What is written as a float. -/
theorem nearest_writeFloat_iff {f : Rounding.Format} {bits : ℕ} {w : BitVec 64} (hbits : bits = 32 ∨ bits = 64)
    (hw : w.toNat < 2 ^ bits) (hroom : dst.Room (bits / 8)) :
    (∃ w', f.IsNearestInt z w' ∧ ValueRef.Writes host dst (bits / 8) w' (dst.writeFloat host bits w)) ↔
      f.IsNearestInt z w.toNat := by
  have hrun : dst.writeFloat host bits w = dst.writeUint host bits ⟨w, 0⟩ := by
    rcases hbits with rfl | rfl <;> rfl
  have hwrites (w' : ℕ) : ValueRef.Writes host dst (bits / 8) w' (dst.writeFloat host bits w) ↔ w.toNat = w' := by
    have h8 : 8 * (bits / 8) = bits := by omega
    rw [hrun, ValueRef.writes_writeUint_iff (by omega) (by omega) hroom, U128.toNat_low, h8, Nat.mod_eq_of_lt hw]
  simp only [hwrites]
  constructor
  · rintro ⟨w', hnear, rfl⟩
    exact hnear
  · exact fun h => ⟨_, h, rfl⟩

/-- A signed number that is converted without its sign. -/
theorem nearest_unsigned_iff {f : Rounding.Format} {conv : S128 → ℕ}
    (hconv : ∀ v, f.IsNearestInt v.toInt (conv v) ↔ v.toInt ≠ -2 ^ 64) (hti : ti.Integer) (hty : ti.ty = .signed)
    (hz : ti.Fits z) :
    f.IsNearestInt z (conv (S128.ofInt (z % 2 ^ ti.bits))) ↔ 0 ≤ z ∨ ti.bits = 128 ∧ z ≠ -2 ^ 64 := by
  rw [TypeInfo.Fits, if_pos hty] at hz
  rcases hti.le with hle | h128
  · have hpos : (0 : ℤ) < 2 ^ ti.bits := by positivity
    have hpow : (2 : ℤ) ^ ti.bits ≤ 2 ^ 64 := pow_le_pow_right₀ (by norm_num) hle
    have hmod0 := Int.emod_nonneg z hpos.ne'
    have hmodlt := Int.emod_lt_of_pos z hpos
    have hint : (S128.ofInt (z % 2 ^ ti.bits)).toInt = z % 2 ^ ti.bits :=
      S128.toInt_ofInt_of_mem ⟨by omega, by omega⟩
    have hnear := (hconv (S128.ofInt (z % 2 ^ ti.bits))).mpr (by omega)
    rw [hint] at hnear
    have hne : ti.bits ≠ 128 := by omega
    by_cases h0 : 0 ≤ z
    · have hhalf : (2 : ℤ) ^ (ti.bits - 1) ≤ 2 ^ ti.bits := pow_le_pow_right₀ (by norm_num) (Nat.sub_le _ _)
      rw [Int.emod_eq_of_lt h0 (by omega)] at hnear ⊢
      exact iff_of_true hnear (.inl h0)
    · have hfalse : ¬(0 ≤ z ∨ ti.bits = 128 ∧ z ≠ -2 ^ 64) := fun h => h.elim h0 fun h => hne h.1
      refine iff_of_false (fun h => ?_) hfalse
      have hneg := hnear.sign.mpr (h.sign.mp (not_le.mp h0))
      omega
  · rw [h128] at hz ⊢
    have hv : S128.ofInt (z % 2 ^ 128) = S128.ofInt z :=
      S128.ofInt_eq_iff.mpr (by rw [← neg_sub, Int.dvd_neg]; exact Int.dvd_self_sub_emod)
    have hint : (S128.ofInt z).toInt = z := S128.toInt_ofInt_of_mem hz
    have hnear := hconv (S128.ofInt z)
    rw [hint] at hnear
    rw [hv, hnear]
    omega

section Patterns

variable {bits : ℕ} (hbits : bits = 32 ∨ bits = 64)
include hbits

/-- The pattern that is chosen by the width of the target. -/
theorem toNat_pattern (a : BitVec 32) (b : BitVec 64) :
    (if bits = 32 then a.setWidth 64 else b).toNat = (if bits = 32 then a.toNat else b.toNat) ∧
      (if bits = 32 then a.setWidth 64 else b).toNat < 2 ^ bits := by
  have ha := a.isLt
  have hb := b.isLt
  have hwide : (a.setWidth 64).toNat = a.toNat := by
    rw [BitVec.toNat_setWidth, Nat.mod_eq_of_lt (by omega)]
  rcases hbits with rfl | rfl
  · exact ⟨hwide, hwide ▸ ha⟩
  · exact ⟨rfl, hb⟩

theorem unsigned_pattern (u : U128) :
    (floatFormat bits).IsNearestInt u.toNat (if bits = 32 then u.toFloat.setWidth 64 else u.toDouble).toNat := by
  rw [(toNat_pattern hbits _ _).1]
  rcases hbits with rfl | rfl
  · exact toFloat_isNearestInt u
  · exact toDouble_isNearestInt u

theorem signed_pattern_iff (v : S128) :
    (floatFormat bits).IsNearestInt v.toInt (if bits = 32 then v.toFloat.setWidth 64 else v.toDouble).toNat ↔
      v.toInt ≠ -2 ^ 64 := by
  rw [(toNat_pattern hbits _ _).1]
  rcases hbits with rfl | rfl
  · exact toFloat_isNearestInt_iff v
  · exact toDouble_isNearestInt_iff v

end Patterns

theorem bits_eq_iff (target : Target) (hty : (TypeInfo.forPrimitive target t).ty = .signed) :
    (TypeInfo.forPrimitive target t).bits = 128 ↔ t = .i128 := by
  have hle := target.pointerBits_le
  cases t
  case isize => exact iff_of_false (show target.pointerBits ≠ 128 by omega) (by decide)
  case i8 | i16 | i32 | i64 | i128 => simp [TypeInfo.forPrimitive]
  all_goals cases hty

/-- A cast of an integer to a float type. -/
theorem cast_float_iff (hsrc : state.asPrimitive srcTy = some t) (ht : t ∉ [.f32, .f64, .bool, .char, .str])
    (hte : te = .f32 ∨ te = .f64) (h : HoldsValue state.target t inval z)
    (hroom : dst.Room ((TypeInfo.forPrimitive state.target te).bits / 8)) :
    CastExact state.target host te z dst (castPrimitive state host te srcTy inval dst others) ↔
      CastCondition state.target te t z := by
  have hsi := TypeInfo.integer_forPrimitive state.target ht
  have hinfo := typeInfo_eq hsrc rfl
  have ht' : t ∉ [.f32, .f64, .str] := by
    intro hmem
    apply ht
    simp only [List.mem_cons] at hmem ⊢
    tauto
  have hfloat : (TypeInfo.forPrimitive state.target te).ty = .float := by rcases hte with rfl | rfl <;> rfl
  have hbits : (TypeInfo.forPrimitive state.target te).bits = 32 ∨
      (TypeInfo.forPrimitive state.target te).bits = 64 := by rcases hte with rfl | rfl <;> simp [TypeInfo.forPrimitive]
  simp only [CastExact, CastCondition, if_pos hfloat]
  rcases kind_of_source ht' state.target with hty | ⟨hty, -⟩
  · have hread := readUint_of_holdsValue ht' hty h
    obtain ⟨h0, hlt⟩ := isValue_unsigned hty h.isValue
    have hle : (2 : ℤ) ^ (8 * size state.target.toTarget t) ≤ 2 ^ 128 :=
      pow_le_pow_right₀ (by norm_num) (by have := (size_pos_le state.target ht').2; omega)
    have hu : ((U128.ofInt z).toNat : ℤ) = z := by
      rw [S128.toNat_ofInt, Int.emod_eq_of_lt h0 (hlt.trans_le hle), Int.toNat_of_nonneg h0]
    have hchar : t ≠ .char := fun hc => ht (by simp [hc])
    rw [if_neg (fun hc => hchar hc.1)] at hread
    simp only [castPrimitive, hinfo, hfloat, hty, hread, bind, Except.bind]
    rw [nearest_writeFloat_iff hbits (toNat_pattern hbits _ _).2 hroom]
    have hnear := unsigned_pattern hbits (U128.ofInt z)
    rw [hu] at hnear
    exact iff_of_true hnear (.inl h0)
  · have hread := readUint_of_signed hsi hty h
    simp only [castPrimitive, hinfo, hfloat, hty, hread, bind, Except.bind]
    rw [nearest_writeFloat_iff hbits (toNat_pattern hbits _ _).2 hroom, ← bits_eq_iff state.target hty]
    exact nearest_unsigned_iff (signed_pattern_iff hbits) hsi hty ((isValue_signed hsi hty).mp h.isValue)

end Casts

section Switches

variable {T P : Type} {state : CallStackEntry T P} {t : CoreType} {ty : T} {lit : ValueRef} {x defTarget : ℕ}
  {vals : List UInt64} {targets : List ℕ}

theorem matchesValue_eq {n : ℕ} (hn : n < 2 ^ 128) (val : UInt64) :
    matchesValue (U128.ofInt n) val = decide (val.toNat % 2 ^ 32 = n) := by
  have hval : val.toNat % 2 ^ 32 < 2 ^ 128 := (Nat.mod_lt _ (by norm_num)).trans (by norm_num)
  rw [matchesValue, decide_eq_decide, U128.cmp_eq, ← S128.ofNat_eq_ofInt, U128.toNat_ofNat, U128.toNat_ofNat,
    Nat.mod_eq_of_lt hn, Nat.mod_eq_of_lt hval, Nat.compare_eq_eq]
  exact eq_comm

/-- The block found in the list. -/
theorem switchValue_of_read {n : ℕ} (hn : n < 2 ^ 128) (hlen : targets.length = vals.length)
    (hread : lit.readUint state.target ((state.typeInfo ty).bits / 8) = .ok (U128.ofInt n)) :
    switchValue state ty lit (.unsigned vals) targets defTarget =
      .ok (chosenTarget (vals.map fun v => v.toNat % 2 ^ 32) targets defTarget n) := by
  have hidx : targetIdx (U128.ofInt n) vals = (vals.map fun v => v.toNat % 2 ^ 32).findIdx? (· = n) := by
    rw [targetIdx, List.findIdx?_map]
    congr 1
    funext val
    exact matchesValue_eq hn val
  simp only [switchValue, hread, bind, Except.bind, hidx, chosenTarget]
  cases hfind : (vals.map fun v => v.toNat % 2 ^ 32).findIdx? (· = n) with
  | none => rfl
  | some i =>
    have hi : i < targets.length := by
      have := (List.findIdx?_eq_some_iff_getElem.mp hfind).1
      rwa [List.length_map, ← hlen] at this
    simp [List.getElem?_eq_getElem hi]

theorem switchBytes_le (target : Target) (ht : (TypeInfo.forPrimitive target t).ty = .unsigned) (hb : t ≠ .bool) :
    0 < switchBytes target t ∧ switchBytes target t ≤ size target.toTarget t := by
  have hge := target.le_pointerBits
  have hle := target.pointerBits_le
  cases t
  case bool => exact absurd rfl hb
  case usize =>
    simp only [switchBytes, TypeInfo.forPrimitive, size]
    omega
  case char | u8 | u16 | u32 | u64 | u128 => simp [switchBytes, TypeInfo.forPrimitive, size]
  all_goals cases ht

/-- A switch on an unsigned scrutinee. -/
theorem switch_iff (hty : state.asPrimitive ty = some t) (ht : (TypeInfo.forPrimitive state.target t).ty = .unsigned)
    (h : HoldsValue state.target t lit x) (hlen : targets.length = vals.length) :
    switchValue state ty lit (.unsigned vals) targets defTarget =
        .ok (chosenTarget (vals.map UInt64.toNat) targets defTarget x) ↔
      SwitchCondition state.target t vals targets defTarget x := by
  have hinfo := typeInfo_eq hty rfl
  rw [SwitchCondition]
  by_cases hb : t = .bool
  · refine iff_of_false ?_ fun hc => hc.1 hb
    subst hb
    have hread : lit.readUint state.target ((state.typeInfo ty).bits / 8) = .error (.assertion "") := by
      simp [hinfo, TypeInfo.forPrimitive, ValueRef.readUint, ValueRef.extReadBytes, bind, Except.bind]
    simp only [switchValue, hread, bind, Except.bind]
    exact fun hc => by cases hc
  · have hmem : t ∉ [.f32, .f64, .str] := by
      intro hmem
      simp only [List.mem_cons, List.not_mem_nil, or_false] at hmem
      rcases hmem with rfl | rfl | rfl <;> cases ht
    obtain ⟨hpos, hle⟩ := switchBytes_le state.target ht hb
    have hsize := (size_pos_le state.target hmem).2
    obtain ⟨h0, hlt⟩ := isValue_unsigned ht h.isValue
    have hholds := h.holds
    rw [Int.emod_eq_of_lt h0 hlt, Int.toNat_natCast] at hholds
    have hseen := holds_take hle hholds
    have hn : seen state.target t x < 2 ^ 128 := hseen.lt.trans_le (Nat.pow_le_pow_right two_pos (by omega))
    have hread := @ValueRef.readUint_of_holds _ _ ((TypeInfo.forPrimitive state.target t).bits / 8) _ _ rfl
      ⟨hpos, hle.trans hsize⟩ hseen
    rw [← hinfo] at hread
    rw [switchValue_of_read hn hlen hread]
    simp [hb]

/-- A scrutinee of one byte is seen whole. -/
theorem switchCondition_byte (hx : x < 2 ^ 8) (hvals : ∀ v ∈ vals, v.toNat < 2 ^ 32)
    (ht : t ≠ .bool) (hpos : 0 < switchBytes state.target t)
    (hbe : state.target.bigEndian = true → size state.target.toTarget t = switchBytes state.target t) :
    SwitchCondition state.target t vals targets defTarget x := by
  have hmap : (vals.map fun v => v.toNat % 2 ^ 32) = vals.map UInt64.toNat :=
    List.map_congr_left fun v hv => Nat.mod_eq_of_lt (hvals v hv)
  have hseen : seen state.target t x = x := by
    rw [seen]
    split
    case isTrue h => rw [hbe h, Nat.sub_self, mul_zero, pow_zero, Nat.div_one]
    case isFalse h =>
      have hle : 2 ^ 8 ≤ 2 ^ (8 * switchBytes state.target t) := Nat.pow_le_pow_right two_pos (by omega)
      exact Nat.mod_eq_of_lt (hx.trans_le hle)
  exact ⟨ht, by rw [hmap, hseen]⟩

end Switches

/-- The casts and the switches are exact if and only if their conditions hold. -/
theorem cast_switch_exact_iff {T P : Type} (state : CallStackEntry T P) (host : Target) :
    (∀ {te t : CoreType} {srcTy : T} {inval dst : ValueRef} {z : ℤ} (others : Except Failure ValueRef),
      state.asPrimitive srcTy = some t → t ∉ [.f32, .f64, .str] → te ∉ [.bool, .char, .str] →
      (te ∈ [.f32, .f64] → t ∉ [.bool, .char]) → HoldsValue state.target t inval z →
      dst.Room ((TypeInfo.forPrimitive state.target te).bits / 8) →
      (CastExact state.target host te z dst (castPrimitive state host te srcTy inval dst others) ↔
        CastCondition state.target te t z)) ∧
    ∀ {t : CoreType} {ty : T} {lit : ValueRef} {x defTarget : ℕ} {vals : List UInt64} {targets : List ℕ},
      state.asPrimitive ty = some t → (TypeInfo.forPrimitive state.target t).ty = .unsigned →
      HoldsValue state.target t lit x → targets.length = vals.length →
      (switchValue state ty lit (.unsigned vals) targets defTarget =
          .ok (chosenTarget (vals.map UInt64.toNat) targets defTarget x) ↔
        SwitchCondition state.target t vals targets defTarget x) := by
  constructor
  · intro te t srcTy inval dst z others hsrc ht hte hboth h hroom
    by_cases hfloat : te = .f32 ∨ te = .f64
    · have hint := hboth (by simpa using hfloat)
      apply cast_float_iff hsrc _ hfloat h hroom
      simp only [List.mem_cons, List.not_mem_nil, or_false] at ht hint ⊢
      tauto
    · have hti : (TypeInfo.forPrimitive state.target te).Integer := by
        apply TypeInfo.integer_forPrimitive
        simp only [List.mem_cons, List.not_mem_nil, or_false] at hte ⊢
        tauto
      exact cast_int_iff hsrc ht hti h hroom
  · intro t ty lit x defTarget vals targets hty ht h hlen
    exact switch_iff hty ht h hlen

section Examples

/-- The value `-2` of `i8` is extended to `i16`. -/
theorem cast_i8_i16_exact : CastExact plainState.target littleTarget .i16 (-2) ⟨[none, none], true, 0⟩
    (castPrimitive plainState littleTarget .i16 .i8 ⟨[some 254], false, 0⟩ ⟨[none, none], true, 0⟩
      (.error .defer)) := by
  apply ((cast_switch_exact_iff plainState littleTarget).1 _ rfl _ _ _ _ _).mpr
  · exact fun h => by cases h
  · decide
  · decide
  · decide
  · exact ⟨show (-2 ^ 7 : ℤ) ≤ -2 ∧ (-2 : ℤ) < 2 ^ 7 by decide, [254], rfl, rfl, rfl⟩
  · exact ⟨rfl, le_rfl⟩

/-- The scrutinee 257 of a switch on `u16` is taken for the listed value 1. -/
theorem switch_u16_inexact : switchValue plainState .u16 ⟨[some 1, some 1], false, 0⟩ (.unsigned [1]) [7] 9 ≠
    .ok (chosenTarget ([1].map UInt64.toNat) [7] 9 257) := by
  decide

end Examples

end Mrustc.ConstEval
