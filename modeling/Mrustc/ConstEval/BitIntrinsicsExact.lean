import Mrustc.ConstEval.BitIntrinsics

/-! # When the bit intrinsics are exact

The arms are compared bit by bit with the definitions. `bitreverse` shifts its result once too often, and
rotations leave every value of 64 bits as it is.
-/

namespace Mrustc.ConstEval

open Hir (CoreType)
open Mir (Param Constant)
open Int128

/-! ## Bits of the words -/

section Bits

variable {w : ℕ} {val rv : U128} {i n : ℕ}

theorem getLsbD_byteSwap (x : BitVec w) (h : i < w) :
    (byteSwap x).getLsbD i = x.getLsbD (w - 8 - 8 * (i / 8) + i % 8) := by
  rw [byteSwap, BitVec.getLsbD_ofFnLE, dif_pos h]

theorem byteSwap_byteSwap (h : 8 ∣ w) (x : BitVec w) : byteSwap (byteSwap x) = x := by
  obtain ⟨n, rfl⟩ := h
  apply BitVec.eq_of_getLsbD_eq
  intro i hi
  rw [getLsbD_byteSwap _ hi, getLsbD_byteSwap _ (by omega)]
  congr 1
  omega

theorem bswap16_eq (v : BitVec 16) : bswap16 v = byteSwap v := by
  apply BitVec.eq_of_getLsbD_eq
  intro i hi
  rw [getLsbD_byteSwap _ hi, bswap16, BitVec.getLsbD_or, BitVec.getLsbD_ushiftRight, BitVec.getLsbD_shiftLeft]
  by_cases h : i < 8
  · simp only [h, hi, decide_true, Bool.not_true, Bool.and_false, Bool.false_and, Bool.or_false]
    congr 1
    omega
  · have hge : v.getLsbD (8 + i) = false := BitVec.getLsbD_of_ge _ _ (by omega)
    simp only [h, hi, hge, decide_true, decide_false, Bool.not_false, Bool.true_and, Bool.false_or]
    congr 1
    omega

/-- Two halves swapped and put in the opposite order are the whole swapped. -/
theorem byteSwap_halves {k : ℕ} (h : 8 ∣ k) (v : BitVec (2 * k)) :
    (byteSwap ((v >>> k).setWidth k)).setWidth (2 * k) |||
      ((byteSwap (v.setWidth k)).setWidth (2 * k) <<< k) = byteSwap v := by
  obtain ⟨n, rfl⟩ := h
  apply BitVec.eq_of_getLsbD_eq
  intro i hi
  rw [getLsbD_byteSwap _ hi, BitVec.getLsbD_or, BitVec.getLsbD_shiftLeft, BitVec.getLsbD_setWidth,
    BitVec.getLsbD_setWidth]
  by_cases h : i < 8 * n
  · rw [getLsbD_byteSwap _ h, BitVec.getLsbD_setWidth, BitVec.getLsbD_ushiftRight]
    have hlt : 8 * n - 8 - 8 * (i / 8) + i % 8 < 8 * n := by omega
    simp only [h, hi, hlt, decide_true, Bool.not_true, Bool.and_false, Bool.false_and, Bool.or_false,
      Bool.true_and]
    congr 1
    omega
  · have hge : (byteSwap ((v >>> (8 * n)).setWidth (8 * n))).getLsbD i = false :=
      BitVec.getLsbD_of_ge _ _ (by omega)
    have hlt : i - 8 * n < 2 * (8 * n) := by omega
    have hlt' : 8 * n - 8 - 8 * ((i - 8 * n) / 8) + (i - 8 * n) % 8 < 8 * n := by omega
    rw [hge, getLsbD_byteSwap _ (by omega), BitVec.getLsbD_setWidth]
    simp only [h, hi, hlt, hlt', decide_true, decide_false, Bool.not_false, Bool.and_false, Bool.false_or,
      Bool.true_and]
    congr 1
    omega

theorem bswap32_eq (v : BitVec 32) : bswap32 v = byteSwap v := by
  rw [bswap32, bswap16_eq, bswap16_eq]
  exact byteSwap_halves (k := 16) (by norm_num) v

theorem bswap64_eq (v : BitVec 64) : bswap64 v = byteSwap v := by
  rw [bswap64, bswap32_eq, bswap32_eq]
  exact byteSwap_halves (k := 32) (by norm_num) v

theorem bits_bswap128 (v : U128) : (bswap128 v).bits = byteSwap v.bits := by
  apply BitVec.eq_of_getLsbD_eq
  intro i hi
  have hhi : (v.shr 64).truncateU64 = v.hi := by simp [U128.shr, U128.truncateU64]
  rw [getLsbD_byteSwap _ hi, U128.getLsbD_bits, U128.getLsbD_bits, bswap128, bswap64_eq, bswap64_eq, hhi]
  by_cases h : i < 64
  · rw [if_pos h, if_neg (by omega), getLsbD_byteSwap _ h]
    congr 1
    omega
  · rw [if_neg h, if_pos (by omega), getLsbD_byteSwap _ (by omega), U128.truncateU64]
    congr 1
    omega

theorem and_one_cmp (val : U128) :
    (val.and ⟨1, 0⟩).cmp ⟨0, 0⟩ = .eq ↔ val.bits.getLsbD 0 = false := by
  have hone : (⟨1, 0⟩ : U128).bits = 1#128 := by decide
  have hand : (val.and ⟨1, 0⟩).toNat = val.toNat % 2 := by
    rw [← U128.toNat_bits, U128.bits_and, hone, BitVec.toNat_and, U128.toNat_bits]
    exact Nat.and_one_is_mod val.toNat
  rw [U128.cmp_eq, compare_eq_iff_eq, hand, U128.toNat_zero, BitVec.getLsbD, U128.toNat_bits,
    Nat.testBit_zero, decide_eq_false_iff_not]
  omega

theorem bits_or_one (val : U128) : (val.or ⟨1, 0⟩).bits.getLsbD i = (val.bits.getLsbD i || decide (i = 0)) := by
  have hone : (⟨1, 0⟩ : U128).bits = 1#128 := by decide
  rw [U128.bits_or, BitVec.getLsbD_or, hone, BitVec.getLsbD_one]
  simp

/-- The loop of `bitreverse` puts the lowest bit at position `n`. -/
theorem getLsbD_bitreverseLoop (hrv : rv.bits.getLsbD 0 = false) (hi : i < 128) :
    (bitreverseLoop n val rv).bits.getLsbD i =
      if i = 0 then false else if i ≤ n then val.bits.getLsbD (n - i) else rv.bits.getLsbD (i - n) := by
  induction n generalizing val rv with
  | zero =>
    rw [bitreverseLoop]
    by_cases h : i = 0
    · rw [if_pos h, h, hrv]
    · rw [if_neg h, if_neg (by omega)]
      rfl
  | succ n ih =>
    have hset : ∀ k, (if (val.and ⟨1, 0⟩).cmp ⟨0, 0⟩ ≠ .eq then rv.or ⟨1, 0⟩ else rv).bits.getLsbD k =
        if k = 0 then val.bits.getLsbD 0 else rv.bits.getLsbD k := by
      intro k
      have hcmp := and_one_cmp val
      cases h0 : val.bits.getLsbD 0
      · rw [if_neg (not_not.mpr (hcmp.mpr h0))]
        by_cases hk : k = 0
        · rw [if_pos hk, hk, hrv]
        · rw [if_neg hk]
      · rw [if_pos (fun h => Bool.noConfusion (h0.symm.trans (hcmp.mp h))), bits_or_one]
        by_cases hk : k = 0 <;> simp [hk]
    have hshl : ∀ k, k < 128 →
        ((if (val.and ⟨1, 0⟩).cmp ⟨0, 0⟩ ≠ .eq then rv.or ⟨1, 0⟩ else rv).shl 1).bits.getLsbD k =
          if k = 0 then false else if k = 1 then val.bits.getLsbD 0 else rv.bits.getLsbD (k - 1) := by
      intro k hk
      rw [U128.bits_shl, BitVec.getLsbD_shiftLeft, hset]
      grind
    rw [bitreverseLoop, ih (hshl 0 (by norm_num)), U128.bits_shr, BitVec.getLsbD_ushiftRight]
    by_cases h0 : i = 0
    · rw [if_pos h0, if_pos h0]
    rw [if_neg h0, if_neg h0]
    by_cases hn : i ≤ n
    · rw [if_pos hn, if_pos (by omega)]
      congr 1
      omega
    · rw [if_neg hn, hshl _ (by omega), if_neg (by omega)]
      by_cases hn1 : i = n + 1
      · rw [if_pos (by omega), if_pos hn1.le, hn1, Nat.sub_self]
      · rw [if_neg (by omega), if_neg (by omega)]
        congr 1

/-- The loop of `cttz` counts the zeros below the lowest one. -/
theorem cttzLoop_eq {k : ℕ} (hlow : ∀ i < k, val.bits.getLsbD i = false) (hk : val.bits.getLsbD k = true) :
    cttzLoop val n = n + k := by
  have hne : val.toNat ≠ 0 := by
    intro h0
    rw [BitVec.getLsbD, U128.toNat_bits, h0, Nat.zero_testBit] at hk
    exact Bool.noConfusion hk
  induction k generalizing val n with
  | zero =>
    rw [cttzLoop, if_neg]
    · rfl
    · rintro ⟨-, h⟩
      exact Bool.noConfusion (hk.symm.trans ((and_one_cmp val).mp h))
  | succ k ih =>
    have hshr : ∀ i, (val.shr 1).bits.getLsbD i = val.bits.getLsbD (1 + i) := by
      intro i
      rw [U128.bits_shr, BitVec.getLsbD_ushiftRight]
    have hne' : (val.shr 1).toNat ≠ 0 := by
      intro h0
      have hk' := (hshr k).trans ((congrArg val.bits.getLsbD (Nat.add_comm 1 k)).trans hk)
      rw [BitVec.getLsbD, U128.toNat_bits, h0, Nat.zero_testBit] at hk'
      exact Bool.noConfusion hk'
    rw [cttzLoop, if_pos ⟨hne, (and_one_cmp val).mpr (hlow 0 k.succ_pos)⟩, ih]
    · omega
    · intro i hi
      rw [hshr]
      exact hlow _ (by omega)
    · rw [hshr, Nat.add_comm]
      exact hk
    · exact hne'

/-- The loop of `ctlz` counts the binary digits. -/
theorem ctlzLoop_eq {k : ℕ} (hlt : val.toNat < 2 ^ k) (hle : 2 ^ k ≤ 2 * val.toNat + 1) :
    ctlzLoop val n = n + k := by
  induction k generalizing val n with
  | zero =>
    rw [ctlzLoop, if_neg (by simpa using hlt)]
    rfl
  | succ k ih =>
    rw [pow_succ] at hlt hle
    have hpos := Nat.two_pow_pos k
    rw [ctlzLoop, if_pos (by omega), ih]
    · omega
    · rw [toNat_shr]
      omega
    · rw [toNat_shr]
      omega

theorem cpop_eq_count (x : BitVec w) : x.cpop.toNat = Nat.count (fun i => x.getLsbD i = true) w := by
  have hrec : ∀ n, x.cpopNatRec n 0 = Nat.count (fun i => x.getLsbD i = true) n := by
    intro n
    induction n with
    | zero => rfl
    | succ n ih =>
      rw [BitVec.cpopNatRec_succ, BitVec.cpopNatRec_eq, ih, Nat.count_succ]
      cases x.getLsbD n <;> simp
  rw [BitVec.cpop, BitVec.toNat_ofNat, hrec, Nat.mod_eq_of_lt (lt_of_le_of_lt (Nat.count_le _) w.lt_two_pow_self)]

theorem count_congr {p q : ℕ → Prop} [DecidablePred p] [DecidablePred q] (h : ∀ k < n, p k ↔ q k) :
    Nat.count p n = Nat.count q n :=
  le_antisymm (Nat.count_mono_left fun k hk => (h k hk).mp) (Nat.count_mono_left fun k hk => (h k hk).mpr)

/-- `__builtin_popcountll` on both words -/
theorem popcount_eq (val : U128) :
    val.lo.cpop.toNat + val.hi.cpop.toNat = Nat.count (fun i => val.bits.getLsbD i = true) (64 + 64) := by
  rw [cpop_eq_count, cpop_eq_count, Nat.count_add]
  congr 1
  · apply count_congr
    intro k hk
    rw [U128.getLsbD_bits, if_pos hk]
  · apply count_congr
    intro k hk
    rw [U128.getLsbD_bits, if_neg (by omega), Nat.add_sub_cancel_left]

/-- A value whose bits from `w` on are all equal. -/
theorem popcount_of_extends {x : BitVec w} {b : Bool} (hw : w ≤ 128)
    (hval : ∀ i < 128, val.bits.getLsbD i = if i < w then x.getLsbD i else b) :
    val.lo.cpop.toNat + val.hi.cpop.toNat = x.cpop.toNat + if b then 128 - w else 0 := by
  have hsum : 64 + 64 = w + (128 - w) := by omega
  rw [popcount_eq, hsum, Nat.count_add, cpop_eq_count]
  congr 1
  · apply count_congr
    intro k hk
    rw [hval k (by omega), if_pos hk]
  · have hcongr : Nat.count (fun k => val.bits.getLsbD (w + k) = true) (128 - w) =
        Nat.count (fun _ => b = true) (128 - w) := by
      apply count_congr
      intro k hk
      rw [hval _ (by omega), if_neg (by omega)]
    rw [hcongr]
    cases b <;> simp

end Bits

section Zeros

variable {w : ℕ}

theorem clz_toNat_le (x : BitVec w) : x.clz.toNat ≤ w := by
  have h := BitVec.le_def.mp (BitVec.clz_le (x := x))
  rw [BitVec.natCast_eq_ofNat, BitVec.toNat_ofNat, Nat.mod_two_pow_self] at h
  exact h

theorem two_pow_sub_clz_le (hw : 0 < w) (x : BitVec w) : 2 ^ (w - x.clz.toNat) ≤ 2 * x.toNat + 1 := by
  by_cases h0 : x = 0
  · have hclz : x.clz.toNat = w := by
      rw [BitVec.clz_eq_iff_eq_zero.mpr h0, BitVec.natCast_eq_ofNat, BitVec.toNat_ofNat, Nat.mod_two_pow_self]
    rw [hclz, Nat.sub_self]
    omega
  · have hle := BitVec.two_pow_sub_clz_le_toNat_of_ne_zero hw h0
    have hlt := BitVec.lt_def.mp (BitVec.clz_lt_iff_ne_zero.mpr h0)
    rw [BitVec.natCast_eq_ofNat, BitVec.toNat_ofNat, Nat.mod_two_pow_self] at hlt
    obtain ⟨k, hk⟩ := Nat.exists_eq_succ_of_ne_zero (Nat.sub_ne_zero_of_lt hlt)
    rw [Nat.sub_right_comm, hk, Nat.succ_sub_one] at hle
    rw [hk, pow_succ]
    omega

theorem ctz_of_eq_zero {x : BitVec w} (h : x = 0) : x.ctz.toNat = w := by
  rw [BitVec.ctz_eq_reverse_clz, BitVec.clz_eq_iff_eq_zero.mpr (BitVec.reverse_eq_zero_iff.mpr h),
    BitVec.natCast_eq_ofNat, BitVec.toNat_ofNat, Nat.mod_two_pow_self]

end Zeros

/-! ## Operands as bit vectors -/

/-- The integer that the bits stand for in the type. -/
def TypeInfo.value (ti : TypeInfo) {w : ℕ} (x : BitVec w) : ℤ := if ti.ty = .signed then x.toInt else x.toNat

/-- The operand is a negative constant, which is read with its sign. -/
def signExtended {P : Type} {w : ℕ} (p : Param P ValueRef) (x : BitVec w) : Bool :=
  match p with
  | .constant (.int _ _) => x.msb
  | _ => false

section Operands

variable {T P : Type} {state : CallStackEntry T P} {ti : TypeInfo} {p : Param P ValueRef} {x : BitVec ti.bits}

theorem value_emod (x : BitVec ti.bits) : ti.value x % 2 ^ ti.bits = x.toNat := by
  have hlt : (x.toNat : ℤ) < 2 ^ ti.bits := by exact_mod_cast x.isLt
  have hcast : (2 ^ ti.bits : ℤ) = ((2 ^ ti.bits : ℕ) : ℤ) := by push_cast; rfl
  rw [TypeInfo.value]
  split
  · rw [BitVec.toInt_eq_toNat_bmod, hcast, Int.bmod_emod, ← hcast]
    exact Int.emod_eq_of_lt (by positivity) hlt
  · exact Int.emod_eq_of_lt (by positivity) hlt

/-- The bits that `read_param_uint` gives. -/
theorem readParamUint_bits (hti : ti.Integer) (h : Denotes state ti p (ti.value x)) :
    ∃ u, state.readParamUint ti.bits p = .ok u ∧
      ∀ i < 128, u.bits.getLsbD i = if i < ti.bits then x.getLsbD i else signExtended p x := by
  refine ⟨_, readParamUint_of_denotes hti h, ?_⟩
  intro i hi
  rw [S128.bits_ofInt]
  have hzero : (BitVec.ofInt 128 (x.toNat : ℤ)).getLsbD i = if i < ti.bits then x.getLsbD i else false := by
    rw [BitVec.ofInt_natCast, BitVec.getLsbD_ofNat]
    simp only [hi, decide_true, Bool.true_and]
    split
    · rfl
    · exact x.getLsbD_of_ge i (by omega)
  have hread : BitVec.ofInt 128 (ti.value x % 2 ^ ti.bits) = BitVec.ofInt 128 (x.toNat : ℤ) := by rw [value_emod]
  generalize hz : ti.value x = z at h hread
  cases h with
  | int hfits hty =>
    have hsigned : z = x.toInt := by rw [← hz, TypeInfo.value, if_pos hty]
    rw [asUint, hsigned, signExtended, ← BitVec.signExtend, BitVec.getLsbD_signExtend]
    simp only [hi, decide_true, Bool.true_and]
  | lvalue | uint | const | generic => exact (congrArg (·.getLsbD i) hread).trans hzero

/-- What `write_uint` writes, as a bit vector. -/
theorem writes_bits_iff {dst : ValueRef} {u : U128} (hti : ti.Integer) (hroom : dst.Room (ti.bits / 8))
    (y : BitVec ti.bits) :
    ValueRef.Writes state.target dst (ti.bits / 8) y.toNat (dst.writeUint state.target ti.bits u) ↔
      ∀ i < ti.bits, u.bits.getLsbD i = y.getLsbD i := by
  rw [ValueRef.writes_writeUint_iff hti.bytes_eq ⟨hti.bytes_pos, hti.bytes_le⟩ hroom, hti.bits_eq,
    ← U128.toNat_bits, ← BitVec.toNat_setWidth, BitVec.toNat_inj]
  constructor
  · rintro rfl i hi
    rw [BitVec.getLsbD_setWidth]
    simp [hi]
  · intro h
    apply BitVec.eq_of_getLsbD_eq
    intro i hi
    rw [BitVec.getLsbD_setWidth, h i hi]
    simp [hi]

theorem signExtended_of_unsigned (hty : ti.ty = .unsigned) (h : Denotes state ti p (ti.value x)) :
    signExtended p x = false := by
  generalize ti.value x = z at h
  cases h with
  | int hfits hty' => exact absurd (hty.symm.trans hty') (by decide)
  | lvalue | uint | const | generic => rfl

theorem toNat_of_extends {w : ℕ} {x : BitVec w} {u : U128} (hw : w ≤ 128)
    (hu : ∀ i < 128, u.bits.getLsbD i = if i < w then x.getLsbD i else false) : u.toNat = x.toNat := by
  have hbits : u.bits = x.setWidth 128 := by
    apply BitVec.eq_of_getLsbD_eq
    intro i hi
    rw [hu i hi, BitVec.getLsbD_setWidth]
    simp only [hi, decide_true, Bool.true_and]
    split
    · rfl
    · exact (x.getLsbD_of_ge i (by omega)).symm
  rw [← U128.toNat_bits, hbits, BitVec.toNat_setWidth_of_le hw]

theorem value_fits (x : BitVec ti.bits) : ti.Fits (ti.value x) := by
  rw [TypeInfo.Fits, TypeInfo.value]
  split
  · exact ⟨x.le_toInt, x.toInt_lt⟩
  · exact ⟨Int.natCast_nonneg _, by exact_mod_cast x.isLt⟩

/-- A place that holds the bits is an operand with their value. -/
theorem denotes_of_holds {val : ValueRef}
    (h : val.Holds state.target (ti.bits / 8) x.toNat) : Denotes state ti (.lvalue val) (ti.value x) := by
  refine .lvalue (value_fits x) ?_
  rw [value_emod, Int.toNat_natCast]
  exact h

end Operands

/-! ## The conditions -/

/-- The bits that a rotation of a negative constant takes from beyond its width are ones. -/
def OnesBelow {w : ℕ} (x : BitVec w) (n : ℕ) : Prop := ∀ i < n, x.getLsbD i = true

/-- When an intrinsic does what its definition says: the operand `p` has the bits `x`, the type is `t`. -/
def BitIntrinsic.Condition {P : Type} (t : CoreType) (ti : TypeInfo) (p : Param P ValueRef) {w : ℕ} (x : BitVec w)
    (c : ℕ) : BitIntrinsic → Prop
  | .ctpop => signExtended p x = true → w = 128
  | .cttz | .ctlz => ti.ty = .unsigned
  | .bswap => t ≠ .usize ∧ t ≠ .isize
  | .bitreverse => x = 0
  | .rotateLeft =>
    if w = 64 then x.rotateLeft c = x
    else signExtended p x = true → w ≠ 128 → c ≠ 0 → OnesBelow x (w - c)
  | .rotateRight =>
    if w = 64 then x.rotateRight c = x else signExtended p x = true → w ≠ 128 → OnesBelow x c

section Arms

variable {T P : Type} {state : CallStackEntry T P} {ty : T} {t : CoreType} {dst : ValueRef} {ti : TypeInfo}
  {p : Param P ValueRef} {args : List (Param P ValueRef)} {x : BitVec ti.bits}

variable (hty : state.asPrimitive ty = some t) (hinfo : TypeInfo.forPrimitive state.target t = ti) (hti : ti.Integer)
  (hp : Denotes state ti p (ti.value x)) (hroom : dst.Room (ti.bits / 8))
include hty hinfo

theorem typeInfo_eq : state.typeInfo ty = ti := by rw [CallStackEntry.typeInfo, hty, ← hinfo]; rfl

include hti hp hroom

theorem ctpop_writes_iff :
    ValueRef.Writes state.target dst (ti.bits / 8) x.cpop.toNat (ctpop state ty dst (p :: args)) ↔
      (signExtended p x = true → ti.bits = 128) := by
  obtain ⟨u, hread, hu⟩ := readParamUint_bits hti hp
  have hcount := popcount_of_extends hti.le_bits hu
  have hrun : ctpop state ty dst (p :: args) =
      dst.writeUint state.target ti.bits (U128.ofNat (u.lo.cpop.toNat + u.hi.cpop.toNat)) := by
    simp [ctpop, hty, typeInfo_eq hty hinfo, argAt, hread, bind, Except.bind]
  have hle := hti.le_bits
  have hpow : 2 ^ 8 ≤ 2 ^ ti.bits := Nat.pow_le_pow_right two_pos (Nat.le_of_dvd hti.pos hti.dvd)
  have hcpop : x.cpop.toNat ≤ ti.bits := by
    rw [cpop_eq_count]
    exact Nat.count_le _
  have hlt := x.cpop.isLt
  rw [hrun, hcount, ValueRef.writes_writeUint_iff hti.bytes_eq ⟨hti.bytes_pos, hti.bytes_le⟩ hroom, hti.bits_eq,
    U128.toNat_ofNat]
  cases signExtended p x
  · simp only [Bool.false_eq_true, if_false, Nat.add_zero, IsEmpty.forall_iff, iff_true]
    rw [Nat.mod_eq_of_lt (by omega : x.cpop.toNat < 2 ^ 128), Nat.mod_eq_of_lt hlt]
  · simp only [if_true, true_imp_iff]
    rw [Nat.mod_eq_of_lt (by omega : x.cpop.toNat + (128 - ti.bits) < 2 ^ 128)]
    constructor
    · intro h
      by_contra hne
      have hdvd := (Nat.modEq_iff_dvd' (Nat.le_add_right x.cpop.toNat (128 - ti.bits))).mp
        (show x.cpop.toNat ≡ x.cpop.toNat + (128 - ti.bits) [MOD 2 ^ ti.bits] by
          rw [Nat.ModEq, h, Nat.mod_eq_of_lt hlt])
      have hle' := Nat.le_of_dvd (by omega) hdvd
      omega
    · intro h
      rw [Nat.sub_eq_zero_of_le h.ge, Nat.add_zero, Nat.mod_eq_of_lt hlt]

theorem cttz_writes_iff :
    ValueRef.Writes state.target dst (ti.bits / 8) x.ctz.toNat (cttz state ty dst (p :: args)) ↔
      ti.ty = .unsigned := by
  obtain ⟨u, hread, hu⟩ := readParamUint_bits hti hp
  by_cases hk : ti.ty = .unsigned
  · refine iff_of_true ?_ hk
    have hrun : cttz state ty dst (p :: args) = dst.writeUint state.target ti.bits
        (U128.ofNat (if u.cmp ⟨0, 0⟩ = .eq then ti.bits else cttzLoop u 0)) := by
      simp [cttz, hty, typeInfo_eq hty hinfo, argAt, hread, hk, bind, Except.bind]
    have hu := toNat_of_extends hti.le_bits (signExtended_of_unsigned hk hp ▸ hu)
    have hbit : ∀ i, u.bits.getLsbD i = x.getLsbD i := fun i => by
      rw [BitVec.getLsbD, U128.toNat_bits, hu, BitVec.getLsbD]
    have hrv : (if u.cmp ⟨0, 0⟩ = .eq then ti.bits else cttzLoop u 0) = x.ctz.toNat := by
      have hcmp : u.cmp ⟨0, 0⟩ = .eq ↔ x = 0 := by
        rw [U128.cmp_eq, compare_eq_iff_eq, hu, U128.toNat_zero, ← BitVec.toNat_inj]
        rfl
      by_cases h0 : x = 0
      · rw [if_pos (hcmp.mpr h0), ctz_of_eq_zero h0]
      · have hlow : ∀ i < x.ctz.toNat, u.bits.getLsbD i = false := by
          intro i hi
          rw [hbit, BitVec.getLsbD_false_of_lt_ctz hi]
        rw [if_neg (mt hcmp.mp h0),
          cttzLoop_eq hlow ((hbit _).trans (BitVec.getLsbD_true_ctz_of_ne_zero h0)), Nat.zero_add]
    rw [hrun, hrv, ValueRef.writes_writeUint_iff hti.bytes_eq ⟨hti.bytes_pos, hti.bytes_le⟩ hroom, hti.bits_eq,
      U128.toNat_ofNat, Nat.mod_mod_of_dvd _ (Nat.pow_dvd_pow 2 hti.le_bits), Nat.mod_eq_of_lt x.ctz.isLt]
  · refine iff_of_false ?_ hk
    rintro ⟨dst', hrun, -⟩
    simp [cttz, hty, typeInfo_eq hty hinfo, hk, bind, Except.bind] at hrun

theorem ctlz_writes_iff :
    ValueRef.Writes state.target dst (ti.bits / 8) x.clz.toNat (ctlz state ty dst (p :: args)) ↔
      ti.ty = .unsigned := by
  obtain ⟨u, hread, hu⟩ := readParamUint_bits hti hp
  by_cases hk : ti.ty = .unsigned
  · refine iff_of_true ?_ hk
    have hrun : ctlz state ty dst (p :: args) = dst.writeUint state.target ti.bits
        (U128.ofNat (BitVec.ofNat 32 ti.bits - BitVec.ofNat 32 (ctlzLoop u 0)).toNat) := by
      simp [ctlz, hty, typeInfo_eq hty hinfo, argAt, hread, hk, bind, Except.bind]
    have hu := toNat_of_extends hti.le_bits (signExtended_of_unsigned hk hp ▸ hu)
    have hclz : x.clz.toNat ≤ ti.bits := clz_toNat_le x
    have hle : 2 ^ (ti.bits - x.clz.toNat) ≤ 2 * u.toNat + 1 := hu ▸ two_pow_sub_clz_le hti.pos x
    have hrv : (BitVec.ofNat 32 ti.bits - BitVec.ofNat 32 (ctlzLoop u 0)).toNat = x.clz.toNat := by
      rw [ctlzLoop_eq (hu ▸ BitVec.toNat_lt_two_pow_sub_clz) hle]
      have hbits := hti.le_bits
      simp
      omega
    rw [hrun, hrv, ValueRef.writes_writeUint_iff hti.bytes_eq ⟨hti.bytes_pos, hti.bytes_le⟩ hroom, hti.bits_eq,
      U128.toNat_ofNat, Nat.mod_mod_of_dvd _ (Nat.pow_dvd_pow 2 hti.le_bits), Nat.mod_eq_of_lt x.clz.isLt]
  · refine iff_of_false ?_ hk
    rintro ⟨dst', hrun, -⟩
    simp [ctlz, hty, typeInfo_eq hty hinfo, hk, bind, Except.bind] at hrun

theorem bitreverse_writes_iff :
    ValueRef.Writes state.target dst (ti.bits / 8) x.reverse.toNat (bitreverse state ty dst (p :: args)) ↔
      x = 0 := by
  obtain ⟨u, hread, hu⟩ := readParamUint_bits hti hp
  have hle := hti.le_bits
  have hpos := hti.pos
  have hrun : bitreverse state ty dst (p :: args) =
      dst.writeUint state.target ti.bits (bitreverseLoop ti.bits u ⟨0, 0⟩) := by
    simp [bitreverse, hty, typeInfo_eq hty hinfo, argAt, hread, bind, Except.bind]
  have hloop : ∀ i < ti.bits, (bitreverseLoop ti.bits u ⟨0, 0⟩).bits.getLsbD i =
      if i = 0 then false else x.getLsbD (ti.bits - i) := by
    intro i hi
    rw [getLsbD_bitreverseLoop (by decide) (by omega)]
    by_cases h0 : i = 0
    · rw [if_pos h0, if_pos h0]
    · rw [if_neg h0, if_neg h0, if_pos hi.le, hu _ (by omega), if_pos (by omega)]
  have hrev : ∀ i < ti.bits, x.reverse.getLsbD i = x.getLsbD (ti.bits - 1 - i) := by
    intro i hi
    rw [BitVec.getLsbD_reverse, BitVec.getMsbD_eq_getLsbD]
    simp [hi]
  rw [hrun, writes_bits_iff hti hroom]
  constructor
  · intro h
    -- from the top bit down, each bit is the one above it
    have hall : ∀ i < ti.bits, x.getLsbD (ti.bits - 1 - i) = false := by
      intro i
      induction i with
      | zero =>
        intro hi
        rw [← hrev 0 hi, ← h 0 hi, hloop 0 hi, if_pos rfl]
      | succ i ih =>
        intro hi
        rw [← hrev _ hi, ← h _ hi, hloop _ hi, if_neg i.succ_ne_zero, Nat.sub_add_eq, Nat.sub_right_comm]
        exact ih (by omega)
    apply BitVec.eq_of_getLsbD_eq
    intro i hi
    have hbit := hall (ti.bits - 1 - i) (by omega)
    rw [show ti.bits - 1 - (ti.bits - 1 - i) = i by omega] at hbit
    simpa using hbit
  · rintro rfl i hi
    rw [hloop i hi, hrev i hi]
    simp

end Arms

section Swap

variable {w : ℕ} {x : BitVec w} {u : U128}

theorem truncate_of_extends {b : Bool} (hw : w ≤ 64)
    (hu : ∀ i < 128, u.bits.getLsbD i = if i < w then x.getLsbD i else b) : u.truncateU64.setWidth w = x := by
  apply BitVec.eq_of_getLsbD_eq
  intro i hi
  have hbit := hu i (by omega)
  rw [U128.getLsbD_bits, if_pos (by omega), if_pos hi] at hbit
  rw [BitVec.getLsbD_setWidth, U128.truncateU64, hbit]
  simp [hi]

theorem getLsbD_word {y : BitVec w} {i : ℕ} (hw : w ≤ 64) (hi : i < w) :
    (⟨y.setWidth 64, 0⟩ : U128).bits.getLsbD i = y.getLsbD i := by
  rw [U128.getLsbD_bits, if_pos (by omega), BitVec.getLsbD_setWidth]
  simp [hi.trans_le hw]

theorem byteSwap_one (x : BitVec 8) : byteSwap x = x := by
  apply BitVec.eq_of_getLsbD_eq
  intro i hi
  rw [getLsbD_byteSwap _ hi]
  congr 1
  omega

section Widths

variable {b : Bool} {i : ℕ}

theorem swap8 {x : BitVec 8} (hu : ∀ i < 128, u.bits.getLsbD i = if i < 8 then x.getLsbD i else b) (hi : i < 8) :
    u.bits.getLsbD i = (byteSwap x).getLsbD i := by
  rw [byteSwap_one, hu i (by omega), if_pos hi]

theorem swap16 {x : BitVec 16} (hu : ∀ i < 128, u.bits.getLsbD i = if i < 16 then x.getLsbD i else b)
    (hi : i < 16) : (⟨(bswap16 (u.truncateU64.setWidth 16)).setWidth 64, 0⟩ : U128).bits.getLsbD i =
      (byteSwap x).getLsbD i := by
  rw [truncate_of_extends (by norm_num) hu, getLsbD_word (by norm_num) hi, bswap16_eq]

theorem swap32 {x : BitVec 32} (hu : ∀ i < 128, u.bits.getLsbD i = if i < 32 then x.getLsbD i else b)
    (hi : i < 32) : (⟨(bswap32 (u.truncateU64.setWidth 32)).setWidth 64, 0⟩ : U128).bits.getLsbD i =
      (byteSwap x).getLsbD i := by
  rw [truncate_of_extends (by norm_num) hu, getLsbD_word (by norm_num) hi, bswap32_eq]

theorem swap64 {x : BitVec 64} (hu : ∀ i < 128, u.bits.getLsbD i = if i < 64 then x.getLsbD i else b)
    (hi : i < 64) : (⟨bswap64 u.truncateU64, 0⟩ : U128).bits.getLsbD i = (byteSwap x).getLsbD i := by
  have htrunc := truncate_of_extends le_rfl hu
  rw [BitVec.setWidth_eq] at htrunc
  rw [U128.getLsbD_bits, if_pos hi, bswap64_eq, htrunc]

theorem swap128 {x : BitVec 128} (hu : ∀ i < 128, u.bits.getLsbD i = if i < 128 then x.getLsbD i else b) :
    (bswap128 u).bits.getLsbD i = (byteSwap x).getLsbD i := by
  have hbits : u.bits = x := by
    apply BitVec.eq_of_getLsbD_eq
    intro i hi
    rw [hu i hi, if_pos hi]
  rw [bits_bswap128, hbits]

end Widths

/-- `bswap` knows the types of a fixed width. -/
theorem bswapValue_bits {target : Target} {t : CoreType} {ti : TypeInfo} {x : BitVec ti.bits} {b : Bool}
    (hinfo : TypeInfo.forPrimitive target t = ti) (hti : ti.Integer) (ht : t ≠ .usize ∧ t ≠ .isize)
    (hu : ∀ i < 128, u.bits.getLsbD i = if i < ti.bits then x.getLsbD i else b) :
    ∃ rv, bswapValue u (some t) = .ok rv ∧ ∀ i < ti.bits, rv.bits.getLsbD i = (byteSwap x).getLsbD i := by
  subst hinfo
  cases t
  case usize => exact absurd rfl ht.1
  case isize => exact absurd rfl ht.2
  case u8 | i8 => exact ⟨_, rfl, fun i => swap8 hu⟩
  case u16 | i16 => exact ⟨_, rfl, fun i => swap16 hu⟩
  case u32 | i32 => exact ⟨_, rfl, fun i => swap32 hu⟩
  case u64 | i64 => exact ⟨_, rfl, fun i => swap64 hu⟩
  case u128 | i128 => exact ⟨_, rfl, fun i _ => swap128 hu⟩
  case f32 | f64 | str | bool | char =>
    have hdvd := hti.dvd
    have hkind := hti.kind
    simp [TypeInfo.forPrimitive] at hdvd hkind

end Swap

section Rotate

variable {w c : ℕ} {x : BitVec w} {u : U128} {b : Bool} {i : ℕ}

theorem or_shl_shr_bits (val : U128) (m n : ℕ) (hi : i < 128) :
    ((val.shl m).or (val.shr n)).bits.getLsbD i =
      if m ≤ i then val.bits.getLsbD (i - m) || val.bits.getLsbD (n + i) else val.bits.getLsbD (n + i) := by
  rw [U128.bits_or, BitVec.getLsbD_or, U128.bits_shl, U128.bits_shr, BitVec.getLsbD_shiftLeft,
    BitVec.getLsbD_ushiftRight]
  by_cases h : m ≤ i
  · simp [hi, h, Nat.not_lt.mpr h]
  · simp [hi, h, Nat.not_le.mp h]

/-- Every bit of a value that extends `x`. -/
theorem bits_of_extends (hw : w ≤ 128) (hu : ∀ i < 128, u.bits.getLsbD i = if i < w then x.getLsbD i else b)
    (i : ℕ) : u.bits.getLsbD i = if i < w then x.getLsbD i else if i < 128 then b else false := by
  by_cases h : i < 128
  · rw [hu i h, if_pos h]
  · rw [BitVec.getLsbD_of_ge _ _ (by omega), if_neg (by omega), if_neg h]

/-- Away from 64 bits, what a rotation to the left writes: bits from beyond the width are `b`. -/
theorem rotated_left_bits (hw : w ≤ 64 ∨ w = 128) (hw' : w ≠ 64) (hc : c ≤ w)
    (hu : ∀ i < 128, u.bits.getLsbD i = if i < w then x.getLsbD i else b) (hi : i < w) :
    (rotated true w u c).bits.getLsbD i =
      ((x.rotateLeft c).getLsbD i || (decide (c ≠ 0 ∧ c ≤ i ∧ w ≠ 128) && b)) := by
  have hbit := bits_of_extends (by omega) hu
  rw [rotated, BitVec.getLsbD_rotateLeft]
  by_cases h0 : c = 0
  · subst h0
    rw [if_pos (.inl rfl), hbit, if_pos hi]
    simp [hi]
  rw [if_neg (by omega), if_pos rfl, or_shl_shr_bits u c (w - c) (by omega), hbit, hbit]
  by_cases hcw : c = w
  · rw [if_neg (by omega), if_pos (by omega), hcw, Nat.mod_self]
    simp [hi, Nat.not_le.mpr hi]
  rw [Nat.mod_eq_of_lt (by omega)]
  by_cases hci : c ≤ i
  · rw [if_pos hci, if_pos (by omega), if_neg (by omega)]
    have hend : w - c + i < 128 ↔ w ≠ 128 := by omega
    simp only [hend, h0, hci, hi, Nat.not_lt.mpr hci, decide_false, decide_true, cond_false, Bool.true_and,
      ne_eq, not_false_eq_true, true_and]
    by_cases h128 : w = 128 <;> simp [h128]
  · rw [if_neg hci, if_pos (by omega)]
    simp [hci, Nat.not_le.mp hci]

theorem rotated_right_bits (hw : w ≤ 64 ∨ w = 128) (hw' : w ≠ 64) (hc : c ≤ w)
    (hu : ∀ i < 128, u.bits.getLsbD i = if i < w then x.getLsbD i else b) (hi : i < w) :
    (rotated false w u c).bits.getLsbD i =
      ((x.rotateRight c).getLsbD i || (decide (w ≤ i + c ∧ w ≠ 128) && b)) := by
  have hbit := bits_of_extends (by omega) hu
  have hcomm : (u.shr c).or (u.shl (w - c)) = (u.shl (w - c)).or (u.shr c) := by
    apply U128.bits_injective
    rw [U128.bits_or, U128.bits_or, BitVec.or_comm]
  rw [rotated, BitVec.getLsbD_rotateRight]
  by_cases h0 : c = 0
  · subst h0
    rw [if_pos (.inl rfl), hbit, if_pos hi]
    simp [hi]
  rw [if_neg (by omega), if_neg Bool.false_ne_true, hcomm, or_shl_shr_bits u (w - c) c (by omega), hbit, hbit]
  by_cases hcw : c = w
  · rw [if_pos (by omega), if_pos (by omega), if_neg (by omega), hcw, Nat.mod_self]
    have hend : w + i < 128 ↔ w ≠ 128 := by omega
    simp only [hend, Nat.sub_self, Nat.sub_zero, hi, decide_true, cond_true, Nat.zero_add]
    by_cases h128 : w = 128 <;> simp [h128]
  rw [Nat.mod_eq_of_lt (by omega)]
  by_cases hci : w - c ≤ i
  · rw [if_pos hci, if_pos (by omega), if_neg (by omega)]
    have hend : c + i < 128 ↔ w ≠ 128 := by omega
    simp only [hend, hi, Nat.not_lt.mpr hci, decide_false, decide_true, cond_false, Bool.true_and,
      show w ≤ i + c by omega, true_and]
    by_cases h128 : w = 128 <;> simp [h128]
  · rw [if_neg hci, if_pos (by omega)]
    simp [show ¬w ≤ i + c by omega, Nat.not_le.mp hci]

/-- The bits of a rotation to the left that come from below. -/
theorem getLsbD_rotateLeft_high (hi : i < w) (h : c ≤ i) : (x.rotateLeft c).getLsbD i = x.getLsbD (i - c) := by
  rw [BitVec.getLsbD_rotateLeft, Nat.mod_eq_of_lt (by omega)]
  simp [Nat.not_lt.mpr h, hi]

/-- The bits of a rotation to the right that come round. -/
theorem getLsbD_rotateRight_high (hc : c ≤ w) (hi : i < w) (h : w - c ≤ i) :
    (x.rotateRight c).getLsbD i = x.getLsbD (i - (w - c)) := by
  rw [BitVec.getLsbD_rotateRight]
  by_cases hcw : c = w
  · simp [hcw, hi]
  · rw [Nat.mod_eq_of_lt (by omega)]
    simp [Nat.not_lt.mpr h, hi]

theorem rotateRight_rotateLeft (c : ℕ) (x : BitVec w) : (x.rotateLeft c).rotateRight c = x := by
  apply BitVec.eq_of_getLsbD_eq
  intro i hi
  have hr := Nat.mod_lt c (by omega : w > 0)
  rw [BitVec.getLsbD_rotateRight, BitVec.getLsbD_rotateLeft, BitVec.getLsbD_rotateLeft]
  by_cases h : i < w - c % w
  · have hge : ¬c % w + i < c % w := by omega
    simp [h, show c % w + i < w by omega]
  · have hlt : i - (w - c % w) < c % w := by omega
    have hidx : w - c % w + (i - (w - c % w)) = i := by omega
    simp [h, hlt, hidx, hi]

theorem rotateLeft_rotateRight (c : ℕ) (x : BitVec w) : (x.rotateRight c).rotateLeft c = x := by
  apply BitVec.eq_of_getLsbD_eq
  intro i hi
  have hr := Nat.mod_lt c (by omega : w > 0)
  rw [BitVec.getLsbD_rotateLeft, BitVec.getLsbD_rotateRight, BitVec.getLsbD_rotateRight]
  by_cases h : i < c % w
  · simp [h, show w - c % w + i < w by omega]
  · have hlt : i - c % w < w - c % w := by omega
    have hidx : c % w + (i - c % w) = i := by omega
    simp [h, hlt, hidx, hi]

end Rotate

section Exact

variable {T P : Type} {state : CallStackEntry T P} {ty : T} {t : CoreType} {dst : ValueRef} {ti : TypeInfo}
  {p q : Param P ValueRef} {x : BitVec ti.bits} {c : ℕ}

variable (hty : state.asPrimitive ty = some t) (hinfo : TypeInfo.forPrimitive state.target t = ti) (hti : ti.Integer)
  (hp : Denotes state ti p (ti.value x)) (hq : Denotes state ti q c) (hc : c ≤ ti.bits)
  (hroom : dst.Room (ti.bits / 8))
include hty hinfo hti hp

theorem bswap_writes_iff (hroom : dst.Room (ti.bits / 8)) {args : List (Param P ValueRef)} :
    ValueRef.Writes state.target dst (ti.bits / 8) (byteSwap x).toNat (bswap state ty dst (p :: args)) ↔
      t ≠ .usize ∧ t ≠ .isize := by
  obtain ⟨u, hread, hu⟩ := readParamUint_bits hti hp
  by_cases ht : t ≠ .usize ∧ t ≠ .isize
  · obtain ⟨rv, hrv, hbits⟩ := bswapValue_bits hinfo hti ht hu
    have hrun : bswap state ty dst (p :: args) = dst.writeUint state.target ti.bits rv := by
      simp [bswap, hty, typeInfo_eq hty hinfo, argAt, hread, hrv, bind, Except.bind]
    rw [hrun, writes_bits_iff hti hroom]
    exact iff_of_true hbits ht
  · refine iff_of_false ?_ ht
    rintro ⟨dst', hrun, -⟩
    have hrv : bswapValue u (some t) = .error (.todo "Handle bswap with ") := by
      cases t <;> first | rfl | exact absurd (by decide) ht
    simp [bswap, hty, typeInfo_eq hty hinfo, argAt, hread, hrv, bind, Except.bind] at hrun

omit hp
include hq hc

/-- A count up to the width passes the assertion. -/
theorem rotate_run (left : Bool) {u : U128} (hread : state.readParamUint ti.bits p = .ok u) :
    rotate state ty dst left [p, q] = dst.writeUint state.target ti.bits (rotated left ti.bits u c) := by
  have hle := hti.le_bits
  have hlt : c < 2 ^ ti.bits := hc.trans_lt ti.bits.lt_two_pow_self
  have huint : asUint ti q c = c := by
    unfold asUint
    split
    · rfl
    · exact Int.emod_eq_of_lt (Int.natCast_nonneg c) (by exact_mod_cast hlt)
  have hcount : state.readParamUint ti.bits q = .ok (U128.ofNat c) := by
    rw [readParamUint_of_denotes hti hq, huint, S128.ofNat_eq_ofInt]
  have hcmp : (U128.ofNat c).cmp (U128.ofNat ti.bits) ≠ .gt := by
    rw [U128.cmp_eq, U128.toNat_ofNat, U128.toNat_ofNat, Nat.mod_eq_of_lt (by omega), Nat.mod_eq_of_lt (by omega)]
    exact mt compare_gt_iff_gt.mp (not_lt.mpr hc)
  have htrunc : ((U128.ofNat c).truncateU64.setWidth 32).toNat = c := by
    rw [BitVec.toNat_setWidth, toNat_truncateU64, U128.toNat_ofNat]
    omega
  simp [rotate, hty, typeInfo_eq hty hinfo, argAt, hread, hcount, hcmp, htrunc, bind, Except.bind]

include hp hroom

theorem rotateLeft_writes_iff :
    ValueRef.Writes state.target dst (ti.bits / 8) (x.rotateLeft c).toNat (rotate state ty dst true [p, q]) ↔
      BitIntrinsic.Condition t ti p x c .rotateLeft := by
  obtain ⟨u, hread, hu⟩ := readParamUint_bits hti hp
  rw [rotate_run hty hinfo hti hq hc true hread, writes_bits_iff hti hroom, BitIntrinsic.Condition]
  by_cases h64 : ti.bits = 64
  · rw [if_pos h64, rotated, if_pos (.inr h64)]
    have hlow : ∀ i < ti.bits, u.bits.getLsbD i = x.getLsbD i := fun i hi => by
      rw [hu i (by omega), if_pos hi]
    constructor
    · intro h
      exact BitVec.eq_of_getLsbD_eq fun i hi => (h i hi).symm.trans (hlow i hi)
    · intro h i hi
      rw [hlow i hi, h]
  · rw [if_neg h64]
    constructor
    · intro h hs h128 h0 j hj
      have hbit := h (j + c) (by omega)
      rw [rotated_left_bits hti.le h64 hc hu (by omega), hs, getLsbD_rotateLeft_high (by omega) (by omega),
        Nat.add_sub_cancel, decide_eq_true ⟨h0, Nat.le_add_left c j, h128⟩, Bool.and_true, Bool.or_true] at hbit
      exact hbit.symm
    · intro h i hi
      rw [rotated_left_bits hti.le h64 hc hu hi]
      cases hs : signExtended p x
      · rw [Bool.and_false, Bool.or_false]
      by_cases hcond : c ≠ 0 ∧ c ≤ i ∧ ti.bits ≠ 128
      · obtain ⟨h0, hci, h128⟩ := hcond
        rw [getLsbD_rotateLeft_high hi hci, h hs h128 h0 (i - c) (by omega), Bool.true_or]
      · simp [hcond]

theorem rotateRight_writes_iff :
    ValueRef.Writes state.target dst (ti.bits / 8) (x.rotateRight c).toNat (rotate state ty dst false [p, q]) ↔
      BitIntrinsic.Condition t ti p x c .rotateRight := by
  obtain ⟨u, hread, hu⟩ := readParamUint_bits hti hp
  rw [rotate_run hty hinfo hti hq hc false hread, writes_bits_iff hti hroom, BitIntrinsic.Condition]
  by_cases h64 : ti.bits = 64
  · rw [if_pos h64, rotated, if_pos (.inr h64)]
    have hlow : ∀ i < ti.bits, u.bits.getLsbD i = x.getLsbD i := fun i hi => by
      rw [hu i (by omega), if_pos hi]
    constructor
    · intro h
      exact BitVec.eq_of_getLsbD_eq fun i hi => (h i hi).symm.trans (hlow i hi)
    · intro h i hi
      rw [hlow i hi, h]
  · rw [if_neg h64]
    constructor
    · intro h hs h128 j hj
      have hbit := h (ti.bits - c + j) (by omega)
      rw [rotated_right_bits hti.le h64 hc hu (by omega), hs, getLsbD_rotateRight_high hc (by omega) (by omega),
        Nat.add_sub_cancel_left, decide_eq_true ⟨by omega, h128⟩, Bool.and_true, Bool.or_true] at hbit
      exact hbit.symm
    · intro h i hi
      rw [rotated_right_bits hti.le h64 hc hu hi]
      cases hs : signExtended p x
      · rw [Bool.and_false, Bool.or_false]
      by_cases hcond : ti.bits ≤ i + c ∧ ti.bits ≠ 128
      · obtain ⟨hci, h128⟩ := hcond
        rw [getLsbD_rotateRight_high hc hi (by omega), h hs h128 (i - (ti.bits - c)) (by omega), Bool.true_or]
      · simp [hcond]

/-- An intrinsic writes the value of its definition if and only if the condition holds. -/
theorem runBitIntrinsic_writes_iff (op : BitIntrinsic) :
    ValueRef.Writes state.target dst (ti.bits / 8) (op.meaning x c).toNat
      (runBitIntrinsic state ty dst op (op.args p q)) ↔ op.Condition t ti p x c := by
  cases op
  case ctpop => exact ctpop_writes_iff hty hinfo hti hp hroom
  case cttz => exact cttz_writes_iff hty hinfo hti hp hroom
  case ctlz => exact ctlz_writes_iff hty hinfo hti hp hroom
  case bswap => exact bswap_writes_iff hty hinfo hti hp hroom
  case bitreverse => exact bitreverse_writes_iff hty hinfo hti hp hroom
  case rotateLeft => exact rotateLeft_writes_iff hty hinfo hti hp hq hc hroom
  case rotateRight => exact rotateRight_writes_iff hty hinfo hti hp hq hc hroom

omit hty hinfo hp hq hc hroom in
theorem inverse_meaning {op inv : BitIntrinsic} (h : op.inverse = some inv) (x : BitVec ti.bits) :
    inv.meaning (op.meaning x c) c = x := by
  cases op
  case ctpop | cttz | ctlz => cases h
  all_goals obtain rfl := Option.some.inj h
  case bswap => exact byteSwap_byteSwap hti.dvd x
  case bitreverse => exact BitVec.reverse_reverse_eq
  case rotateLeft => exact rotateRight_rotateLeft c x
  case rotateRight => exact rotateLeft_rotateRight c x

omit hty hinfo hti hp hq hc hroom in
/-- Where an intrinsic is exact, so is its inverse on the result. -/
theorem inverse_condition {op inv : BitIntrinsic} (h : op.inverse = some inv) (hcond : op.Condition t ti p x c)
    (val : ValueRef) : inv.Condition t ti (P := P) (.lvalue val) (op.meaning x c) c := by
  cases op
  case ctpop | cttz | ctlz => cases h
  all_goals obtain rfl := Option.some.inj h
  case bswap => exact hcond
  case bitreverse =>
    exact BitVec.reverse_eq_zero_iff.mpr hcond
  case rotateLeft =>
    simp only [BitIntrinsic.Condition, BitIntrinsic.meaning] at hcond ⊢
    by_cases h64 : ti.bits = 64
    · rw [if_pos h64] at hcond ⊢
      rw [rotateRight_rotateLeft, hcond]
    · rw [if_neg h64]
      exact fun hs => absurd hs Bool.false_ne_true
  case rotateRight =>
    simp only [BitIntrinsic.Condition, BitIntrinsic.meaning] at hcond ⊢
    by_cases h64 : ti.bits = 64
    · rw [if_pos h64] at hcond ⊢
      rw [rotateLeft_rotateRight, hcond]
    · rw [if_neg h64]
      exact fun hs => absurd hs Bool.false_ne_true

end Exact

/-- The intrinsic writes the value of its definition, and its inverse gives the operand back from there. -/
def BitIntrinsic.Exact {T P : Type} (state : CallStackEntry T P) (ty : T) (dst : ValueRef) (p q : Param P ValueRef)
    {w : ℕ} (x : BitVec w) (c : ℕ) (op : BitIntrinsic) : Prop :=
  ValueRef.Writes state.target dst (w / 8) (op.meaning x c).toNat (runBitIntrinsic state ty dst op (op.args p q)) ∧
    ∀ inv ∈ op.inverse, ∀ dst', runBitIntrinsic state ty dst op (op.args p q) = .ok dst' →
      ∀ back : ValueRef, back.Room (w / 8) →
        ValueRef.Writes state.target back (w / 8) x.toNat
          (runBitIntrinsic state ty back inv (inv.args (.lvalue dst') q))

/-- On an operand with the bits `x` of any integer type and a count up to the width, an intrinsic is exact if
and only if its condition holds. -/
theorem bit_intrinsics_exact_iff {T P : Type} {state : CallStackEntry T P} {ty : T} {t : CoreType} {dst : ValueRef}
    {p q : Param P ValueRef} {x : BitVec (TypeInfo.forPrimitive state.target t).bits} {c : ℕ}
    (hty : state.asPrimitive ty = some t) (ht : t ∉ [.f32, .f64, .bool, .char, .str])
    (hp : Denotes state (TypeInfo.forPrimitive state.target t) p ((TypeInfo.forPrimitive state.target t).value x))
    (hq : Denotes state (TypeInfo.forPrimitive state.target t) q c)
    (hc : c ≤ (TypeInfo.forPrimitive state.target t).bits)
    (hroom : dst.Room ((TypeInfo.forPrimitive state.target t).bits / 8)) (op : BitIntrinsic) :
    op.Exact state ty dst p q x c ↔ op.Condition t (TypeInfo.forPrimitive state.target t) p x c := by
  have hti := TypeInfo.integer_forPrimitive state.target ht
  have hiff := runBitIntrinsic_writes_iff hty rfl hti hp hq hc hroom op
  constructor
  · exact fun h => hiff.mp h.1
  · intro hcond
    refine ⟨hiff.mpr hcond, ?_⟩
    intro inv hinv dst' hrun back hback
    obtain ⟨dst₁, hrun₁, hholds, -⟩ := hiff.mpr hcond
    obtain rfl := Except.ok.inj (hrun.symm.trans hrun₁)
    have hwrites := (runBitIntrinsic_writes_iff hty rfl hti (denotes_of_holds hholds) hq hc hback inv).mpr
      (inverse_condition hinv hcond dst')
    rw [inverse_meaning hti hinv] at hwrites
    exact hwrites

section Examples

/-- A target with 64-bit pointers, the lowest byte first. -/
def littleTarget : Target := ⟨⟨64, false, by decide, by decide⟩, by decide⟩

/-- A function without named constants; its types are the primitive ones. -/
def plainState : CallStackEntry CoreType Empty where
  target := littleTarget
  asPrimitive := some
  getConst p := p.elim
  getValue _ := .error .defer

theorem bswap_u16_exact : BitIntrinsic.Exact plainState .u16 ⟨[none, none], true, 0⟩ (.constant (.uint 0x1234 .u16))
    (.constant (.uint 0 .u16)) (0x1234#16) 0 .bswap :=
  (@bit_intrinsics_exact_iff _ _ plainState _ .u16 _ _ _ _ _ rfl (by decide) (.uint (by decide) rfl)
    (.uint (by decide) rfl) (Nat.zero_le _) ⟨rfl, le_rfl⟩ .bswap).mpr ⟨by decide, by decide⟩

/-- The reverse of the byte 1 is 128; `bitreverse` shifts the bit out. -/
theorem bitreverse_u8_inexact : ¬BitIntrinsic.Exact plainState .u8 ⟨[none], true, 0⟩ (.constant (.uint 1 .u8))
    (.constant (.uint 0 .u8)) (1#8) 0 .bitreverse := by
  rintro ⟨⟨dst', hrun, ⟨src, hget, -, hv⟩, -⟩, -⟩
  have hdst : (.ok ⟨[some 0], true, 0⟩ : Except Failure ValueRef) = .ok dst' := hrun
  obtain rfl := Except.ok.inj hdst
  obtain rfl := Option.some.inj (show some [0] = some src from hget)
  exact absurd hv (by decide)

end Examples

end Mrustc.ConstEval
