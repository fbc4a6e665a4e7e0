import Mrustc.Mir.FoldMeaning
import Mrustc.Mir.Monomorph

/-! # The value of a const generic parameter

Both ways to instantiate a constant decode the bytes of the argument, but for booleans, which are inverted
while inlining, and for 128-bit integers, which are rejected there.
-/

namespace Mrustc.Mir.Monomorph

open Hir (CoreType ConstGeneric TypeRef Reloc)
open Int128

/-- The number that bytes stand for. -/
def bytesValue (bigEndian : Bool) (bytes : List UInt8) : ℕ :=
  Nat.ofDigits 256 ((if bigEndian then bytes.reverse else bytes).map UInt8.toNat)

/-- The sizes of the integers, `bool` and `char`. -/
def size (target : Target) : CoreType → ℕ
  | .bool | .u8 | .i8 => 1
  | .u16 | .i16 => 2
  | .u32 | .i32 | .char => 4
  | .u64 | .i64 => 8
  | .usize | .isize => target.pointerBits / 8
  | .u128 | .i128 => 16
  | .f32 | .f64 | .str => 0

/-- The constant that bytes encode. -/
def decoded {P : Type} (target : Target) (ct : CoreType) (bytes : List UInt8) : Constant P :=
  match ct with
  | .bool => .bool (bytesValue target.bigEndian bytes ≠ 0)
  | .i8 | .i16 | .i32 | .i64 | .isize | .i128 =>
    .int ((bytesValue target.bigEndian bytes : ℤ).bmod (2 ^ (8 * bytes.length))) ct
  | _ => .uint (bytesValue target.bigEndian bytes) ct

/-- An argument for each const generic parameter: the parameter has an integer type, `bool` or `char`, and its
argument is evaluated to the bytes of a value of this type. -/
inductive Assigned {P : Type} (env : Env P) : Constant P → Option (CoreType × List UInt8) → Prop
  | generic {binding : ℕ} {p : List TypeRef} {ct : CoreType} {bytes : List UInt8} {rel : List Reloc}
      (hdef : paramsDef env binding = .ok (some p)) (hty : p[idx binding]? = some (.primitive ct))
      (hval : getValue env binding = .ok (.evaluated bytes rel))
      (hct : ct ∉ [.f32, .f64, .str]) (hlen : bytes.length = size env.target ct) :
      Assigned env (.generic binding) (some (ct, bytes))
  | other {c : Constant P} (hc : ∀ binding, c ≠ .generic binding) : Assigned env c none

section Read

variable {v : U128} {b : UInt8} {bs : List UInt8} {i k : ℕ}

theorem bytesValue_lt (bigEndian : Bool) (bytes : List UInt8) :
    bytesValue bigEndian bytes < 2 ^ (8 * bytes.length) := by
  have h := Nat.ofDigits_lt_base_pow_length (b := 256)
    (l := (if bigEndian then bytes.reverse else bytes).map UInt8.toNat) (by norm_num) (by
      intro d hd
      obtain ⟨b, -, rfl⟩ := List.mem_map.mp hd
      exact b.toNat_lt)
  have hlen : ((if bigEndian then bytes.reverse else bytes).map UInt8.toNat).length = bytes.length := by
    cases bigEndian <;> simp
  rw [hlen] at h
  rw [pow_mul]
  exact h

/-- A byte that meets no bit of the value read so far is added. -/
theorem toNat_or_shl_byte (hk : k + 8 ≤ 128)
    (hv : v.toNat < 2 ^ k ∨ 2 ^ (k + 8) ∣ v.toNat) :
    (v.or ((U128.ofNat b.toNat).shl k)).toNat = v.toNat + 2 ^ k * b.toNat := by
  have hb : b.toNat < 2 ^ 8 := b.toNat_lt
  have hlt : b.toNat * 2 ^ k < 2 ^ (k + 8) := by
    rw [pow_add, mul_comm]
    exact Nat.mul_lt_mul_of_pos_left hb (Nat.two_pow_pos k)
  have hle : 2 ^ (k + 8) ≤ 2 ^ 128 := Nat.pow_le_pow_right two_pos hk
  have hshl : ((U128.ofNat b.toNat).shl k).toNat = 2 ^ k * b.toNat := by
    rw [← U128.toNat_bits, U128.bits_shl, BitVec.toNat_shiftLeft, Nat.shiftLeft_eq, U128.toNat_bits,
      U128.toNat_ofNat, Nat.mod_eq_of_lt (hb.trans (by norm_num)), Nat.mod_eq_of_lt (hlt.trans_le hle),
      mul_comm]
  rw [← U128.toNat_bits, U128.bits_or, BitVec.toNat_or, U128.toNat_bits, U128.toNat_bits, hshl]
  rcases hv with hv | ⟨q, hq⟩
  · rw [Nat.or_comm, ← Nat.two_pow_add_eq_or_of_lt hv, add_comm]
  · rw [hq, ← Nat.two_pow_add_eq_or_of_lt (by rwa [mul_comm])]

theorem readLoop_little {size : ℕ} (hlen : i + bs.length ≤ 16) (hv : v.toNat < 2 ^ (8 * i)) :
    (readLoop false size i bs v).toNat = v.toNat + 2 ^ (8 * i) * bytesValue false bs := by
  induction bs generalizing i v with
  | nil => simp [readLoop, bytesValue]
  | cons b bs ih =>
    rw [List.length_cons] at hlen
    have hb : b.toNat < 2 ^ 8 := b.toNat_lt
    have hor := toNat_or_shl_byte (b := b) (k := 8 * i) (by omega) (.inl hv)
    have hpow : 2 ^ (8 * (i + 1)) = 2 ^ (8 * i) * 2 ^ 8 := by rw [← pow_add]; rfl
    have hstep : readLoop false size i (b :: bs) v =
        readLoop false size (i + 1) bs (v.or ((U128.ofNat b.toNat).shl (8 * i))) := by
      simp only [readLoop, Bool.false_eq_true, if_false, mul_comm i 8, if_pos (by omega : 8 * i < 128)]
    rw [hstep, ih (by omega), hor, hpow]
    · simp only [bytesValue, Bool.false_eq_true, if_false, List.map_cons, Nat.ofDigits_cons]
      ring
    · rw [hor, hpow]
      nlinarith

theorem readLoop_big {size : ℕ} (hlen : i + bs.length = size) (hsize : size ≤ 16)
    (hv : 2 ^ (8 * bs.length) ∣ v.toNat) :
    (readLoop true size i bs v).toNat = v.toNat + bytesValue true bs := by
  induction bs generalizing i v with
  | nil => simp [readLoop, bytesValue]
  | cons b bs ih =>
    rw [List.length_cons] at hlen hv
    have hbit : (size - 1 - i) * 8 = 8 * bs.length := by omega
    have hor := toNat_or_shl_byte (b := b) (k := 8 * bs.length) (by omega) (.inr hv)
    rw [readLoop, if_pos rfl, hbit, if_pos (by omega), ih (by omega), hor]
    · simp only [bytesValue, if_true, List.reverse_cons, List.map_append, Nat.ofDigits_append,
        List.length_map, List.length_reverse, List.map_cons, List.map_nil, Nat.ofDigits_singleton, pow_mul]
      ring
    · rw [hor]
      exact (Nat.pow_dvd_pow 2 (by omega)).trans hv |>.add (dvd_mul_right _ _)

/-- A literal of up to 16 bytes is read as the number that it encodes. -/
theorem readUint_eq (target : Target) {bytes : List UInt8} (hlen : bytes.length ≤ 16) :
    ∃ v, readUint target bytes bytes.length = .ok v ∧ v.toNat = bytesValue target.bigEndian bytes := by
  refine ⟨readLoop target.bigEndian bytes.length 0 bytes ⟨0, 0⟩, ?_, ?_⟩
  · simp [readUint]
  · cases target.bigEndian
    · rw [readLoop_little (by omega) (by decide), U128.toNat_zero]
      simp
    · rw [readLoop_big (by omega) hlen (by rw [U128.toNat_zero]; exact dvd_zero _), U128.toNat_zero, zero_add]

/-- A literal of 1 to 16 bytes is read with its sign. -/
theorem readSint_eq (target : Target) {bytes : List UInt8} (h0 : 0 < bytes.length) (hlen : bytes.length ≤ 16) :
    ∃ v, readSint target bytes bytes.length = .ok v ∧
      v.toInt = (bytesValue target.bigEndian bytes : ℤ).bmod (2 ^ (8 * bytes.length)) := by
  obtain ⟨v, hread, hv⟩ := readUint_eq target hlen
  have hlt := bytesValue_lt target.bigEndian bytes
  rw [← hv] at hlt ⊢
  have hsint : readSint target bytes bytes.length =
      if bytes.length < 16 ∧ (v.shr (8 * bytes.length - 1)).cmp ⟨0, 0⟩ ≠ .eq then
        .ok ⟨v.or (U128.max.shl (8 * bytes.length))⟩
      else .ok ⟨v⟩ := by
    simp only [readSint, if_neg h0.ne', hread]
    rfl
  by_cases h16 : bytes.length < 16
  · refine ⟨ConstFold.sext v (8 * bytes.length), ?_, ConstFold.toInt_sext (by omega) hlt⟩
    simp only [hsint, ConstFold.sext, h16, true_and]
    split <;> rfl
  · refine ⟨⟨v⟩, hsint.trans (if_neg fun h => h16 h.1), ?_⟩
    have hlen : bytes.length = 16 := by omega
    rw [hlen, S128.toInt, BitVec.toInt_eq_toNat_bmod]
    rfl

end Read

section Agree

variable {P : Type} {env : Env P} {ct : CoreType} {bytes : List UInt8}

theorem size_mem (target : Target) (hct : ct ∉ [.f32, .f64, .str]) :
    0 < size target ct ∧ size target ct ≤ 16 := by
  have h1 := target.le_pointerBits
  have h2 := target.pointerBits_le
  cases ct <;> simp only [size] <;> first | omega | simp at hct

/-- The emitted function decodes every argument. -/
theorem monomorphEvaluated_eq (hct : ct ∉ [.f32, .f64, .str]) (hlen : bytes.length = size env.target ct) :
    monomorphEvaluated env bytes ct = .ok (decoded env.target ct bytes) := by
  have hsize := size_mem env.target hct
  rw [← hlen] at hsize
  obtain ⟨v, hread, hv⟩ := readUint_eq env.target hsize.2
  obtain ⟨s, hsread, hs⟩ := readSint_eq env.target hsize.1 hsize.2
  have hzero : v ≠ ⟨0, 0⟩ ↔ bytesValue env.target.bigEndian bytes ≠ 0 := by
    rw [← hv, ne_eq, ne_eq, not_iff_not]
    exact ⟨fun h => h ▸ U128.toNat_zero, fun h => U128.ext_toNat (h.trans U128.toNat_zero.symm)⟩
  cases ct
  case f32 | f64 | str => simp at hct
  case bool =>
    simp only [monomorphEvaluated, hread, decoded, ← hzero]
    rfl
  case char | usize | u128 | u64 | u32 | u16 | u8 =>
    simp only [monomorphEvaluated, hread, decoded, ← hv]
    rfl
  case isize | i128 | i64 | i32 | i16 | i8 =>
    simp only [monomorphEvaluated, hsread, decoded, ← hs]
    rfl

/-- The inlined function decodes what the emitted one does, but for the three types. -/
theorem cloneEvaluated_eq (hct : ct ∉ [.f32, .f64, .str]) (hlen : bytes.length = size env.target ct) :
    cloneEvaluated env bytes ct =
      match ct with
      | .bool => .ok (.bool (bytesValue env.target.bigEndian bytes = 0))
      | .u128 | .i128 => .error .wideConstGeneric
      | _ => .ok (decoded env.target ct bytes) := by
  have hsize := size_mem env.target hct
  rw [← hlen] at hsize
  obtain ⟨v, hread, hv⟩ := readUint_eq env.target hsize.2
  obtain ⟨s, hsread, hs⟩ := readSint_eq env.target hsize.1 hsize.2
  have hzero : v = ⟨0, 0⟩ ↔ bytesValue env.target.bigEndian bytes = 0 := by
    rw [← hv]
    exact ⟨fun h => h ▸ U128.toNat_zero, fun h => U128.ext_toNat (h.trans U128.toNat_zero.symm)⟩
  rw [hlen] at hread hsread
  cases ct
  case f32 | f64 | str => simp at hct
  case u128 | i128 => rfl
  case bool =>
    simp only [size] at hread
    simp only [cloneEvaluated, hread, ← hzero]
    rfl
  case char | usize | u64 | u32 | u16 | u8 =>
    simp only [size] at hread
    simp only [cloneEvaluated, hread, decoded, ← hv]
    rfl
  case isize | i64 | i32 | i16 | i8 =>
    simp only [size] at hsread
    simp only [cloneEvaluated, hsread, decoded, ← hs]
    rfl

/-- Both instantiations give the same constant, the one that the bytes of the argument encode. -/
def Agree (env : Env P) (c : Constant P) (arg : Option (CoreType × List UInt8)) : Prop :=
  ∃ d, cloneConstant env c = .ok d ∧ monomorphConstant env c = .ok d ∧
    ∀ a ∈ arg, d = decoded env.target a.1 a.2

theorem cloneConstant_other (env : Env P) {c : Constant P} (hc : ∀ binding, c ≠ .generic binding) :
    ∃ d, cloneConstant env c = .ok d ∧ monomorphConstant env c = .ok d := by
  cases c with
  | generic binding => exact absurd rfl (hc binding)
  | itemAddr p => cases p <;> exact ⟨_, rfl, rfl⟩
  | _ => exact ⟨_, rfl, rfl⟩

/-- The two instantiations agree unless the parameter is a boolean or a 128-bit integer. -/
theorem instantiations_agree_iff {c : Constant P} {arg : Option (CoreType × List UInt8)}
    (h : Assigned env c arg) : Agree env c arg ↔ ∀ a ∈ arg, a.1 ∉ [.bool, .u128, .i128] := by
  cases h with
  | other hc =>
    obtain ⟨d, h1, h2⟩ := cloneConstant_other env hc
    exact iff_of_true ⟨d, h1, h2, by simp⟩ (by simp)
  | @generic binding p ct bytes rel hdef hty hval hct hlen =>
    have hclone : cloneConstant env (.generic binding) = cloneEvaluated env bytes ct := by
      simp only [cloneConstant, hdef, hval, bind, Except.bind, Option.elim, hty]
    have hmono : monomorphConstant env (.generic binding) = .ok (decoded env.target ct bytes) := by
      rw [← monomorphEvaluated_eq hct hlen]
      simp only [monomorphConstant, hdef, hval, bind, Except.bind, Option.elim, Option.getD_some, hty]
    have hiff : Agree env (.generic binding) (some (ct, bytes)) ↔
        cloneEvaluated env bytes ct = .ok (decoded env.target ct bytes) := by
      rw [← hclone]
      constructor
      · rintro ⟨d, h1, -, hd⟩
        rw [h1, hd _ rfl]
      · intro h
        exact ⟨_, h, hmono, fun a ha => by obtain rfl := Option.some.inj ha; rfl⟩
    rw [hiff, cloneEvaluated_eq hct hlen]
    cases ct <;> simp [decoded]

/-- A function with one const generic parameter and its argument. -/
def oneParam (ct : CoreType) (bytes : List UInt8) : Env Unit where
  target := ⟨64, false, by norm_num, by norm_num⟩
  implDef := none
  fcnDef := some [.primitive ct]
  implParams := none
  methodParams := some [.evaluated bytes []]
  monomorph := id
  readFloat _ _ := .error .floatSize

theorem i16_agrees : Agree (oneParam .i16 [0xFE, 0xFF]) (.generic 256) (some (.i16, [0xFE, 0xFF])) :=
  (instantiations_agree_iff (.generic rfl rfl rfl (by decide) rfl)).mpr (by simp)

/-- The argument `true` is `false` in the inlined function. -/
theorem bool_disagrees : cloneConstant (oneParam .bool [1]) (.generic 256) = .ok (.bool false) ∧
    monomorphConstant (oneParam .bool [1]) (.generic 256) = .ok (.bool true) :=
  ⟨rfl, rfl⟩

end Agree

end Mrustc.Mir.Monomorph
