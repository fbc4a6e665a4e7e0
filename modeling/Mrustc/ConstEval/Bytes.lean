import Mathlib
import Mrustc.Mir.ConstGenerics

/-! # The bytes of 128-bit integers

`to_le_bytes`, `to_be_bytes` and their inverses. A list of bytes stands for its `bytesValue`.
-/

namespace Mrustc.Int128

open Mir.Monomorph (bytesValue bytesValue_lt toNat_or_shl_byte)

namespace U128

/-- `to_le_bytes` -/
def toLeBytes (v : U128) (maxLen : ℕ) : List UInt8 :=
  (List.range (min maxLen 16)).map fun i => UInt8.ofBitVec ((v.shr (i * 8)).truncateU64.setWidth 8)

/-- `to_be_bytes` fills the buffer from its end. -/
def toBeBytes (v : U128) (maxLen : ℕ) : List UInt8 := (v.toLeBytes maxLen).reverse

/-- The loop of `from_le_bytes` from byte `i` on. -/
def fromBytesLoop : (i : ℕ) → List UInt8 → U128 → U128
  | _, [], v => v
  | i, b :: src, v => fromBytesLoop (i + 1) src (v.or ((ofNat b.toNat).shl (i * 8)))

def fromLeBytes (src : List UInt8) : U128 := fromBytesLoop 0 (src.take 16) ⟨0, 0⟩

/-- `from_be_bytes` reads the buffer from its end. -/
def fromBeBytes (src : List UInt8) : U128 := fromBytesLoop 0 (src.take 16).reverse ⟨0, 0⟩

end U128

namespace S128

def signExtend (v : U128) (nBytes : ℕ) : S128 :=
  if nBytes < 16 ∧ v.bit (nBytes * 8 - 1) then ⟨v.or (U128.max.shl (nBytes * 8))⟩ else ⟨v⟩

def fromLeBytes (src : List UInt8) : S128 := signExtend (U128.fromLeBytes src) src.length

def fromBeBytes (src : List UInt8) : S128 := signExtend (U128.fromBeBytes src) src.length

end S128

section Values

variable {bigEndian : Bool} {bs bs' : List UInt8} {b : UInt8} {v : U128} {n i : ℕ}

theorem bytesValue_reverse (bs : List UInt8) : bytesValue true bs.reverse = bytesValue false bs := by
  simp [bytesValue]

theorem bytesValue_nil : bytesValue bigEndian [] = 0 := by simp [bytesValue]

theorem bytesValue_cons (b : UInt8) (bs : List UInt8) :
    bytesValue false (b :: bs) = b.toNat + 256 * bytesValue false bs := by
  simp [bytesValue, Nat.ofDigits_cons]

theorem bytesValue_append (bs bs' : List UInt8) :
    bytesValue false (bs ++ bs') = bytesValue false bs + 2 ^ (8 * bs.length) * bytesValue false bs' := by
  simp only [bytesValue, Bool.false_eq_true, if_false, List.map_append, Nat.ofDigits_append, List.length_map,
    pow_mul]
  rfl

/-- Bytes of one length are determined by their value. -/
theorem bytesValue_injective (hlen : bs.length = bs'.length)
    (h : bytesValue bigEndian bs = bytesValue bigEndian bs') : bs = bs' := by
  have hmap : ∀ {l l' : List UInt8}, l.length = l'.length →
      Nat.ofDigits 256 (l.map UInt8.toNat) = Nat.ofDigits 256 (l'.map UInt8.toNat) → l = l' := by
    intro l l' hlen h
    have hlt : ∀ (l : List UInt8), ∀ d ∈ l.map UInt8.toNat, d < 256 := by
      intro l d hd
      obtain ⟨b, -, rfl⟩ := List.mem_map.mp hd
      exact b.toNat_lt
    have heq := Nat.ofDigits_inj_of_len_eq (by norm_num) (by simpa using hlen) (hlt l) (hlt l') h
    exact List.map_injective_iff.mpr (fun _ _ => UInt8.toNat_inj.mp) heq
  cases bigEndian
  · exact hmap hlen (by simpa [bytesValue] using h)
  · refine List.reverse_injective (hmap (by simpa using hlen) ?_)
    simpa [bytesValue] using h

theorem length_toLeBytes (v : U128) (hn : n ≤ 16) : (v.toLeBytes n).length = n := by
  simp [U128.toLeBytes, hn]

theorem length_toBeBytes (v : U128) (hn : n ≤ 16) : (v.toBeBytes n).length = n := by
  rw [U128.toBeBytes, List.length_reverse, length_toLeBytes v hn]

theorem toNat_shr (v : U128) (n : ℕ) : (v.shr n).toNat = v.toNat / 2 ^ n := by
  rw [← U128.toNat_bits, U128.bits_shr, BitVec.toNat_ushiftRight, Nat.shiftRight_eq_div_pow, U128.toNat_bits]

theorem toNat_truncateU64 (v : U128) : v.truncateU64.toNat = v.toNat % 2 ^ 64 := by
  rw [U128.toNat_eq, U128.truncateU64]
  have := v.lo.isLt
  omega

theorem toNat_toLeByte (v : U128) (i : ℕ) :
    (UInt8.ofBitVec ((v.shr (i * 8)).truncateU64.setWidth 8)).toNat = v.toNat / 256 ^ i % 256 := by
  have hpow : (2 : ℕ) ^ (i * 8) = 256 ^ i := by
    rw [mul_comm]
    exact pow_mul 2 8 i
  have hbyte : (UInt8.ofBitVec ((v.shr (i * 8)).truncateU64.setWidth 8)).toNat =
      (v.shr (i * 8)).truncateU64.toNat % 2 ^ 8 := BitVec.toNat_setWidth _ _
  rw [hbyte, toNat_truncateU64, toNat_shr, hpow]
  omega

/-- The bytes written are those of the value modulo their range. -/
theorem bytesValue_toLeBytes (v : U128) (hn : n ≤ 16) :
    bytesValue false (v.toLeBytes n) = v.toNat % 2 ^ (8 * n) := by
  rw [U128.toLeBytes, min_eq_left hn]
  clear hn
  induction n with
  | zero => simp [bytesValue_nil, Nat.mod_one]
  | succ n ih =>
    have hpow : (2 : ℕ) ^ (8 * (n + 1)) = 2 ^ (8 * n) * 256 := by rw [mul_add, pow_add]; rfl
    have hpow' : (2 : ℕ) ^ (8 * n) = 256 ^ n := pow_mul 2 8 n
    rw [List.range_succ, List.map_append, bytesValue_append, ih, List.length_map, List.length_range, hpow,
      Nat.mod_mul, List.map_singleton, bytesValue_cons, bytesValue_nil, toNat_toLeByte, hpow']
    rfl

theorem bytesValue_toBeBytes (v : U128) (hn : n ≤ 16) :
    bytesValue true (v.toBeBytes n) = v.toNat % 2 ^ (8 * n) := by
  rw [U128.toBeBytes, bytesValue_reverse, bytesValue_toLeBytes v hn]

theorem toNat_fromBytesLoop (hlen : i + bs.length ≤ 16) (hv : v.toNat < 2 ^ (8 * i)) :
    (U128.fromBytesLoop i bs v).toNat = v.toNat + 2 ^ (8 * i) * bytesValue false bs := by
  induction bs generalizing i v with
  | nil => simp [U128.fromBytesLoop, bytesValue_nil]
  | cons b bs ih =>
    rw [List.length_cons] at hlen
    have hb : b.toNat < 2 ^ 8 := b.toNat_lt
    have hor := toNat_or_shl_byte (b := b) (k := i * 8) (by omega) (.inl (by rwa [mul_comm]))
    have hpow : 2 ^ (8 * (i + 1)) = 2 ^ (8 * i) * 2 ^ 8 := by rw [← pow_add]; rfl
    have hlt : (v.or ((U128.ofNat b.toNat).shl (i * 8))).toNat < 2 ^ (8 * (i + 1)) := by
      rw [hor, hpow, mul_comm i 8]
      nlinarith
    rw [U128.fromBytesLoop, ih (by omega) hlt, hor, hpow, bytesValue_cons, mul_comm i 8]
    ring

theorem toNat_fromLeBytes (hlen : bs.length ≤ 16) : (U128.fromLeBytes bs).toNat = bytesValue false bs := by
  rw [U128.fromLeBytes, List.take_of_length_le hlen, toNat_fromBytesLoop (by omega) (by decide), U128.toNat_zero]
  simp

theorem toNat_fromBeBytes (hlen : bs.length ≤ 16) : (U128.fromBeBytes bs).toNat = bytesValue true bs := by
  rw [U128.fromBeBytes, List.take_of_length_le hlen,
    toNat_fromBytesLoop (by rw [List.length_reverse]; omega) (by decide), U128.toNat_zero]
  simp [bytesValue]

theorem bit_eq (v : U128) (i : ℕ) : v.bit i = v.toNat.testBit i := by
  rw [← U128.toNat_bits, BitVec.testBit_toNat, U128.bit, U128.getLsbD_bits]
  by_cases h : i < 64
  · simp [h]
  · by_cases h' : i < 128
    · simp [h, h']
    · have hge : v.hi.getLsbD (i - 64) = false := BitVec.getLsbD_of_ge _ _ (by omega)
      simp [h, h', hge]

/-- The top bit decides about the extension. -/
theorem signExtend_eq_sext (hn : 0 < n ∧ n < 16) (hv : v.toNat < 2 ^ (8 * n)) :
    S128.signExtend v n = Mir.ConstFold.sext v (8 * n) := by
  obtain ⟨k, hk⟩ := Nat.exists_eq_succ_of_ne_zero (by omega : 8 * n ≠ 0)
  rw [hk, Nat.succ_eq_add_one] at hv
  have hdiv : v.toNat / 2 ^ k < 2 := by
    rw [Nat.div_lt_iff_lt_mul (Nat.two_pow_pos k), mul_comm, ← pow_succ]
    exact hv
  have hbit : v.toNat.testBit k = decide (¬v.toNat < 2 ^ k) := by
    have hzero := Nat.div_eq_zero_iff_lt (x := v.toNat) (Nat.two_pow_pos k)
    rw [Nat.testBit_eq_decide_div_mod_eq, Nat.mod_eq_of_lt hdiv, decide_eq_decide, ← hzero]
    constructor
    · intro h
      rw [h]
      exact one_ne_zero
    · exact fun h => Nat.le_antisymm (Nat.le_of_lt_succ hdiv) (Nat.pos_of_ne_zero h)
  rw [hk, Nat.succ_eq_add_one, Mir.ConstFold.sext_eq, S128.signExtend, bit_eq, mul_comm n 8, hk,
    Nat.succ_eq_add_one, Nat.add_sub_cancel, hbit]
  simp [hn.2]
  split <;> split <;> first | rfl | omega

/-- A value of `n` bytes is extended with its sign. -/
theorem toInt_signExtend (hn : 0 < n ∧ n ≤ 16) (hv : v.toNat < 2 ^ (8 * n)) :
    (S128.signExtend v n).toInt = (v.toNat : ℤ).bmod (2 ^ (8 * n)) := by
  by_cases h16 : n < 16
  · rw [signExtend_eq_sext ⟨hn.1, h16⟩ hv, Mir.ConstFold.toInt_sext (by omega) hv]
  · have hn : n = 16 := by omega
    rw [S128.signExtend, if_neg (fun h => h16 h.1), hn, S128.toInt, BitVec.toInt_eq_toNat_bmod]
    rfl

end Values

end Mrustc.Int128
