import Mathlib.Tactic

/-! # Reading what was written

A reader takes symbols from the front of a stream or fails. It reads a value back from a text if it does
so whatever follows the text. Words are put together from their bytes.
-/

namespace Mrustc.Codec

/-- A partial reader of a stream of bytes. -/
abbrev Read (α : Type) := StateT (List UInt8) Option α

namespace Read

/-- The next `n` bytes. -/
def take (n : ℕ) : Read (List UInt8) := fun s =>
  if n ≤ s.length then some (s.take n, s.drop n) else none

def fail {α : Type} : Read α := fun _ => none

/-- The text `bs` is read as `v`, and nothing after it is touched. -/
def Reads {α : Type} (rd : Read α) (bs : List UInt8) (v : α) : Prop :=
  ∀ rest, rd (bs ++ rest) = some (v, rest)

variable {α β : Type} {rd : Read α} {f : α → Read β} {bs bs' : List UInt8} {v : α} {w : β}

theorem reads_pure (v : α) : Reads (pure v) [] v := fun _ => rfl

theorem reads_pure_of_eq {u : α} (h : u = v) : Reads (pure u) [] v := h ▸ reads_pure u

theorem Reads.bind (h : Reads rd bs v) (h' : Reads (f v) bs' w) : Reads (rd >>= f) (bs ++ bs') w := by
  intro rest
  change (rd (bs ++ bs' ++ rest)).bind _ = _
  rw [List.append_assoc, h]
  exact h' rest

/-- The last step of a reader takes nothing more. -/
theorem Reads.bind_nil (h : Reads rd bs v) (h' : Reads (f v) [] w) : Reads (rd >>= f) bs w := by
  have hb := h.bind h'
  rwa [List.append_nil] at hb

theorem reads_take (bs : List UInt8) : Reads (take bs.length) bs bs := by
  intro rest
  rw [take, if_pos (by simp), List.take_left, List.drop_left]

theorem take_of_le {n : ℕ} {s : List UInt8} (h : n ≤ s.length) :
    take n s = some (s.take n, s.drop n) := if_pos h

theorem take_of_lt {n : ℕ} {s : List UInt8} (h : s.length < n) : take n s = none :=
  if_neg (Nat.not_le.mpr h)

end Read

section Words

variable {w : ℕ}

/-- The byte of a word that starts at the bit `k`. -/
def byte (v : BitVec w) (k : ℕ) : UInt8 := ⟨(v >>> k).setWidth 8⟩

/-- A byte in the place of a word that starts at the bit `k`. -/
def word (w : ℕ) (b : UInt8) (k : ℕ) : BitVec w := b.toBitVec.setWidth w <<< k

/-- The bits of a word from `lo` below `hi`. -/
def mid (v : BitVec w) (lo hi : ℕ) : BitVec w := (v.extractLsb' lo (hi - lo)).setWidth w <<< lo

theorem getLsbD_mid (v : BitVec w) (lo hi i : ℕ) :
    (mid v lo hi).getLsbD i = (decide (lo ≤ i) && decide (i < hi) && v.getLsbD i) := by
  by_cases hi' : i < w
  · rw [mid, BitVec.getLsbD_shiftLeft, BitVec.getLsbD_setWidth, BitVec.getLsbD_extractLsb']
    by_cases hlo : lo ≤ i
    · rw [Nat.add_sub_cancel' hlo]
      simp only [hi', hlo, decide_true, Bool.true_and, Nat.not_lt.mpr hlo, decide_false, Bool.not_false]
      have h1 : i - lo < w := by omega
      have h2 : i - lo < hi - lo ↔ i < hi := by omega
      simp [h1, h2]
    · simp [hlo, Nat.lt_of_not_le hlo]
  · simp [BitVec.getLsbD_of_ge _ _ (Nat.not_lt.mp hi')]

theorem word_byte (v : BitVec w) (k : ℕ) : word w (byte v k) k = mid v k (k + 8) := by
  apply BitVec.eq_of_getLsbD_eq
  intro i hi
  rw [getLsbD_mid, word, byte, BitVec.getLsbD_shiftLeft, BitVec.getLsbD_setWidth, BitVec.getLsbD_setWidth,
    BitVec.getLsbD_ushiftRight]
  by_cases hk : k ≤ i
  · have h1 : i - k < w := by omega
    have h2 : i - k < 8 ↔ i < k + 8 := by omega
    simp [hi, hk, h1, h2, Nat.not_lt.mpr hk, Nat.add_sub_cancel' hk]
  · simp [hk, Nat.lt_of_not_le hk]

/-- Neighbouring parts join, the lower one first. -/
theorem mid_or (v : BitVec w) {a b c : ℕ} (hab : a ≤ b) (hbc : b ≤ c) : mid v a b ||| mid v b c = mid v a c := by
  apply BitVec.eq_of_getLsbD_eq
  intro i hi
  rw [BitVec.getLsbD_or, getLsbD_mid, getLsbD_mid, getLsbD_mid]
  grind

theorem or_mid (v : BitVec w) {a b c : ℕ} (hab : a ≤ b) (hbc : b ≤ c) : mid v b c ||| mid v a b = mid v a c := by
  rw [BitVec.or_comm, mid_or v hab hbc]

@[simp] theorem mid_self (v : BitVec w) (a : ℕ) : mid v a a = 0 := by
  apply BitVec.eq_of_getLsbD_eq
  intro i hi
  rw [getLsbD_mid]
  grind

/-- A number that fits is all in the bits that it fits in. -/
theorem mid_of_lt (v : BitVec w) {n : ℕ} (h : v.toNat < 2 ^ n) : mid v 0 n = v := by
  apply BitVec.eq_of_getLsbD_eq
  intro i hi
  rw [getLsbD_mid]
  by_cases hn : i < n
  · simp [hn]
  · have hpow : 2 ^ n ≤ 2 ^ i := Nat.pow_le_pow_right two_pos (Nat.not_lt.mp hn)
    have hbit : v.getLsbD i = false := by
      rw [← BitVec.testBit_toNat]
      exact Nat.testBit_lt_two_pow (by omega)
    simp [hn, hbit]

theorem mid_width (v : BitVec w) : mid v 0 w = v := mid_of_lt v v.isLt

end Words

end Mrustc.Codec
