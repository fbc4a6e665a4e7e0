import Mathlib.Tactic

/-! # Numbers of variable length

Seven bits to a byte, the lowest first; all bytes but the last have the high bit set. A reader has a
fixed width and may refuse to go on at some offset.
-/

namespace Mrustc.Codec

def varint (n : ℕ) : List UInt8 :=
  if n < 128 then [UInt8.ofNat n] else UInt8.ofNat (n % 128 + 128) :: varint (n / 128)

/-- Reads on from the offset `ofs`, adding to `acc`. -/
def readVarint (width : ℕ) (more : ℕ → Bool) (acc ofs : ℕ) : List UInt8 → Option (ℕ × List UInt8)
  | [] => none
  | b :: bs =>
    let acc := acc ||| (b.toNat % 128) <<< ofs % 2 ^ width
    if b.toNat < 128 then some (acc, bs)
    else if more ofs then readVarint width more acc (ofs + 7) bs
    else none

variable {width acc ofs n : ℕ} {more : ℕ → Bool}

theorem varint_ne_nil (n : ℕ) : varint n ≠ [] := by
  rw [varint]
  split <;> simp

theorem varint_zero : varint 0 = [0] := by
  rw [varint]
  simp

/-- A digit above all that was read so far is added to it. -/
theorem or_shiftLeft_digit (hacc : acc < 2 ^ ofs) {d : ℕ} (hd : d * 2 ^ ofs < 2 ^ width) :
    (acc ||| d <<< ofs % 2 ^ width) = acc + d * 2 ^ ofs := by
  rw [Nat.shiftLeft_eq, Nat.mod_eq_of_lt hd, Nat.or_comm, Nat.mul_comm,
    ← Nat.two_pow_add_eq_or_of_lt hacc, Nat.add_comm]

/-- What is written is read, with what follows it left. -/
theorem readVarint_append (hacc : acc < 2 ^ ofs) (hn : n * 2 ^ ofs < 2 ^ width)
    (hmore : ∀ k, k + 7 < width → more k = true) (rest : List UInt8) :
    readVarint width more acc ofs (varint n ++ rest) = some (acc + n * 2 ^ ofs, rest) := by
  induction n using varint.induct generalizing acc ofs with
  | case1 n hlt =>
    have hb : (UInt8.ofNat n).toNat = n := by simp; omega
    rw [varint, if_pos hlt]
    simp only [List.cons_append, List.nil_append, readVarint, hb]
    rw [if_pos hlt, Nat.mod_eq_of_lt hlt, or_shiftLeft_digit hacc hn]
  | case2 n hge ih =>
    have hb : (UInt8.ofNat (n % 128 + 128)).toNat = n % 128 + 128 := by simp; omega
    have hmod : (n % 128 + 128) % 128 = n % 128 := by omega
    have hpow : 2 ^ (ofs + 7) = 128 * 2 ^ ofs := by rw [pow_add]; ring
    have hsplit : n * 2 ^ ofs = n % 128 * 2 ^ ofs + n / 128 * 2 ^ (ofs + 7) := by
      rw [hpow, ← Nat.mul_assoc, ← Nat.add_mul]
      congr 1
      omega
    have hdigit : n % 128 * 2 ^ ofs < 2 ^ width := by omega
    have hofs : more ofs = true := by
      refine hmore ofs ((Nat.pow_lt_pow_iff_right (by norm_num)).mp (lt_of_le_of_lt ?_ hn))
      rw [hpow]
      exact Nat.mul_le_mul_right _ (by omega)
    have hnext : acc + n % 128 * 2 ^ ofs < 2 ^ (ofs + 7) := by
      have : n % 128 * 2 ^ ofs ≤ 127 * 2 ^ ofs := Nat.mul_le_mul_right _ (by omega)
      omega
    rw [varint, if_neg hge]
    simp only [List.cons_append, readVarint, hb, hmod]
    rw [if_neg (by omega), if_pos hofs, or_shiftLeft_digit hacc hdigit, ih hnext (by omega)]
    rw [hsplit, Nat.add_assoc]

end Mrustc.Codec
