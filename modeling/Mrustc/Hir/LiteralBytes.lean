import Mrustc.ConstEval.Bytes
import Mrustc.Hir.LiteralOrder

/-! # Integers in a literal

What `write_uint` leaves in its range: the low bytes of the value, and from the ninth on what was there. It is read
back as the value exactly if these are zero.
-/

namespace Mrustc.Hir.Encoded
open Mrustc.Comparison Int128 Mir.Monomorph

section Write

variable {bigEndian : Bool} {bytes : List UInt8} {ofs size n i : ℕ} {v : UInt64}

/-- The range of a write, the byte of the lowest bits first. -/
def range (bigEndian : Bool) (bytes : List UInt8) (ofs size : ℕ) : List UInt8 :=
  let range := (bytes.drop ofs).take size
  if bigEndian then range.reverse else range

/-- The low bytes of a value. -/
def lowBytes (v : UInt64) (n : ℕ) : List UInt8 := (List.range n).map fun i => UInt8.ofNat (v.toNat >>> (i * 8))

theorem bytesValue_range : bytesValue false (range bigEndian bytes ofs size) =
    bytesValue bigEndian ((bytes.drop ofs).take size) := by
  cases bigEndian
  · rfl
  · simp [range, bytesValue]

theorem bytesValue_lowBytes (v : UInt64) (n : ℕ) : bytesValue false (lowBytes v n) = v.toNat % 2 ^ (8 * n) := by
  induction n with
  | zero => simp [lowBytes, bytesValue, Nat.mod_one]
  | succ n ih =>
    have hsplit : lowBytes v (n + 1) = lowBytes v n ++ [UInt8.ofNat (v.toNat >>> (n * 8))] := by
      simp [lowBytes, List.range_succ]
    have hlength : (lowBytes v n).length = n := by simp [lowBytes]
    have hpow : 2 ^ (8 * (n + 1)) = 2 ^ (8 * n) * 2 ^ 8 := by rw [Nat.mul_succ, pow_add]
    have hlast : bytesValue false [UInt8.ofNat (v.toNat >>> (n * 8))] = v.toNat / 2 ^ (8 * n) % 2 ^ 8 := by
      rw [bytesValue_cons, bytesValue_nil, UInt8.toNat_ofNat', Nat.shiftRight_eq_div_pow, Nat.mul_comm n 8]
      simp
    rw [hsplit, bytesValue_append, ih, hlength, hlast, hpow, Nat.mod_mul]

theorem length_writeLoop (n : ℕ) :
    ((List.range n).foldl (writeByte bigEndian ofs size v) bytes).length = bytes.length := by
  induction n with
  | zero => rfl
  | succ n ih =>
    rw [List.range_succ, List.foldl_append, List.foldl_cons, List.foldl_nil, writeByte]
    split
    · rw [List.length_set, ih]
    · exact ih

theorem writeByte_getElem? {k : ℕ} (hk : ofs + k < bytes.length) :
    (writeByte bigEndian ofs size v bytes k)[i]? =
      if i = ofs + k ∧ bitOf bigEndian size k < 64 then
        some (UInt8.ofNat (v.toNat >>> bitOf bigEndian size k))
      else bytes[i]? := by
  unfold writeByte
  by_cases hbit : bitOf bigEndian size k < 64
  · by_cases hi : ofs + k = i
    · simp [hbit, ← hi, hk]
    · simp [hbit, List.getElem?_set_ne hi, Ne.symm hi]
  · simp [hbit]

/-- Byte for byte, the loop writes the bytes of the first 64 bits. -/
theorem writeLoop_getElem? (hfits : ofs + n ≤ bytes.length) :
    ((List.range n).foldl (writeByte bigEndian ofs size v) bytes)[i]? =
      if ofs ≤ i ∧ i < ofs + n ∧ bitOf bigEndian size (i - ofs) < 64 then
        some (UInt8.ofNat (v.toNat >>> bitOf bigEndian size (i - ofs)))
      else bytes[i]? := by
  induction n with
  | zero => rw [List.range_zero, List.foldl_nil, if_neg (by omega)]
  | succ n ih =>
    rw [List.range_succ, List.foldl_append, List.foldl_cons, List.foldl_nil,
      writeByte_getElem? (by rw [length_writeLoop]; omega), ih (by omega)]
    by_cases hi : i = ofs + n
    · subst hi
      by_cases hbit : bitOf bigEndian size n < 64 <;> simp [hbit]
    · have hlt : i < ofs + (n + 1) ↔ i < ofs + n := by omega
      simp only [hi, hlt, false_and, if_false]

/-- The position in the literal of the byte for the bits from `8 * k` on. -/
theorem range_getElem? {k : ℕ} (hk : k < size) (hfits : ofs + size ≤ bytes.length) :
    (range bigEndian bytes ofs size)[k]? = bytes[ofs + if bigEndian then size - 1 - k else k]? := by
  have hlength : ((bytes.drop ofs).take size).length = size := by
    rw [List.length_take, List.length_drop]
    omega
  cases bigEndian
  · simp [range, hk]
  · simp only [range, if_true]
    rw [List.getElem?_reverse (by omega), hlength, List.getElem?_take, if_pos (by omega), List.getElem?_drop]

theorem length_range (hfits : ofs + size ≤ bytes.length) : (range bigEndian bytes ofs size).length = size := by
  cases bigEndian <;> simp [range] <;> omega

/-- A write leaves the low bytes of the value, and the upper bytes of its range as they were. -/
theorem range_writeLoop (hfits : ofs + size ≤ bytes.length) :
    range bigEndian ((List.range size).foldl (writeByte bigEndian ofs size v) bytes) ofs size =
      lowBytes v (min size 8) ++ (range bigEndian bytes ofs size).drop 8 := by
  apply List.ext_getElem?
  intro k
  have hlow : (lowBytes v (min size 8)).length = min size 8 := by simp [lowBytes]
  by_cases hk : k < size
  · have hbit : bitOf bigEndian size (if bigEndian then size - 1 - k else k) = k * 8 := by
      cases bigEndian
      · rfl
      · simp only [bitOf, if_true]
        congr 1
        omega
    have hpos : (if bigEndian then size - 1 - k else k) < size := by
      split <;> omega
    rw [range_getElem? hk (by rwa [length_writeLoop]), writeLoop_getElem? hfits, Nat.add_sub_cancel_left, hbit]
    by_cases h8 : k < 8
    · rw [if_pos ⟨by omega, by omega, by omega⟩, List.getElem?_append_left (by omega)]
      simp [lowBytes, hk, h8]
    · rw [if_neg (by omega), List.getElem?_append_right (by omega), hlow, List.getElem?_drop,
        show 8 + (k - min size 8) = k by omega, range_getElem? hk hfits]
  · rw [List.getElem?_eq_none, List.getElem?_eq_none]
    · rw [List.length_append, List.length_drop, hlow, length_range hfits]
      omega
    · rw [length_range (by rwa [length_writeLoop])]
      omega

theorem bytesValue_eq_zero (bytes : List UInt8) : bytesValue false bytes = 0 ↔ ∀ b ∈ bytes, b = 0 := by
  induction bytes with
  | nil => simp [bytesValue_nil]
  | cons b bytes ih =>
    have hb : b.toNat = 0 ↔ b = 0 := by rw [← UInt8.toNat_inj]; rfl
    rw [bytesValue_cons, List.forall_mem_cons, ← ih, ← hb]
    omega

/-- The number in the range of a write: the value cut to the range, and the upper bytes that were there. -/
theorem bytesValue_writeLoop (hfits : ofs + size ≤ bytes.length) :
    bytesValue bigEndian
      ((((List.range size).foldl (writeByte bigEndian ofs size v) bytes).drop ofs).take size) =
      v.toNat % 2 ^ (8 * size) + 2 ^ 64 * bytesValue false ((range bigEndian bytes ofs size).drop 8) := by
  have hlow : (lowBytes v (min size 8)).length = min size 8 := by simp [lowBytes]
  have hv : v.toNat < 2 ^ 64 := v.toNat_lt
  rw [← bytesValue_range, range_writeLoop hfits, bytesValue_append, bytesValue_lowBytes, hlow]
  by_cases h8 : size ≤ 8
  · have hnone : (range bigEndian bytes ofs size).drop 8 = [] := by
      rw [List.drop_eq_nil_iff, length_range hfits]
      exact h8
    rw [Nat.min_eq_left h8, hnone, bytesValue_nil, mul_zero, mul_zero]
  · have hpow : 2 ^ 64 ≤ 2 ^ (8 * size) := Nat.pow_le_pow_right two_pos (by omega)
    rw [Nat.min_eq_right (by omega), Nat.mod_eq_of_lt (by omega : v.toNat < 2 ^ (8 * 8)),
      Nat.mod_eq_of_lt (hv.trans_le hpow)]

end Write

variable {P : Type}

/-- What a write is to leave: its range is read as the value cut to the range, with and without a sign, and the
other bytes and the relocations are those before. -/
structure Written (target : Mir.Target) (before after : EncodedLiteral P) (ofs size : ℕ) (v : UInt64) : Prop where
  readUint : ∀ x : Slice P, x.base = after → x.ofs = ofs → x.size = size →
    ∃ u, x.readUint target size = .ok u ∧ u.toNat = v.toNat % 2 ^ (8 * size)
  readSint : ∀ x : Slice P, x.base = after → x.ofs = ofs → x.size = size →
    ∃ s, x.readSint target size = .ok s ∧ s.toInt = ((v.toNat % 2 ^ (8 * size) : ℕ) : ℤ).bmod (2 ^ (8 * size))
  others : ∀ i, i < ofs ∨ ofs + size ≤ i → after.bytes[i]? = before.bytes[i]?
  relocations : after.relocations = before.relocations

/-- The bytes of a range for the bits from 64 on, of which there are none in up to eight bytes, are zero. -/
def UpperZero (target : Mir.Target) (lit : EncodedLiteral P) (ofs size : ℕ) : Prop :=
  ∀ b ∈ (range target.bigEndian lit.bytes ofs size).drop 8, b = 0

section Written

variable {target : Mir.Target} {lit : EncodedLiteral P} {ofs size : ℕ} {v : UInt64}

theorem upperZero_iff :
    UpperZero target lit ofs size ↔ bytesValue false ((range target.bigEndian lit.bytes ofs size).drop 8) = 0 :=
  (bytesValue_eq_zero _).symm

/-- A write is read back exactly if the bytes that it skips were zero. -/
theorem written_iff (h0 : 0 < size) (h16 : size ≤ 16) (hfits : ofs + size ≤ lit.bytes.length) :
    (∃ lit', lit.writeUint target ofs size v = some lit' ∧ Written target lit lit' ofs size v) ↔
      UpperZero target lit ofs size := by
  have hvalue : bytesValue target.bigEndian
      ((((List.range size).foldl (writeByte target.bigEndian ofs size v) lit.bytes).drop ofs).take size) = _ :=
    bytesValue_writeLoop hfits
  have hfits' : ofs + size ≤ ((List.range size).foldl (writeByte target.bigEndian ofs size v) lit.bytes).length := by
    rwa [length_writeLoop]
  rw [upperZero_iff]
  generalize hupper : bytesValue false ((range target.bigEndian lit.bytes ofs size).drop 8) = upper at hvalue ⊢
  have hread : ∀ x : Slice P,
      x.base.bytes = (List.range size).foldl (writeByte target.bigEndian ofs size v) lit.bytes →
      x.ofs = ofs → x.size = size →
      x.bytes.length = size ∧
        bytesValue target.bigEndian x.bytes = v.toNat % 2 ^ (8 * size) + 2 ^ 64 * upper := by
    intro x hbase hofs hsize
    constructor
    · rw [length_bytes, hsize]
    · rw [Slice.bytes, hbase, hofs, hsize, hvalue]
  rw [EncodedLiteral.writeUint, writeUint, if_pos hfits]
  simp only [Option.map_some, Option.some.injEq, exists_eq_left']
  constructor
  · intro hwritten
    rcases hwritten.readUint ⟨_, ofs, size, hfits'⟩ rfl rfl rfl with ⟨u, hu, hnum⟩
    have hbytes := hread ⟨⟨_, lit.relocations, lit.sorted⟩, ofs, size, hfits'⟩ rfl rfl rfl
    have hexact := readUint_eq target (hbytes.1.trans_le h16)
    rw [hbytes.1, hbytes.2] at hexact
    rcases hexact with ⟨u', hu', hnum'⟩
    have hsame : u = u' := Except.ok.inj (hu.symm.trans hu')
    rw [← hsame, hnum] at hnum'
    omega
  · intro hzero
    rw [hzero, mul_zero, add_zero] at hread
    constructor
    case readUint =>
      intro x hbase hofs hsize
      have hbytes := hread x (by rw [hbase]) hofs hsize
      have hexact := readUint_eq target (hbytes.1.trans_le h16)
      rw [hbytes.1, hbytes.2] at hexact
      exact hexact
    case readSint =>
      intro x hbase hofs hsize
      have hbytes := hread x (by rw [hbase]) hofs hsize
      have hexact := readSint_eq target (h0.trans_eq hbytes.1.symm) (hbytes.1.trans_le h16)
      rw [hbytes.1, hbytes.2] at hexact
      exact hexact
    case others =>
      intro i hi
      rw [writeLoop_getElem? hfits, if_neg (by omega)]
    case relocations => rfl

/-- Slices of a set are compared by content exactly if every two of them are comparable, and a written integer is
read back exactly if the bytes that the write skips were zero. -/
theorem compared_and_written {ordPath : P → P → Ordering} [Std.TransCmp ordPath] (s : Set (Slice P)) (h0 : 0 < size)
    (h16 : size ≤ 16) (hfits : ofs + size ≤ lit.bytes.length) :
    (ComparedByContent ordPath s ↔ ∀ x ∈ s, ∀ y ∈ s, Comparable ordPath x y) ∧
      ((∃ lit', lit.writeUint target ofs size v = some lit' ∧ Written target lit lit' ofs size v) ↔
        UpperZero target lit ofs size) :=
  ⟨comparedByContent_iff s, written_iff h0 h16 hfits⟩

end Written

/-- Pointers to two items. -/
def twoPointers (p q : ℕ) : EncodedLiteral ℕ where
  bytes := [0, 16, 0, 0, 0, 0, 0, 0, 0, 16, 0, 0, 0, 0, 0, 0]
  relocations := [⟨0, 8, .named p⟩, ⟨8, 8, .named q⟩]
  sorted := by simp

/-- The first of two pointers. -/
def firstPointer (p q : ℕ) : Slice ℕ := ⟨twoPointers p q, 0, 8, (by decide : 8 ≤ 16)⟩

/-- The same bytes without a pointer. -/
def noPointer : Slice ℕ := ⟨⟨[0, 16, 0, 0, 0, 0, 0, 0], [], .nil⟩, 0, 8, by decide⟩

/-- Sixteen bytes that are not zero. -/
def ones : EncodedLiteral ℕ := ⟨List.replicate 16 255, [], .nil⟩

def littleTarget : Mir.Target := ⟨32, false, by decide, by decide⟩

theorem compared_and_written_one :
    (ComparedByContent compare {firstPointer 1 2} ↔
      ∀ x ∈ ({firstPointer 1 2} : Set (Slice ℕ)), ∀ y ∈ ({firstPointer 1 2} : Set (Slice ℕ)), Comparable compare x y) ∧
    ((∃ lit', ones.writeUint littleTarget 0 4 1 = some lit' ∧ Written littleTarget ones lit' 0 4 1) ↔
      UpperZero littleTarget ones 0 4) :=
  compared_and_written _ (by decide) (by decide) (by decide)

/-- One pointer to one item, first in literals with different second pointers, is not equal to itself; it is equal to
its bytes without a pointer; and an integer written to sixteen bytes has the ones there in its upper half. -/
theorem firstPointer_differs :
    Same compare (firstPointer 1 2) (firstPointer 1 3) ∧
      (firstPointer 1 2).eq compare (firstPointer 1 3) = false ∧
      ¬ Same compare (firstPointer 1 2) noPointer ∧ (firstPointer 1 2).eq compare noPointer = true ∧
      (firstPointer 1 2).ord compare noPointer = .eq ∧
      ¬ ∃ lit', ones.writeUint littleTarget 0 16 1 = some lit' ∧ Written littleTarget ones lit' 0 16 1 := by
  constructor
  · exact ⟨rfl, .cons ⟨rfl, rfl, by decide⟩ .nil⟩
  constructor
  · rfl
  constructor
  · intro h
    have hlength := h.2.length_eq
    exact absurd hlength (by decide)
  constructor
  · rfl
  constructor
  · rfl
  · rw [written_iff (by decide) (by decide) (by decide)]
    intro h
    exact absurd (h 255 (by decide)) (by decide)

end Mrustc.Hir.Encoded
