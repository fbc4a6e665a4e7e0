import Mrustc.Comparison.Common
import Mrustc.Mir.ConstGenerics

/-! # Encoded literals

The bytes of a constant with the pointers in it. A slice is compared by its bytes and then by the pointers from
its start on. Integers are written into a literal and read back from a slice.
-/

namespace Mrustc.Hir.Encoded
open Mrustc.Comparison Int128 Mir.Monomorph

/-- What a relocation points to: an item, or bytes without a name. -/
inductive RelocTarget (P : Type)
  | named (p : P)
  | bytes (bytes : List UInt8)

structure Reloc (P : Type) where
  ofs : ℕ
  len : ℕ
  target : RelocTarget P

/-- All that makes a literal appends its relocations in the order of their offsets. -/
structure EncodedLiteral (P : Type) where
  bytes : List UInt8
  relocations : List (Reloc P)
  sorted : relocations.Pairwise fun r s => r.ofs < s.ofs

/-- `EncodedLiteralSlice` -/
structure Slice (P : Type) where
  base : EncodedLiteral P
  ofs : ℕ
  size : ℕ
  fits : ofs + size ≤ base.bytes.length

variable {P : Type}

namespace Slice

/-- The slice of a whole literal. -/
def ofLiteral (base : EncodedLiteral P) : Slice P := ⟨base, 0, base.bytes.length, by simp⟩

/-- `slice`, `none` where an assertion fails -/
def slice (x : Slice P) (ofs len : ℕ) : Option (Slice P) :=
  if h : ofs + len ≤ x.size then
    some ⟨x.base, x.ofs + ofs, len, by
      have := x.fits
      omega⟩
  else none

/-- Every slice is one of its literal. -/
theorem slice_ofLiteral (x : Slice P) : (ofLiteral x.base).slice x.ofs x.size = some x := by
  have hfits := x.fits
  simp [slice, ofLiteral, hfits]

variable (x y : Slice P)

def bytes : List UInt8 := (x.base.bytes.drop x.ofs).take x.size

/-- The relocations from the first at or after the start on. -/
def fromStart : List (Reloc P) := x.base.relocations.dropWhile fun r => ¬ x.ofs ≤ r.ofs

end Slice

/-! ## Comparison -/

section Compare

variable (ordPath : P → P → Ordering)

/-- The order of targets: unnamed bytes before paths. -/
def ordTarget : RelocTarget P → RelocTarget P → Ordering
  | .bytes a, .bytes b => List.compareLex compare a b
  | .bytes _, .named _ => .lt
  | .named _, .bytes _ => .gt
  | .named p, .named q => ordPath p q

/-- Paths are compared by their order. -/
def sameTarget : RelocTarget P → RelocTarget P → Bool
  | .bytes a, .bytes b => a = b
  | .named p, .named q => ordPath p q = .eq
  | _, _ => false

/-- The loop of `operator==` over the relocations. -/
def eqLoop (ofs ofs' : ℕ) : List (Reloc P) → List (Reloc P) → Bool
  | r :: rs, s :: ss =>
    if r.ofs - ofs ≠ s.ofs - ofs' then false
    else if r.len ≠ s.len then false
    else if ¬ sameTarget ordPath r.target s.target then false
    else eqLoop ofs ofs' rs ss
  | _, _ => true

/-- The comparison of two relocations in the loop of `ord`. -/
def ordReloc (ofs ofs' : ℕ) (r s : Reloc P) : Ordering :=
  (compare (r.ofs - ofs) (s.ofs - ofs')).then
    ((compare r.len s.len).then (ordTarget ordPath r.target s.target))

/-- The loop of `ord` over the relocations. -/
def ordLoop (ofs ofs' : ℕ) : List (Reloc P) → List (Reloc P) → Ordering
  | r :: rs, s :: ss => (ordReloc ordPath ofs ofs' r s).then (ordLoop ofs ofs' rs ss)
  | _, _ => .eq

namespace Slice

variable (x y : Slice P)

/-- `operator==` -/
def eq : Bool :=
  if x.size ≠ y.size then false
  else if x.bytes ≠ y.bytes then false
  else eqLoop ordPath x.ofs y.ofs x.fromStart y.fromStart

/-- `ord`: the data first, then the sizes. -/
def ord : Ordering :=
  (common compare x.bytes y.bytes).then
    ((compare x.size y.size).then (ordLoop ordPath x.ofs y.ofs x.fromStart y.fromStart))

end Slice

end Compare

/-! ## Integers -/

/-- The place of byte `i` of an integer. -/
def bitOf (bigEndian : Bool) (size i : ℕ) : ℕ := if bigEndian then (size - 1 - i) * 8 else i * 8

/-- One round of the loop of `write_uint` -/
def writeByte (bigEndian : Bool) (ofs size : ℕ) (v : UInt64) (bytes : List UInt8) (i : ℕ) : List UInt8 :=
  if bitOf bigEndian size i < 64 then bytes.set (ofs + i) (UInt8.ofNat (v.toNat >>> bitOf bigEndian size i))
  else bytes

/-- `write_uint` on the bytes, `none` where the assertion fails. -/
def writeUint (bigEndian : Bool) (bytes : List UInt8) (ofs size : ℕ) (v : UInt64) : Option (List UInt8) :=
  if ofs + size ≤ bytes.length then some ((List.range size).foldl (writeByte bigEndian ofs size v) bytes) else none

/-- `EncodedLiteral::write_uint` -/
def EncodedLiteral.writeUint (lit : EncodedLiteral P) (target : Mir.Target) (ofs size : ℕ) (v : UInt64) :
    Option (EncodedLiteral P) :=
  (Encoded.writeUint target.bigEndian lit.bytes ofs size v).map fun bytes => {lit with bytes}

/-- `read_uint` -/
def Slice.readUint (x : Slice P) (target : Mir.Target) (size : ℕ) : Except Bug U128 :=
  Mir.Monomorph.readUint target x.bytes size

/-- `read_sint` -/
def Slice.readSint (x : Slice P) (target : Mir.Target) (size : ℕ) : Except Bug S128 :=
  Mir.Monomorph.readSint target x.bytes size

end Mrustc.Hir.Encoded
