import Mathlib
import Mrustc.Codec.Varint

/-! # The protocol between the compiler and a macro

`Reader` and `Writer` of the macro library. What panics is `none`, and arithmetic wraps. A double is
its bytes in memory.
-/

namespace Mrustc.ProcMacro.Protocol
open Codec

section Strings

def utf8 (s : String) : List UInt8 := s.toUTF8.data.toList

def fromUtf8 (bytes : List UInt8) : Option String := String.fromUTF8? ⟨bytes.toArray⟩

theorem fromUtf8_utf8 (s : String) : fromUtf8 (utf8 s) = some s := by
  have h : (⟨(utf8 s).toArray⟩ : ByteArray) = s.toByteArray := by simp [utf8]
  rw [fromUtf8, h, String.fromUTF8?, dif_pos s.isValidUTF8]
  rfl

theorem utf8_injective : Function.Injective utf8 := by
  intro s t h
  have := congrArg fromUtf8 h
  rwa [fromUtf8_utf8, fromUtf8_utf8, Option.some.injEq] at this

theorem utf8_of_fromUtf8 {bytes : List UInt8} {s : String} (h : fromUtf8 bytes = some s) :
    utf8 s = bytes := by
  rw [fromUtf8, String.fromUTF8?] at h
  split at h
  · cases h
    simp [utf8, String.fromUTF8]
  · cases h

end Strings

structure SpanDef where
  idx : BitVec 64
  parentIdx : BitVec 64
  path : String
  isPathReal : Bool
  startLine : BitVec 64
  endLine : BitVec 64
  startOfs : BitVec 64
  endOfs : BitVec 64
  deriving DecidableEq

inductive Token
  | endOfStream
  | symbol (v : String)
  | ident (v : String)
  | lifetime (v : String)
  | string (v : String)
  | byteString (v : List UInt8)
  | char (v : Char)
  | unsigned (v : BitVec 128) (sz : UInt8)
  | signed (v : BitVec 128) (sz : UInt8)
  | float (v : Vector UInt8 8) (sz : UInt8)
  | spanRef (idx : BitVec 64)
  | spanDef (sd : SpanDef)
  deriving DecidableEq

section Reader

def getb : List UInt8 → Option (UInt8 × List UInt8)
  | [] => none
  | b :: bs => some (b, bs)

/-- At most 18 bytes may ask for another one. -/
def getU128v (bs : List UInt8) : Option (BitVec 128 × List UInt8) := do
  let (rawRv, bs) ← readVarint 128 (fun ofs => decide (ofs < 18 * 7)) 0 0 bs
  some (BitVec.ofNat 128 rawRv, bs)

/-- Zig-zag encoding. -/
def getI128v (bs : List UInt8) : Option (BitVec 128 × List UInt8) := do
  let (rawRv, bs) ← getU128v bs
  if rawRv &&& 1 ≠ 0 then some (-((rawRv >>> 1) + 1), bs) else some (rawRv >>> 1, bs)

def getByteVec (bs : List UInt8) : Option (List UInt8 × List UInt8) := do
  let (size, bs) ← getU128v bs
  if size.toNat < 2 ^ 30 then
    if size.toNat ≤ bs.length then some (bs.take size.toNat, bs.drop size.toNat) else none
  else none

def getString (bs : List UInt8) : Option (String × List UInt8) := do
  let (raw, bs) ← getByteVec bs
  let s ← fromUtf8 raw
  some (s, bs)

def getF64 (bs : List UInt8) : Option (Vector UInt8 8 × List UInt8) :=
  if h : 8 ≤ bs.length then some (⟨(bs.take 8).toArray, by simp [h]⟩, bs.drop 8) else none

def getUsize (bs : List UInt8) : Option (BitVec 64 × List UInt8) := do
  let (v, bs) ← getU128v bs
  some (v.setWidth 64, bs)

def getChar (bs : List UInt8) : Option (Char × List UInt8) := do
  let (v, bs) ← getU128v bs
  if v.toNat < 0x10FFFF then
    if h : v.toNat.isValidChar then some (Char.ofNatAux v.toNat h, bs) else none
  else none

def getSpanDef (bs : List UInt8) : Option (SpanDef × List UInt8) := do
  let (idx, bs) ← getUsize bs
  let (parentIdx, bs) ← getUsize bs
  let (path, bs) ← getString bs
  let (real, bs) ← getb bs
  let (startLine, bs) ← getUsize bs
  let (endLine, bs) ← getUsize bs
  let (startOfs, bs) ← getUsize bs
  let (endOfs, bs) ← getUsize bs
  some (⟨idx, parentIdx, path, real != 0, startLine, endLine, startOfs, endOfs⟩, bs)

/-- `read_ent`: nothing is read at the end of the input. -/
def readEnt : List UInt8 → Option (Option Token × List UInt8)
  | [] => some (none, [])
  | hdr :: bs => do
    let (t, bs) ← match hdr.toNat with
      | 0 => some (.endOfStream, bs)
      | 1 => (getString bs).map fun (v, bs) => (.symbol v, bs)
      | 2 => (getString bs).map fun (v, bs) => (.ident v, bs)
      | 3 => (getString bs).map fun (v, bs) => (.lifetime v, bs)
      | 4 => (getString bs).map fun (v, bs) => (.string v, bs)
      | 5 => (getByteVec bs).map fun (v, bs) => (.byteString v, bs)
      | 6 => (getChar bs).map fun (v, bs) => (.char v, bs)
      | 7 => do
        let (ty, bs) ← getb bs
        let (val, bs) ← getU128v bs
        some (Token.unsigned val ty, bs)
      | 8 => do
        let (ty, bs) ← getb bs
        let (val, bs) ← getI128v bs
        some (.signed val ty, bs)
      | 9 => do
        let (ty, bs) ← getb bs
        let (val, bs) ← getF64 bs
        some (.float val ty, bs)
      | 10 => (getUsize bs).map fun (idx, bs) => (.spanRef idx, bs)
      | 11 => (getSpanDef bs).map fun (sd, bs) => (.spanDef sd, bs)
      | _ => none
    some (some t, bs)

end Reader

section Writer

def putU128v (v : BitVec 128) : List UInt8 := varint v.toNat

def putI128v (v : BitVec 128) : List UInt8 :=
  if v.toInt < 0 then putU128v ((v + 1) <<< 1 ||| 1) else putU128v (v <<< 1)

def putBytes (v : List UInt8) : List UInt8 := putU128v (BitVec.ofNat 128 v.length) ++ v

def putUsize (v : BitVec 64) : List UInt8 := putU128v (v.setWidth 128)

def putSpanDef (sd : SpanDef) : List UInt8 :=
  putUsize sd.idx ++ putUsize sd.parentIdx ++ putBytes (utf8 sd.path) ++
    [if sd.isPathReal then 1 else 0] ++ putUsize sd.startLine ++ putUsize sd.endLine ++
    putUsize sd.startOfs ++ putUsize sd.endOfs

def writeEnt : Token → List UInt8
  | .endOfStream => [0]
  | .symbol v => 1 :: putBytes (utf8 v)
  | .ident v => 2 :: putBytes (utf8 v)
  | .lifetime v => 3 :: putBytes (utf8 v)
  | .string v => 4 :: putBytes (utf8 v)
  | .byteString v => 5 :: putBytes v
  | .char v => 6 :: putU128v (BitVec.ofNat 128 v.toNat)
  | .unsigned v sz => 7 :: sz :: putU128v v
  | .signed v sz => 8 :: sz :: putI128v v
  | .float v sz => 9 :: sz :: v.toList
  | .spanRef idx => 10 :: putUsize idx
  | .spanDef sd => 11 :: putSpanDef sd

def writeSym (v : List UInt8) : List UInt8 := 1 :: putBytes v

/-- A symbol of one character, taken as a byte. -/
def writeSym1 (ch : Char) : List UInt8 := [1, 1, UInt8.ofNat ch.toNat]

end Writer

section RoundTrip

variable {rest bs : List UInt8}

@[simp] theorem getb_cons (b : UInt8) : getb (b :: rest) = some (b, rest) := rfl

@[simp] theorem getU128v_put (v : BitVec 128) : getU128v (putU128v v ++ rest) = some (v, rest) := by
  have hlt : v.toNat * 2 ^ 0 < 2 ^ 128 := by simpa using v.isLt
  rw [getU128v, putU128v, readVarint_append (by norm_num) hlt ?_]
  · simp
  · intro k hk
    simp only [decide_eq_true_eq]
    omega

@[simp] theorem getUsize_put (v : BitVec 64) : getUsize (putUsize v ++ rest) = some (v, rest) := by
  simp [getUsize, putUsize]

theorem getByteVec_put {v : List UInt8} (h : v.length < 2 ^ 30) :
    getByteVec (putBytes v ++ rest) = some (v, rest) := by
  have hlen : (BitVec.ofNat 128 v.length).toNat = v.length := by
    rw [BitVec.toNat_ofNat]
    exact Nat.mod_eq_of_lt (by omega)
  simp only [getByteVec, putBytes, List.append_assoc, getU128v_put, Option.bind_eq_bind,
    Option.bind_some, hlen]
  rw [if_pos h, if_pos (by simp), List.take_left, List.drop_left]

theorem getString_put {v : String} (h : (utf8 v).length < 2 ^ 30) :
    getString (putBytes (utf8 v) ++ rest) = some (v, rest) := by
  simp [getString, getByteVec_put h, fromUtf8_utf8]

@[simp] theorem getF64_put (v : Vector UInt8 8) : getF64 (v.toList ++ rest) = some (v, rest) := by
  have htake : (v.toList ++ rest).take 8 = v.toList := List.take_left' (by simp)
  have hdrop : (v.toList ++ rest).drop 8 = rest := List.drop_left' (by simp)
  rw [getF64, dif_pos (by simp)]
  simp only [htake, hdrop, Option.some.injEq, Prod.mk.injEq, and_true]
  apply Vector.toArray_inj.mp
  exact Array.toArray_toList

/-- A byte vector that is read is short. -/
theorem getByteVec_length {v : List UInt8} (h : getByteVec bs = some (v, rest)) : v.length < 2 ^ 30 := by
  obtain ⟨⟨size, bs'⟩, -, h⟩ := Option.bind_eq_some_iff.mp h
  simp only at h
  split_ifs at h with hsize hlen
  cases h
  rw [List.length_take]
  omega

theorem getString_length {v : String} (h : getString bs = some (v, rest)) :
    (utf8 v).length < 2 ^ 30 := by
  obtain ⟨⟨raw, bs'⟩, hraw, h⟩ := Option.bind_eq_some_iff.mp h
  obtain ⟨s, hs, h⟩ := Option.bind_eq_some_iff.mp h
  cases h
  rw [utf8_of_fromUtf8 hs]
  exact getByteVec_length hraw

theorem getString_put_iff (v : String) :
    getString (putBytes (utf8 v) ++ rest) = some (v, rest) ↔ (utf8 v).length < 2 ^ 30 :=
  ⟨getString_length, getString_put⟩

theorem getByteVec_put_iff (v : List UInt8) :
    getByteVec (putBytes v ++ rest) = some (v, rest) ↔ v.length < 2 ^ 30 :=
  ⟨getByteVec_length, getByteVec_put⟩

/-- The last character is refused. -/
theorem getChar_put_iff (v : Char) :
    getChar (putU128v (BitVec.ofNat 128 v.toNat) ++ rest) = some (v, rest) ↔ v.toNat ≠ 0x10FFFF := by
  have hvalid : v.toNat.isValidChar := v.valid
  have hlt : v.toNat < 0x110000 := by
    obtain h | h := hvalid <;> omega
  have hmod : (BitVec.ofNat 128 v.toNat).toNat = v.toNat := by
    rw [BitVec.toNat_ofNat]
    exact Nat.mod_eq_of_lt (by omega)
  simp only [getChar, getU128v_put, Option.bind_eq_bind, Option.bind_some, hmod]
  constructor
  · intro h he
    simp [he] at h
  · intro h
    rw [if_pos (by omega), dif_pos hvalid]
    rfl

theorem two_mul_or_one (n : ℕ) : 2 * n ||| 1 = 2 * n + 1 :=
  (Nat.two_pow_add_eq_or_of_lt (i := 1) (by norm_num) n).symm

theorem toNat_one : BitVec.toNat (1 : BitVec 128) = 1 := rfl

theorem toNat_shiftLeft_or_one (v : BitVec 128) :
    (v <<< 1 ||| 1).toNat = 2 * (v.toNat % 2 ^ 127) + 1 := by
  have h : v.toNat * 2 % 2 ^ 128 = 2 * (v.toNat % 2 ^ 127) := by omega
  rw [BitVec.toNat_or, BitVec.toNat_shiftLeft, Nat.shiftLeft_eq, pow_one, h, toNat_one, two_mul_or_one]

theorem toInt_of_neg {v : BitVec 128} (h : v.toInt < 0) :
    2 ^ 127 ≤ v.toNat ∧ v.toInt = v.toNat - 2 ^ 128 := by
  have hneg : 2 ^ 127 ≤ v.toNat := by
    by_contra hlt
    rw [BitVec.toInt_eq_toNat_of_lt (by omega)] at h
    omega
  refine ⟨hneg, ?_⟩
  rw [BitVec.toInt_eq_toNat_cond]
  split <;> omega

/-- A number from zero on is read as it was written. -/
theorem getI128v_put_of_nonneg {v : BitVec 128} (h : 0 ≤ v.toInt) :
    getI128v (putI128v v ++ rest) = some (v, rest) := by
  have hlt : v.toNat < 2 ^ 127 := by
    by_contra hge
    rw [BitVec.toInt_eq_toNat_cond] at h
    have := v.isLt
    split at h <;> omega
  have heven : v <<< 1 &&& 1 = 0 := by
    apply BitVec.eq_of_toNat_eq
    simp [BitVec.toNat_shiftLeft, Nat.shiftLeft_eq, Nat.and_one_is_mod]
  have hhalf : (v <<< 1) >>> 1 = v := by
    apply BitVec.eq_of_toNat_eq
    rw [BitVec.toNat_ushiftRight, BitVec.toNat_shiftLeft, Nat.shiftLeft_eq, Nat.shiftRight_eq_div_pow]
    omega
  rw [putI128v, if_neg (by omega), getI128v, getU128v_put]
  simp only [Option.bind_eq_bind, Option.bind_some]
  rw [if_neg (not_not_intro heven), hhalf]

/-- Below zero the writer adds one before it doubles, and the reader halves before it adds one. -/
theorem getI128v_put_of_neg {v : BitVec 128} (h : v.toInt < 0) :
    getI128v (putI128v v ++ rest) = some (-(((v + 1) <<< 1 ||| 1) >>> 1 + 1), rest) := by
  have hodd : ((v + 1) <<< 1 ||| 1) &&& 1 ≠ 0 := by
    intro hzero
    have := congrArg BitVec.toNat hzero
    rw [BitVec.toNat_and, toNat_shiftLeft_or_one, toNat_one, Nat.and_one_is_mod] at this
    simp [Nat.add_mod] at this
  rw [putI128v, if_pos h, getI128v, getU128v_put]
  simp only [Option.bind_eq_bind, Option.bind_some]
  rw [if_pos hodd]

/-- The numbers for which the two agree. -/
def zigzag (v : BitVec 128) : Bool := 0 ≤ v.toInt ∨ v.toInt = -1 ∨ v.toInt = -(2 ^ 126 + 1)

theorem getI128v_put_iff (v : BitVec 128) :
    getI128v (putI128v v ++ rest) = some (v, rest) ↔ zigzag v = true := by
  rw [zigzag, decide_eq_true_eq]
  rcases le_or_gt 0 v.toInt with h | h
  · exact iff_of_true (getI128v_put_of_nonneg h) (.inl h)
  · have hhalf : (((v + 1) <<< 1 ||| 1) >>> 1).toNat = (v + 1).toNat % 2 ^ 127 := by
      rw [BitVec.toNat_ushiftRight, toNat_shiftLeft_or_one, Nat.shiftRight_eq_div_pow]
      omega
    rw [getI128v_put_of_neg h, Option.some_inj, Prod.mk.injEq, and_iff_left rfl, or_iff_right (by omega)]
    generalize ((v + 1) <<< 1 ||| 1) >>> 1 = w at hhalf ⊢
    obtain ⟨hge, hint⟩ := toInt_of_neg h
    have hlt := v.isLt
    rw [BitVec.toNat_add, toNat_one] at hhalf
    rw [hint, ← BitVec.toNat_inj, BitVec.toNat_neg, BitVec.toNat_add, hhalf, toNat_one]
    omega

/-- A span is read with its path. -/
theorem getSpanDef_put_iff (sd : SpanDef) :
    getSpanDef (putSpanDef sd ++ rest) = some (sd, rest) ↔ (utf8 sd.path).length < 2 ^ 30 := by
  constructor
  · intro h
    simp only [getSpanDef, putSpanDef, List.append_assoc, getUsize_put, Option.bind_eq_bind,
      Option.bind_some] at h
    obtain ⟨⟨path, bs⟩, hpath, h⟩ := Option.bind_eq_some_iff.mp h
    have hlen := getString_length hpath
    simp only [Option.bind_eq_some_iff] at h
    obtain ⟨_, _, _, _, _, _, _, _, _, _, hsd⟩ := h
    rw [Option.some_inj, Prod.mk.injEq] at hsd
    have hpath : sd.path = path := by rw [← hsd.1]
    rwa [hpath]
  · intro h
    obtain ⟨idx, parentIdx, path, real, startLine, endLine, startOfs, endOfs⟩ := sd
    simp only [getSpanDef, putSpanDef, List.append_assoc, getUsize_put, Option.bind_eq_bind,
      Option.bind_some, getString_put h, List.cons_append, List.nil_append, getb_cons]
    cases real <;> rfl

/-- The tokens that are read as they were written. -/
def Token.readsBack : Token → Bool
  | .symbol v | .ident v | .lifetime v | .string v => (utf8 v).length < 2 ^ 30
  | .byteString v => v.length < 2 ^ 30
  | .char v => v.toNat ≠ 0x10FFFF
  | .signed v _ => zigzag v
  | .spanDef sd => (utf8 sd.path).length < 2 ^ 30
  | _ => true

theorem read_map_iff {α : Type} {f : α → Token} (hf : Function.Injective f) {x : Option (α × List UInt8)}
    {v : α} : ((x.map fun (v, bs) => (f v, bs)).bind fun (t, bs) => some (some t, bs)) =
      some (some (f v), rest) ↔ x = some (v, rest) := by
  cases x with
  | none => simp
  | some x =>
    obtain ⟨w, bs⟩ := x
    simp [hf.eq_iff]

/-- What the writer writes of a token the reader reads, and no more, exactly for these tokens. -/
theorem readEnt_writeEnt_iff (t : Token) :
    readEnt (writeEnt t ++ rest) = some (some t, rest) ↔ t.readsBack = true := by
  cases t with
  | endOfStream => exact iff_of_true rfl rfl
  | symbol v =>
    rw [Token.readsBack, decide_eq_true_eq, ← @getString_put_iff rest v]
    exact read_map_iff fun _ _ => Token.symbol.inj
  | ident v =>
    rw [Token.readsBack, decide_eq_true_eq, ← @getString_put_iff rest v]
    exact read_map_iff fun _ _ => Token.ident.inj
  | lifetime v =>
    rw [Token.readsBack, decide_eq_true_eq, ← @getString_put_iff rest v]
    exact read_map_iff fun _ _ => Token.lifetime.inj
  | string v =>
    rw [Token.readsBack, decide_eq_true_eq, ← @getString_put_iff rest v]
    exact read_map_iff fun _ _ => Token.string.inj
  | byteString v =>
    rw [Token.readsBack, decide_eq_true_eq, ← @getByteVec_put_iff rest v]
    exact read_map_iff fun _ _ => Token.byteString.inj
  | char v =>
    rw [Token.readsBack, decide_eq_true_eq, ← @getChar_put_iff rest v]
    exact read_map_iff fun _ _ => Token.char.inj
  | unsigned v sz =>
    refine iff_of_true ?_ rfl
    simp [readEnt, writeEnt]
  | signed v sz =>
    rw [Token.readsBack, ← @getI128v_put_iff rest v]
    have hread : readEnt (writeEnt (.signed v sz) ++ rest) =
        ((getI128v (putI128v v ++ rest)).map fun (v, bs) => (Token.signed v sz, bs)).bind
          fun (t, bs) => some (some t, bs) := by
      cases hget : getI128v (putI128v v ++ rest) <;> simp [readEnt, writeEnt, hget]
    rw [hread]
    exact read_map_iff fun _ _ h => (Token.signed.inj h).1
  | float v sz =>
    refine iff_of_true ?_ rfl
    simp [readEnt, writeEnt]
  | spanRef idx =>
    refine iff_of_true ?_ rfl
    simp [readEnt, writeEnt]
  | spanDef sd =>
    rw [Token.readsBack, decide_eq_true_eq, ← @getSpanDef_put_iff rest sd]
    exact read_map_iff fun _ _ => Token.spanDef.inj

end RoundTrip

end Mrustc.ProcMacro.Protocol
