import Mrustc.Codec.Reading
import Mrustc.Int128.S128

/-! # The low-level format of serialised crates

`Writer` and `Reader` without the compression below them. A failed assertion, an exception, an abort and
the end of the stream are `none`. Integers are their bits, a `double` its eight bytes.
-/

namespace Mrustc.Serialise
open Codec Codec.Read Int128

section Write

/-- `static_cast<uint8_t>` -/
def castU8 (x : BitVec 64) : UInt8 := ⟨x.setWidth 8⟩

/-- The number of elements of a container, which a `size_t` holds. -/
def size (n : ℕ) : Option (BitVec 64) := if n < 2 ^ 64 then some (BitVec.ofNat 64 n) else none

def writeU16 (v : BitVec 16) : List UInt8 := [byte v 0, byte v 8]

def writeU32 (v : BitVec 32) : List UInt8 := [byte v 0, byte v 8, byte v 16, byte v 24]

def writeU64 (v : BitVec 64) : List UInt8 :=
  [byte v 0, byte v 8, byte v 16, byte v 24, byte v 32, byte v 40, byte v 48, byte v 56]

/-- Variable-length encoded u64 (for array sizes) -/
def writeU64c (v : BitVec 64) : List UInt8 :=
  if v.toNat < 2 ^ 7 then [byte v 0]
  else if v.toNat < 2 ^ (6 + 16) then [castU8 (0x80 + v >>> 16), byte v 8, byte v 0]
  else if v.toNat < 2 ^ (5 + 32) then
    [castU8 (0xC0 + v >>> 32), byte v 24, byte v 16, byte v 8, byte v 0]
  else 0xFF :: writeU64 v

/-- The negation wraps for `INT64_MIN`. -/
def writeI64c (v : BitVec 64) : List UInt8 :=
  let sign := v.slt 0
  let va := if sign then -v else v
  writeU64c (va <<< 1 ||| if sign then 1 else 0)

def writeU128 (v : U128) : List UInt8 := writeU64 v.lo ++ writeU64 v.hi

def writeI128 (v : S128) : List UInt8 := writeU128 v.inner

def writeTag (t : BitVec 32) : Option (List UInt8) := if t.toNat < 256 then some [byte t 0] else none

def writeCount (c : BitVec 64) : Option (List UInt8) :=
  if c.toNat < 0xFD then some [byte c 0]
  else if c = 0xFFFFFFFF then some [0xFF]
  else if c.toNat < 2 ^ 16 then some (0xFD :: writeU16 (c.setWidth 16))
  else if c.toNat < 2 ^ 31 then some (0xFE :: writeU32 (c.setWidth 32))
  else none

def writeString (s : List UInt8) : Option (List UInt8) :=
  if s.length < 128 then some (UInt8.ofNat s.length :: s)
  else if s.length < 2 ^ (16 + 7) then
    some (UInt8.ofNat (128 + s.length >>> 16) :: writeU16 (BitVec.ofNat 16 (s.length &&& 0xFFFF)) ++ s)
  else none

def writeBool (v : Bool) : List UInt8 := [if v then 0xFF else 0x00]

/-- The loop of `raw_write_uint`, with `n` bytes of the buffer left. -/
def rawUintBytes (n : ℕ) (val : BitVec 64) : Option (List UInt8) :=
  if val = 0 then some []
  else match n with
    | 0 => none
    | n + 1 => do
      let bytes ← rawUintBytes n (val >>> 8)
      some (byte val 0 :: bytes)

def rawWriteUint (val : BitVec 64) : Option (List UInt8) :=
  if val.toNat < 0xC0 then some [byte val 0]
  else do
    let bytes ← rawUintBytes 8 val
    some (UInt8.ofNat (0xC0 + bytes.length) :: bytes)

def rawWriteLen (len : BitVec 64) : Option (List UInt8) :=
  if len.toNat < 0xFC - 0xC0 then some [castU8 (0xC0 + len)]
  else do
    let bytes ← rawWriteUint len
    some (0xFC :: bytes)

def rawWriteBytes (data : List UInt8) : Option (List UInt8) := do
  let len ← rawWriteLen (← size data.length)
  some (len ++ data)

end Write

section Read

def readU8 : Read UInt8 := do
  let v ← take 1
  pure (v.getD 0 0)

def readU16 : Read (BitVec 16) := do
  let buf ← take 2
  pure (word 16 (buf.getD 0 0) 0 ||| word 16 (buf.getD 1 0) 8)

def readU32 : Read (BitVec 32) := do
  let buf ← take 4
  pure (word 32 (buf.getD 0 0) 0 ||| word 32 (buf.getD 1 0) 8 ||| word 32 (buf.getD 2 0) 16 |||
    word 32 (buf.getD 3 0) 24)

def readU64 : Read (BitVec 64) := do
  let buf ← take 8
  pure (word 64 (buf.getD 0 0) 0 ||| word 64 (buf.getD 1 0) 8 ||| word 64 (buf.getD 2 0) 16 |||
    word 64 (buf.getD 3 0) 24 ||| word 64 (buf.getD 4 0) 32 ||| word 64 (buf.getD 5 0) 40 |||
    word 64 (buf.getD 6 0) 48 ||| word 64 (buf.getD 7 0) 56)

def readU64c : Read (BitVec 64) := do
  let v ← readU8
  if v.toNat < 2 ^ 7 then pure (word 64 v 0)
  else if v.toNat < 0xC0 then do
    let b₁ ← readU8
    let b₀ ← readU8
    pure (word 64 (v &&& 0x3F) 16 ||| word 64 b₁ 8 ||| word 64 b₀ 0)
  else if v.toNat < 0xFF then do
    let b₃ ← readU8
    let b₂ ← readU8
    let b₁ ← readU8
    let b₀ ← readU8
    pure (word 64 (v &&& 0x3F) 32 ||| word 64 b₃ 24 ||| word 64 b₂ 16 ||| word 64 b₁ 8 ||| word 64 b₀ 0)
  else readU64

def readI64c : Read (BitVec 64) := do
  let va ← readU64c
  let sign := va.getLsbD 0
  let va := va >>> 1
  pure (if va = 0 ∧ sign then BitVec.intMin 64 else if sign then -va else va)

def readU128 : Read U128 := do
  let lo ← readU64
  let hi ← readU64
  pure ⟨lo, hi⟩

def readI128 : Read S128 := do pure ⟨← readU128⟩

def readTag : Read (BitVec 32) := do pure ((← readU8).toBitVec.setWidth 32)

def readCount : Read (BitVec 64) := do
  let v ← readU8
  if v.toNat < 0xFD then pure (word 64 v 0)
  else if v = 0xFD then do pure ((← readU16).setWidth 64)
  else if v = 0xFE then do pure ((← readU32).setWidth 64)
  else pure 0xFFFFFFFF

def readString : Read (List UInt8) := do
  let len ← readU8
  if len.toNat < 128 then take len.toNat
  else do
    let lo ← readU16
    take ((len.toNat &&& 0x7F) <<< 16 ||| lo.toNat)

def readBool : Read Bool := do
  let v ← readU8
  if v = 0 then pure false else if v = 255 then pure true else fail

/-- The loop of `raw_read_uint` from the byte `p` on, with `n` bytes to go. -/
def rawUintLoop : (n p : ℕ) → BitVec 64 → Read (BitVec 64)
  | 0, _, rv => pure rv
  | n + 1, p, rv => do
    let b ← readU8
    rawUintLoop n (p + 1) (rv ||| word 64 b (8 * p))

def rawReadUint : Read (BitVec 64) := do
  let v ← readU8
  if 0xC0 + 8 < v.toNat then fail
  else if v.toNat < 0xC0 then pure (word 64 v 0)
  else rawUintLoop (v.toNat - 0xC0) 0 0

def rawReadLen : Read (BitVec 64) := do
  let v ← readU8
  if v.toNat < 0xC0 then fail
  else if v.toNat < 0xFC then pure (BitVec.ofNat 64 (v.toNat - 0xC0))
  else if v = 0xFC then rawReadUint
  else fail

/-- `raw_read_bytes_stdstring` -/
def rawReadBytes : Read (List UInt8) := do
  let len ← rawReadLen
  take len.toNat

end Read

section Calls

/-- A call of the writer with what it is given, or of the reader with what it returns. Objects are named by
a `const char*` on one side and by its text on the other. -/
inductive Item (N : Type)
  | u8 (v : UInt8)
  | u16 (v : BitVec 16)
  | u32 (v : BitVec 32)
  | u64 (v : BitVec 64)
  | i64 (v : BitVec 64)
  | u64c (v : BitVec 64)
  | i64c (v : BitVec 64)
  | u128 (v : U128)
  | i128 (v : S128)
  | double (v : Vector UInt8 8)
  | tag (t : BitVec 32)
  | count (c : BitVec 64)
  | string (s : List UInt8)
  | istring (s : List UInt8)
  | bool (v : Bool)
  | uint (val : BitVec 64)
  | len (len : BitVec 64)
  | bytes (data : List UInt8)
  | openObject (name : N)
  | openAnonObject
  | closeObject
  deriving DecidableEq

/-- A call of the reader. -/
inductive Request
  | u8 | u16 | u32 | u64 | i64 | u64c | i64c | u128 | i128 | double | tag | count | string | istring
  | bool | uint | len | bytes
  | openObject (name : List UInt8)
  | openAnonObject | closeObject
  deriving DecidableEq

variable {P : Type} [DecidableEq P] (text : P → List UInt8)

/-- The call of the reader that matches a call of the writer. -/
def Item.request : Item P → Request
  | u8 _ => .u8
  | u16 _ => .u16
  | u32 _ => .u32
  | u64 _ => .u64
  | i64 _ => .i64
  | u64c _ => .u64c
  | i64c _ => .i64c
  | u128 _ => .u128
  | i128 _ => .i128
  | double _ => .double
  | tag _ => .tag
  | count _ => .count
  | string _ => .string
  | istring _ => .istring
  | bool _ => .bool
  | uint _ => .uint
  | len _ => .len
  | bytes _ => .bytes
  | openObject name => .openObject (text name)
  | openAnonObject => .openAnonObject
  | closeObject => .closeObject

/-- What the reader is to return. -/
def Item.value : Item P → Item (List UInt8)
  | u8 v => .u8 v
  | u16 v => .u16 v
  | u32 v => .u32 v
  | u64 v => .u64 v
  | i64 v => .i64 v
  | u64c v => .u64c v
  | i64c v => .i64c v
  | u128 v => .u128 v
  | i128 v => .i128 v
  | double v => .double v
  | tag t => .tag t
  | count c => .count c
  | string s => .string s
  | istring s => .istring s
  | bool v => .bool v
  | uint val => .uint val
  | len l => .len l
  | bytes data => .bytes data
  | openObject name => .openObject (text name)
  | openAnonObject => .openAnonObject
  | closeObject => .closeObject

/-- `class Writer`. The maps are lists in the order of insertion. -/
structure Writer (P : Type) where
  /-- `m_inner` is set, so that what is written is kept. -/
  opened : Bool
  istringCache : List (List UInt8 × BitVec 32)
  objnameCache : List (P × BitVec 32)

namespace Writer

/-- A new writer, for the caching stage. -/
def new : Writer P := ⟨false, [], []⟩

/-- `write_string(const RcString&)`: counts the string before the file is open, then writes its index. -/
def writeIstring (w : Writer P) (s : List UInt8) : Option (Writer P × List UInt8) :=
  if w.opened then do
    let i ← w.istringCache.lookup s
    let bs ← writeCount (i.setWidth 64)
    some (w, bs)
  else
    match w.istringCache.lookup s with
    | some _ =>
      some ({w with istringCache := w.istringCache.map fun e => if e.1 = s then (s, e.2 + 1) else e}, [])
    | none => some ({w with istringCache := w.istringCache ++ [(s, 1)]}, [])

/-- A new name takes the next index, which an `unsigned` holds, and is written out. -/
def openObject (w : Writer P) (name : P) : Option (Writer P × List UInt8) :=
  match w.objnameCache.lookup name with
  | some i => do
    let key ← rawWriteUint (i.setWidth 64)
    some (w, 0xFD :: key)
  | none =>
    if w.objnameCache.length < 2 ^ 32 then do
      let i := BitVec.ofNat 32 w.objnameCache.length
      let key ← rawWriteUint (i.setWidth 64)
      let bs ← rawWriteBytes (text name)
      some ({w with objnameCache := w.objnameCache ++ [(name, i)]}, 0xFD :: key ++ bs)
    else none

/-- What a call hands to `write`. -/
def encode (w : Writer P) : Item P → Option (Writer P × List UInt8)
  | .u8 v => some (w, [v])
  | .u16 v => some (w, writeU16 v)
  | .u32 v => some (w, writeU32 v)
  | .u64 v => some (w, writeU64 v)
  | .i64 v => some (w, writeU64 v)
  | .u64c v => some (w, writeU64c v)
  | .i64c v => some (w, writeI64c v)
  | .u128 v => some (w, writeU128 v)
  | .i128 v => some (w, writeI128 v)
  | .double v => some (w, v.toList)
  | .tag t => (writeTag t).map (w, ·)
  | .count c => (writeCount c).map (w, ·)
  | .string s => (writeString s).map (w, ·)
  | .istring s => w.writeIstring s
  | .bool v => some (w, writeBool v)
  | .uint val => (rawWriteUint val).map (w, ·)
  | .len len => (rawWriteLen len).map (w, ·)
  | .bytes data => (rawWriteBytes data).map (w, ·)
  | .openObject name => w.openObject text name
  | .openAnonObject => some (w, [0xFE])
  | .closeObject => some (w, [0xFF])

/-- Nothing is written before the file is open. -/
def write (w : Writer P) (i : Item P) : Option (Writer P × List UInt8) := do
  let (w', bs) ← w.encode text i
  some (w', if w.opened then bs else [])

def writeAll (w : Writer P) : List (Item P) → Option (Writer P × List UInt8)
  | [] => some (w, [])
  | i :: is => do
    let (w, bs) ← w.write text i
    let (w, bs') ← w.writeAll is
    some (w, bs ++ bs')

def writeStrings : List (List UInt8) → Option (List UInt8)
  | [] => some []
  | s :: ss => do
    let bs ← writeString s
    let bs' ← writeStrings ss
    some (bs ++ bs')

/-- `Writer::open`: writes the table of strings in the order `sort` puts them in, and forgets the names. -/
def openFile (sort : List (List UInt8 × BitVec 32) → List (List UInt8 × BitVec 32)) (w : Writer P) :
    Option (Writer P × List UInt8) := do
  let sorted := (sort w.istringCache).map Prod.fst
  let n ← writeCount (← size sorted.length)
  let strings ← writeStrings sorted
  some (⟨true, sorted.zipIdx.map fun (s, i) => (s, BitVec.ofNat 32 i), []⟩, n ++ strings)

/-- The two stages of a crate: its strings are counted, then it is written. -/
def serialise (sort : List (List UInt8 × BitVec 32) → List (List UInt8 × BitVec 32)) (is : List (Item P)) :
    Option (List UInt8) := do
  let (w, _) ← new.writeAll text is
  let (w, table) ← w.openFile sort
  let (_, bs) ← w.writeAll text is
  some (table ++ bs)

end Writer

/-- `class Reader` -/
structure Reader where
  strings : List (List UInt8)
  objnameCache : List (List UInt8)

namespace Reader

def readIstring (r : Reader) : Read (List UInt8) := do
  let idx ← readCount
  match r.strings[idx.toNat]? with
  | some s => pure s
  | none => fail

/-- A key that is new is followed by its name. -/
def openObject (r : Reader) (name : List UInt8) : Read Reader := do
  let v ← readU8
  if v ≠ 0xFD then fail
  else do
    let key ← rawReadUint
    let names ← if key.toNat = r.objnameCache.length then do pure (r.objnameCache ++ [← rawReadBytes])
      else pure r.objnameCache
    if names[key.toNat]? = some name then pure {r with objnameCache := names} else fail

/-- `open_anon_object` and `close_object` expect one byte. -/
def expect (b : UInt8) : Read Unit := do
  let v ← readU8
  if v = b then pure () else fail

/-- A call that leaves the tables alone. -/
def plain {α : Type} (r : Reader) (rd : Read α) (f : α → Item (List UInt8)) :
    Read (Item (List UInt8) × Reader) := do
  let v ← rd
  pure (f v, r)

def read (r : Reader) : Request → Read (Item (List UInt8) × Reader)
  | .u8 => r.plain readU8 .u8
  | .u16 => r.plain readU16 .u16
  | .u32 => r.plain readU32 .u32
  | .u64 => r.plain readU64 .u64
  | .i64 => r.plain readU64 .i64
  | .u64c => r.plain readU64c .u64c
  | .i64c => r.plain readI64c .i64c
  | .u128 => r.plain readU128 .u128
  | .i128 => r.plain readI128 .i128
  | .double => r.plain (take 8) fun s => .double (Vector.ofFn fun i => s.getD i 0)
  | .tag => r.plain readTag .tag
  | .count => r.plain readCount .count
  | .string => r.plain readString .string
  | .istring => r.plain r.readIstring .istring
  | .bool => r.plain readBool .bool
  | .uint => r.plain rawReadUint .uint
  | .len => r.plain rawReadLen .len
  | .bytes => r.plain rawReadBytes .bytes
  | .openObject name => do
    let r ← r.openObject name
    pure (.openObject name, r)
  | .openAnonObject => r.plain (expect 0xFE) fun _ => .openAnonObject
  | .closeObject => r.plain (expect 0xFF) fun _ => .closeObject

def readAll (r : Reader) : List Request → Read (List (Item (List UInt8)) × Reader)
  | [] => pure ([], r)
  | q :: qs => do
    let (v, r) ← r.read q
    let (vs, r) ← r.readAll qs
    pure (v :: vs, r)

def readStrings : ℕ → Read (List (List UInt8))
  | 0 => pure []
  | n + 1 => do
    let s ← readString
    let ss ← readStrings n
    pure (s :: ss)

/-- The constructor, which reads the table of strings. -/
def new : Read Reader := do
  let n ← readCount
  let strings ← readStrings n.toNat
  pure ⟨strings, []⟩

/-- A file, read by the calls `qs`. -/
def deserialise (qs : List Request) : Read (List (Item (List UInt8)) × Reader) := do
  let r ← new
  r.readAll qs

end Reader

end Calls

end Mrustc.Serialise
