import Mrustc.Codec.Reading

/-! # The buffered input of a crate file

`Reader::read` serves what the buffer of 1024 bytes holds, then fills it again or goes past it. The
decompression is a parameter: it takes input and hands out as much of the stream as there is room for.
-/

namespace Mrustc.Serialise.Stream

/-- Why a call does not return. -/
inductive Failure
  | outOfFuel
  /-- zlib inflate error -/
  | inflateError
  /-- Requested `len` bytes from buffer, got `used` -/
  | requested (len used : ℕ)
  deriving DecidableEq

variable {Z : Type}

/-- `inflate`: from the state, the input and the room, the next state, the input left and the output. -/
abbrev Inflate (Z : Type) := Z → List UInt8 → ℕ → Option (Z × List UInt8 × List UInt8)

/-- `class ReaderInner`: the rest of the file, and what was taken of it but not yet decompressed. -/
structure ReaderInner (Z : Type) where
  backing : List UInt8
  zstream : Z
  input : List UInt8
  deriving DecidableEq

/-- Reset input buffer if empty -/
def ReaderInner.refill (r : ReaderInner Z) : ReaderInner Z :=
  if r.input = [] then {r with backing := r.backing.drop (16 * 1024), input := r.backing.take (16 * 1024)}
  else r

/-- The loop of `ReaderInner::read` with `room` bytes of the destination left. Returns what it writes there
and the size it reports. -/
def ReaderInner.readLoop (inflate : Inflate Z) :
    ℕ → ReaderInner Z → (len room : ℕ) → List UInt8 → Except Failure (List UInt8 × ℕ × ReaderInner Z)
  | 0, _, _, _, _ => .error .outOfFuel
  | fuel + 1, r, len, room, dst =>
    let r := r.refill
    if r.input = [] then .ok (dst, len - room, r)
    else match inflate r.zstream r.input room with
      | none => .error .inflateError
      | some (zstream, input, out) =>
        let r := {r with zstream := zstream, input := input}
        if room - out.length > 0 then readLoop inflate fuel r len (room - out.length) (dst ++ out)
        else .ok (dst ++ out, len, r)

/-- `avail_out` has 32 bits. -/
def ReaderInner.read (inflate : Inflate Z) (fuel : ℕ) (r : ReaderInner Z) (len : ℕ) :
    Except Failure (List UInt8 × ℕ × ReaderInner Z) :=
  r.readLoop inflate fuel len (len % 2 ^ 32) []

/-- `class ReadBuffer` -/
structure ReadBuffer where
  backing : List UInt8
  ofs : ℕ
  deriving DecidableEq

def capacity : ℕ := 1024

namespace ReadBuffer

def read (b : ReadBuffer) (len : ℕ) : List UInt8 × ReadBuffer :=
  let rem := b.backing.length - b.ofs
  if rem ≥ len then ((b.backing.drop b.ofs).take len, {b with ofs := b.ofs + len})
  else ((b.backing.drop b.ofs).take rem, {b with ofs := b.backing.length})

/-- The vector grows to its capacity, is overwritten and cut to the size read. -/
def populate (inflate : Inflate Z) (fuel : ℕ) (b : ReadBuffer) (is : ReaderInner Z) :
    Except Failure (ReadBuffer × ReaderInner Z) := do
  let full := b.backing ++ List.replicate (capacity - b.backing.length) 0
  let (dst, len, is) ← is.read inflate fuel full.length
  pure (⟨(dst ++ full.drop dst.length).take len, 0⟩, is)

end ReadBuffer

/-- `class Reader` as far as `read` needs it -/
structure Reader (Z : Type) where
  inner : ReaderInner Z
  buffer : ReadBuffer
  pos : ℕ
  deriving DecidableEq

namespace Reader

def new (zstream : Z) (file : List UInt8) : Reader Z := ⟨⟨file, zstream, []⟩, ⟨[], 0⟩, 0⟩

/-- Returns what was written to the destination. The size that a read past the buffer reports is dropped. -/
def read (inflate : Inflate Z) (fuel : ℕ) (r : Reader Z) (len : ℕ) :
    Except Failure (List UInt8 × Reader Z) := do
  let (dst, buffer) := r.buffer.read len
  if dst.length = len then pure (dst, {r with buffer := buffer, pos := r.pos + len})
  else
    let len := len - dst.length
    if len ≥ capacity then
      let (rest, _, inner) ← r.inner.read inflate fuel len
      pure (dst ++ rest, ⟨inner, buffer, r.pos + len⟩)
    else
      let (buffer, inner) ← buffer.populate inflate fuel r.inner
      let (rest, buffer) := buffer.read len
      if rest.length ≠ len then throw (.requested len rest.length)
      else pure (dst ++ rest, ⟨inner, buffer, r.pos + len⟩)

end Reader

/-- Each call that returns has written the next bytes of the stream and moved the position by their number,
and each that throws was asked for more than is left. A caller reads no more after an exception. -/
def Exact (inflate : Inflate Z) (fuel : ℕ) : Reader Z → List UInt8 → List ℕ → Prop
  | _, _, [] => True
  | r, s, len :: lens =>
    match r.read inflate fuel len with
    | .error e => e ≠ .outOfFuel ∧ s.length < len
    | .ok (dst, r') => len ≤ s.length ∧ dst = s.take len ∧ r'.pos = r.pos + len ∧
        Exact inflate fuel r' (s.drop len) lens

/-- With `b` bytes in the buffer and `i` behind it: no read goes on behind a buffer that still held
something, and none goes past the buffer for more than is left or for `2 ^ 32` bytes. -/
def Clean : (b i : ℕ) → List ℕ → Prop
  | _, _, [] => True
  | b, i, len :: lens =>
    if len ≤ b then Clean (b - len) i lens
    else if capacity ≤ len - b then b = 0 ∧ len ≤ i ∧ len < 2 ^ 32 ∧ Clean 0 (i - len) lens
    else if i < len - b then True
    else b = 0 ∧ Clean (min capacity i - len) (i - min capacity i) lens

/-- What `inflate` is relied on for: in a state that still has the stream `out` to make of the input, it
takes from the front of the input and gives from the front of the stream, stops only where the input or the
room ends, and makes all of the stream of all of the input. -/
structure Decodes (inflate : Inflate Z) (P : Z → (input out : List UInt8) → Prop) : Prop where
  done : ∀ z out, P z [] out → out = []
  step : ∀ z chunk later out room, P z (chunk ++ later) out → chunk ≠ [] →
    ∃ z' rest o out', inflate z chunk room = some (z', rest, o) ∧ o.length ≤ room ∧ out = o ++ out' ∧
      P z' (rest ++ later) out' ∧ rest.length ≤ chunk.length ∧
      (0 < room → o.length = room ∨ rest.length < chunk.length)

section Inner

variable {inflate : Inflate Z} {P : Z → List UInt8 → List UInt8 → Prop} {r : ReaderInner Z}
variable {out dst : List UInt8} {fuel len room : ℕ}

/-- The stream `out` is still to be read. -/
def ReaderInner.Has (P : Z → List UInt8 → List UInt8 → Prop) (r : ReaderInner Z) (out : List UInt8) : Prop :=
  P r.zstream (r.input ++ r.backing) out

theorem ReaderInner.Has.refill (h : r.Has P out) : r.refill.Has P out := by
  rw [ReaderInner.refill]
  split
  · rename_i hnil
    rw [ReaderInner.Has, hnil, List.nil_append] at h
    simpa [ReaderInner.Has] using h
  · exact h

theorem ReaderInner.size_refill (r : ReaderInner Z) :
    r.refill.input.length + r.refill.backing.length = r.input.length + r.backing.length := by
  rw [ReaderInner.refill]
  split
  · rename_i hnil
    rw [hnil, List.length_take, List.length_drop, List.length_nil]
    omega
  · rfl

theorem ReaderInner.refill_nil (h : r.refill.input = []) : r.refill.backing = [] := by
  rw [ReaderInner.refill] at h ⊢
  split at h
  · rename_i hnil
    rw [if_pos hnil]
    have hlen := congrArg List.length h
    rw [List.length_take, List.length_nil] at hlen
    exact List.eq_nil_of_length_eq_zero (by rw [List.length_drop]; omega)
  · contradiction

def ReaderInner.size (r : ReaderInner Z) : ℕ := r.input.length + r.backing.length

/-- Every round takes input or fills the room, so the loop ends with what there is room for. -/
theorem readLoop_spec (hz : Decodes inflate P) (h : r.Has P out) (hfuel : r.size < fuel) :
    ∃ r', r.readLoop inflate fuel len room dst =
        .ok (dst ++ out.take room, len - (room - out.length), r') ∧
      r'.Has P (out.drop room) ∧ r'.size ≤ r.size := by
  induction fuel generalizing r out dst room with
  | zero => exact absurd hfuel (Nat.not_lt_zero _)
  | succ fuel ih =>
    have hsize : r.refill.size = r.size := r.size_refill
    have hhas := h.refill
    rw [ReaderInner.readLoop]
    by_cases hnil : r.refill.input = []
    · have hout : out = [] := by
        rw [ReaderInner.Has, hnil, r.refill_nil hnil] at hhas
        exact hz.done _ _ hhas
      subst hout
      refine ⟨r.refill, ?_, ?_, hsize.le⟩
      · simp [hnil]
      · simpa using hhas
    obtain ⟨z', rest, o, out', hinf, hroom, rfl, hP, hrest, hprog⟩ := hz.step _ _ _ _ room hhas hnil
    have hsize' : (⟨r.refill.backing, z', rest⟩ : ReaderInner Z).size ≤ r.size :=
      hsize ▸ Nat.add_le_add_right hrest _
    simp only [if_neg hnil, hinf]
    by_cases hmore : room - o.length > 0
    · have hless : rest.length < r.refill.input.length :=
        (hprog (by omega)).resolve_left (by omega)
      have hsize'' : (⟨r.refill.backing, z', rest⟩ : ReaderInner Z).size < r.size :=
        hsize ▸ Nat.add_lt_add_right hless _
      obtain ⟨r', h1, h2, h3⟩ := @ih ⟨r.refill.backing, z', rest⟩ out' (dst ++ o)
        (room - o.length) hP (by omega)
      refine ⟨r', ?_, ?_, h3.trans hsize'⟩
      · rw [if_pos hmore, h1, List.append_assoc, List.take_append, List.take_of_length_le hroom,
          List.length_append, Nat.sub_add_eq]
      · rwa [List.drop_append, List.drop_of_length_le hroom, List.nil_append]
    · refine ⟨⟨r.refill.backing, z', rest⟩, ?_, ?_, hsize'⟩
      · have hlen : o.length = room := by omega
        rw [if_neg hmore, List.take_append, List.take_of_length_le hroom, hlen, Nat.sub_self, List.take_zero,
          List.append_nil, List.length_append, hlen, Nat.sub_eq_zero_of_le (Nat.le_add_right _ _), Nat.sub_zero]
      · have hlen : o.length = room := by omega
        rw [List.drop_append, List.drop_of_length_le hroom, hlen, Nat.sub_self, List.drop_zero]
        exact hP

theorem read_inner_spec (hz : Decodes inflate P) (h : r.Has P out) (hfuel : r.size < fuel) (len : ℕ) :
    ∃ r', r.read inflate fuel len =
        .ok (out.take (len % 2 ^ 32), len - (len % 2 ^ 32 - out.length), r') ∧
      r'.Has P (out.drop (len % 2 ^ 32)) ∧ r'.size ≤ r.size :=
  readLoop_spec hz h hfuel

end Inner

section Buffer

variable {inflate : Inflate Z} {P : Z → List UInt8 → List UInt8 → Prop}

/-- What the buffer still holds. -/
def ReadBuffer.rest (b : ReadBuffer) : List UInt8 := b.backing.drop b.ofs

theorem ReadBuffer.length_rest (b : ReadBuffer) : b.rest.length = b.backing.length - b.ofs := List.length_drop

theorem ReadBuffer.read_eq (b : ReadBuffer) (len : ℕ) :
    (b.read len).1 = b.rest.take len ∧ (b.read len).2.rest = b.rest.drop len ∧
      (b.read len).2.backing = b.backing := by
  rw [ReadBuffer.read, ← ReadBuffer.length_rest]
  by_cases h : b.rest.length ≥ len
  · rw [if_pos h]
    exact ⟨rfl, List.drop_drop.symm, rfl⟩
  · have hlt := Nat.lt_of_not_ge h
    rw [if_neg h]
    refine ⟨?_, ?_, rfl⟩
    · rw [List.take_of_length_le hlt.le]
      exact List.take_length
    · rw [List.drop_of_length_le hlt.le]
      exact List.drop_length

/-- The buffer takes the next 1024 bytes, or all that are left. -/
theorem populate_spec (hz : Decodes inflate P) {b : ReadBuffer} (hb : b.backing.length ≤ capacity)
    {is : ReaderInner Z} {out : List UInt8} (h : is.Has P out) {fuel : ℕ} (hfuel : is.size < fuel) :
    ∃ is', b.populate inflate fuel is = .ok (⟨out.take capacity, 0⟩, is') ∧
      is'.Has P (out.drop capacity) ∧ is'.size ≤ is.size := by
  have hfull : (b.backing ++ List.replicate (capacity - b.backing.length) 0).length = capacity := by
    rw [List.length_append, List.length_replicate]
    omega
  have hmod : capacity % 2 ^ 32 = capacity := rfl
  obtain ⟨is', h1, h2, h3⟩ := read_inner_spec hz h hfuel capacity
  rw [hmod] at h1 h2
  refine ⟨is', ?_, h2, h3⟩
  have hret : capacity - (capacity - out.length) = (out.take capacity).length := by
    rw [List.length_take]
    omega
  rw [ReadBuffer.populate]
  dsimp only
  rw [hfull, h1, hret]
  simp only [bind, Except.bind, pure, Except.pure, List.take_left]

end Buffer

section Read

variable {inflate : Inflate Z} {P : Z → List UInt8 → List UInt8 → Prop} {r : Reader Z}
variable {out : List UInt8} {fuel len : ℕ}

/-- The buffer holds `buf`, and `out` is the stream behind it. -/
structure Reader.Holds (P : Z → List UInt8 → List UInt8 → Prop) (fuel : ℕ) (r : Reader Z)
    (buf out : List UInt8) : Prop where
  rest : r.buffer.rest = buf
  fits : r.buffer.backing.length ≤ capacity
  has : r.inner.Has P out
  fuel : r.inner.size < fuel

variable {buf : List UInt8}

variable (inflate) in
theorem read_buffered (h : r.Holds P fuel buf out) (hlen : len ≤ buf.length) :
    ∃ r', r.read inflate fuel len = .ok (buf.take len, r') ∧ r'.Holds P fuel (buf.drop len) out ∧
      r'.pos = r.pos + len := by
  obtain ⟨h1, h2, h3⟩ := r.buffer.read_eq len
  rw [h.rest] at h1 h2
  refine ⟨⟨r.inner, (r.buffer.read len).2, r.pos + len⟩, ?_, ⟨h2, h3 ▸ h.fits, h.has, h.fuel⟩, rfl⟩
  rw [Reader.read]
  simp only [h1, List.length_take, Nat.min_eq_left hlen, if_true]
  rfl

/-- A read that the buffer does not serve takes all that it holds. -/
theorem buffer_read_drained (h : r.Holds P fuel buf out) (hlen : buf.length < len) :
    (r.buffer.read len).1 = buf ∧ (r.buffer.read len).2.rest = [] ∧
      (r.buffer.read len).2.backing.length ≤ capacity := by
  obtain ⟨h1, h2, h3⟩ := r.buffer.read_eq len
  rw [h.rest, List.take_of_length_le hlen.le] at h1
  rw [h.rest, List.drop_of_length_le hlen.le] at h2
  exact ⟨h1, h2, h3 ▸ h.fits⟩

/-- Past the buffer, whatever `ReaderInner::read` finds is taken for what was asked. -/
theorem read_past (hz : Decodes inflate P) (h : r.Holds P fuel buf out) (hlen : buf.length < len)
    (hcap : capacity ≤ len - buf.length) :
    ∃ r', r.read inflate fuel len = .ok (buf ++ out.take ((len - buf.length) % 2 ^ 32), r') ∧
      r'.Holds P fuel [] (out.drop ((len - buf.length) % 2 ^ 32)) ∧
      r'.pos = r.pos + (len - buf.length) := by
  obtain ⟨h1, h2, h3⟩ := buffer_read_drained h hlen
  obtain ⟨is', hread, hhas, hsize⟩ := read_inner_spec hz h.has h.fuel (len - buf.length)
  refine ⟨⟨is', (r.buffer.read len).2, r.pos + (len - buf.length)⟩, ?_,
    ⟨h2, h3, hhas, hsize.trans_lt h.fuel⟩, rfl⟩
  rw [Reader.read]
  simp only [h1, if_neg hlen.ne, ge_iff_le, if_pos hcap, hread]
  rfl

section Refill

variable (hz : Decodes inflate P) (h : r.Holds P fuel buf out) (hlen : buf.length < len)
  (hcap : len - buf.length < capacity)
include hz h hlen hcap

theorem read_short (hout : out.length < len - buf.length) :
    r.read inflate fuel len = .error (.requested (len - buf.length) out.length) := by
  obtain ⟨h1, h2, h3⟩ := buffer_read_drained h hlen
  obtain ⟨is', hpop, hhas, hsize⟩ := populate_spec hz h3 h.has h.fuel
  have hlast := (ReadBuffer.read_eq ⟨out.take capacity, 0⟩ (len - buf.length)).1
  rw [ReadBuffer.rest, List.drop_zero, List.take_take, Nat.min_eq_left hcap.le,
    List.take_of_length_le hout.le] at hlast
  rw [Reader.read]
  simp only [h1, if_neg hlen.ne, ge_iff_le, if_neg (Nat.not_le.mpr hcap), hpop]
  change (if _ then _ else _) = _
  rw [hlast, if_pos hout.ne]
  rfl

theorem read_refilled (hout : len - buf.length ≤ out.length) :
    ∃ r', r.read inflate fuel len = .ok (buf ++ out.take (len - buf.length), r') ∧
      r'.Holds P fuel ((out.take capacity).drop (len - buf.length)) (out.drop capacity) ∧
      r'.pos = r.pos + (len - buf.length) := by
  obtain ⟨h1, h2, h3⟩ := buffer_read_drained h hlen
  obtain ⟨is', hpop, hhas, hsize⟩ := populate_spec hz h3 h.has h.fuel
  obtain ⟨hlast, hrest, hback⟩ := ReadBuffer.read_eq ⟨out.take capacity, 0⟩ (len - buf.length)
  rw [ReadBuffer.rest, List.drop_zero, List.take_take, Nat.min_eq_left hcap.le] at hlast
  rw [ReadBuffer.rest, ReadBuffer.rest, List.drop_zero] at hrest
  refine ⟨⟨is', (ReadBuffer.read ⟨out.take capacity, 0⟩ (len - buf.length)).2,
    r.pos + (len - buf.length)⟩, ?_, ⟨hrest, ?_, hhas, hsize.trans_lt h.fuel⟩, rfl⟩
  · rw [Reader.read]
    simp only [h1, if_neg hlen.ne, ge_iff_le, if_neg (Nat.not_le.mpr hcap), hpop]
    change (if _ then _ else _) = _
    rw [hlast, if_neg]
    · rfl
    · rw [not_not, List.length_take, Nat.min_eq_left hout]
  · rw [hback]
    exact List.length_take_le _ _

end Refill

theorem exact_cons {s dst : List UInt8} {r' : Reader Z} {lens : List ℕ}
    (hread : r.read inflate fuel len = .ok (dst, r')) : Exact inflate fuel r s (len :: lens) ↔
      len ≤ s.length ∧ dst = s.take len ∧ r'.pos = r.pos + len ∧ Exact inflate fuel r' (s.drop len) lens := by
  rw [Exact, hread]

/-- Behind a refill the stream goes on in the buffer. -/
theorem drop_of_refill {n : ℕ} (hn : n ≤ capacity) (hout : n ≤ out.length) :
    out.drop n = (out.take capacity).drop n ++ out.drop capacity := by
  conv_lhs => rw [← List.take_append_drop capacity out]
  rw [List.drop_append_of_le_length]
  rw [List.length_take]
  exact Nat.le_min.mpr ⟨hn, hout⟩

/-- Where enough is left, the bytes that the buffered reader returns are those of the plain one. -/
theorem read_eq_take (hz : Decodes inflate P) (h : r.Holds P fuel buf out)
    (hlen : len ≤ (buf ++ out).length) (h32 : len < 2 ^ 32) :
    ∃ dst buf' out' r', r.read inflate fuel len = .ok (dst, r') ∧
      Codec.Read.take len (buf ++ out) = some (dst, buf' ++ out') ∧ r'.Holds P fuel buf' out' := by
  rw [List.length_append] at hlen
  rw [Codec.Read.take_of_le (by rwa [List.length_append])]
  by_cases hbuf : len ≤ buf.length
  · obtain ⟨r', hread, hholds, -⟩ := read_buffered inflate h hbuf
    refine ⟨_, _, _, r', hread, ?_, hholds⟩
    rw [List.take_append_of_le_length hbuf, List.drop_append_of_le_length hbuf]
  rw [Nat.not_le] at hbuf
  have hout : len - buf.length ≤ out.length := by omega
  by_cases hcap : capacity ≤ len - buf.length
  · obtain ⟨r', hread, hholds, -⟩ := read_past hz h hbuf hcap
    rw [Nat.mod_eq_of_lt (by omega)] at hread hholds
    refine ⟨_, _, _, r', hread, ?_, hholds⟩
    rw [List.take_append, List.drop_append, List.take_of_length_le hbuf.le, List.drop_of_length_le hbuf.le]
  · rw [Nat.not_le] at hcap
    obtain ⟨r', hread, hholds, -⟩ := read_refilled hz h hbuf hcap hout
    refine ⟨_, _, _, r', hread, ?_, hholds⟩
    rw [← drop_of_refill hcap.le hout, List.take_append, List.drop_append, List.take_of_length_le hbuf.le,
      List.drop_of_length_le hbuf.le, List.nil_append]

theorem exact_iff (hz : Decodes inflate P) (h : r.Holds P fuel buf out) (lens : List ℕ) :
    Exact inflate fuel r (buf ++ out) lens ↔ Clean buf.length out.length lens := by
  induction lens generalizing r buf out with
  | nil => exact iff_of_true trivial trivial
  | cons len lens ih =>
    rw [Clean]
    by_cases hlen : len ≤ buf.length
    · obtain ⟨r', hread, hholds, hpos⟩ := read_buffered inflate h hlen
      have hrest := ih hholds
      rw [List.length_drop] at hrest
      rw [exact_cons hread, if_pos hlen, List.take_append_of_le_length hlen,
        List.drop_append_of_le_length hlen, hrest, List.length_append]
      simp [hpos, hlen.trans (Nat.le_add_right _ _)]
    rw [if_neg hlen]
    rw [Nat.not_le] at hlen
    by_cases hcap : capacity ≤ len - buf.length
    · obtain ⟨r', hread, hholds, hpos⟩ := read_past hz h hlen hcap
      rw [if_pos hcap, exact_cons hread, hpos]
      constructor
      · rintro ⟨hle, hdst, hpos, hrest⟩
        have hnil : buf = [] := List.eq_nil_of_length_eq_zero (by omega)
        subst hnil
        simp only [List.nil_append, List.length_nil, Nat.sub_zero] at *
        have hmod : len % 2 ^ 32 = len := by
          have hl := congrArg List.length hdst
          rw [List.length_take, List.length_take] at hl
          have := Nat.mod_le len (2 ^ 32)
          omega
        rw [hmod] at hholds
        have hrest := (ih hholds).mp (by simpa using hrest)
        rw [List.length_drop] at hrest
        exact ⟨trivial, hle, by omega, hrest⟩
      · rintro ⟨hb, hle, hlt, hrest⟩
        have hnil : buf = [] := List.eq_nil_of_length_eq_zero hb
        subst hnil
        simp only [List.nil_append, List.length_nil, Nat.sub_zero] at *
        rw [Nat.mod_eq_of_lt hlt] at hholds ⊢
        refine ⟨hle, rfl, trivial, ?_⟩
        have hrest := (ih hholds).mpr (by rw [List.length_drop]; exact hrest)
        simpa using hrest
    rw [if_neg hcap]
    rw [Nat.not_le] at hcap
    by_cases hout : out.length < len - buf.length
    · rw [if_pos hout, Exact, read_short hz h hlen hcap hout, List.length_append]
      exact iff_of_true ⟨Failure.noConfusion, by omega⟩ trivial
    · rw [Nat.not_lt] at hout
      obtain ⟨r', hread, hholds, hpos⟩ := read_refilled hz h hlen hcap hout
      have hrest := ih hholds
      rw [List.length_drop, List.length_drop, List.length_take, ← drop_of_refill (by omega) hout] at hrest
      have hleft : out.length - min capacity out.length = out.length - capacity := by omega
      rw [if_neg (Nat.not_lt.mpr hout), exact_cons hread, hpos, hleft]
      constructor
      · rintro ⟨hle, hdst, hpos, hexact⟩
        have hnil : buf = [] := List.eq_nil_of_length_eq_zero (by omega)
        subst hnil
        simp only [List.nil_append, List.length_nil, Nat.sub_zero] at hrest hexact
        exact ⟨rfl, hrest.mp hexact⟩
      · rintro ⟨hb, hclean⟩
        have hnil : buf = [] := List.eq_nil_of_length_eq_zero hb
        subst hnil
        simp only [List.length_nil, Nat.sub_zero] at hrest hout ⊢
        exact ⟨hout, rfl, trivial, hrest.mpr hclean⟩

end Read

/-- From the start of a file, the calls are exact if and only if the sizes stay clean. -/
theorem read_exact_iff {inflate : Inflate Z} {P : Z → List UInt8 → List UInt8 → Prop}
    (hz : Decodes inflate P) {zstream : Z} {file s : List UInt8} (hs : P zstream file s) {fuel : ℕ}
    (hfuel : file.length < fuel) (lens : List ℕ) :
    Exact inflate fuel (Reader.new zstream file) s lens ↔ Clean 0 s.length lens := by
  have hholds : (Reader.new zstream file).Holds P fuel [] s :=
    { rest := rfl
      fits := Nat.zero_le _
      has := hs
      fuel := by simpa [Reader.new, ReaderInner.size] using hfuel }
  exact exact_iff hz hholds lens

section Stored

/-- What zlib makes of the file that stores the single byte `a`: a header of seven bytes, the byte and its
checksum. The state counts the bytes taken. -/
def inflateStored : Inflate ℕ
  | z, [], _ => some (z, [], [])
  | z, b :: bs, room =>
    if z = 7 then
      if room = 0 then some (z, b :: bs, [])
      else (inflateStored (z + 1) bs (room - 1)).map fun (z', rest, out) => (z', rest, b :: out)
    else inflateStored (z + 1) bs room

def storedFile : List UInt8 := [0x78, 0x01, 0x01, 0x01, 0x00, 0xFE, 0xFF, 0x61, 0x00, 0x62, 0x00, 0x62]

/-- The file after its first `z` bytes, and the stream that they still leave. -/
def StoredAt (z : ℕ) (input out : List UInt8) : Prop :=
  input = storedFile.drop z ∧ out = if z ≤ 7 then [0x61] else []

theorem storedAt_cons {z : ℕ} {b : UInt8} {input out : List UInt8} (h : StoredAt z (b :: input) out)
    (hz : z ≠ 7) : StoredAt (z + 1) input out := by
  obtain ⟨hin, rfl⟩ := h
  have hiff : z + 1 ≤ 7 ↔ z ≤ 7 := by omega
  have hdrop := congrArg List.tail hin
  rw [List.tail_drop, List.tail_cons] at hdrop
  exact ⟨hdrop, by simp only [hiff]⟩

theorem storedAt_byte {b : UInt8} {input out : List UInt8} (h : StoredAt 7 (b :: input) out) :
    out = [b] ∧ StoredAt 8 input [] := by
  obtain ⟨hin, rfl⟩ := h
  have hdrop : storedFile.drop 7 = 0x61 :: storedFile.drop 8 := rfl
  rw [hdrop] at hin
  obtain ⟨rfl, rfl⟩ := List.cons.inj hin
  exact ⟨rfl, rfl, rfl⟩

theorem inflateStored_step (z : ℕ) (chunk later out : List UInt8) (room : ℕ)
    (h : StoredAt z (chunk ++ later) out) :
    ∃ z' rest o out', inflateStored z chunk room = some (z', rest, o) ∧ o.length ≤ room ∧ out = o ++ out' ∧
      StoredAt z' (rest ++ later) out' ∧ rest.length ≤ chunk.length ∧
      (chunk ≠ [] → 0 < room → o.length = room ∨ rest.length < chunk.length) := by
  induction chunk generalizing z out room with
  | nil => exact ⟨z, [], [], out, rfl, Nat.zero_le _, rfl, h, le_rfl, fun hne => absurd rfl hne⟩
  | cons b bs ih =>
    rw [inflateStored]
    by_cases hz : z = 7
    · subst hz
      by_cases hroom : room = 0
      · rw [if_pos rfl, if_pos hroom]
        exact ⟨7, b :: bs, [], out, rfl, Nat.zero_le _, rfl, h, le_rfl,
          fun _ hpos => absurd hroom hpos.ne'⟩
      · obtain ⟨rfl, hnext⟩ := storedAt_byte h
        obtain ⟨z', rest, o, out', hinf, hlen, hout, hat, hrest, -⟩ := ih 8 [] (room - 1) hnext
        rw [if_pos rfl, if_neg hroom, hinf]
        refine ⟨z', rest, b :: o, out', rfl, ?_, ?_, hat, hrest.trans (Nat.le_succ _), fun _ _ => ?_⟩
        · rw [List.length_cons]
          omega
        · rw [List.cons_append, ← hout]
        · exact .inr (Nat.lt_succ_of_le hrest)
    · obtain ⟨z', rest, o, out', hinf, hlen, hout, hat, hrest, -⟩ := ih (z + 1) out room (storedAt_cons h hz)
      rw [if_neg hz, hinf]
      exact ⟨z', rest, o, out', rfl, hlen, hout, hat, hrest.trans (Nat.le_succ _),
        fun _ _ => .inr (Nat.lt_succ_of_le hrest)⟩

theorem decodes_stored : Decodes inflateStored StoredAt where
  done := by
    rintro z out ⟨hin, rfl⟩
    have hz : 12 ≤ z := List.drop_eq_nil_iff.mp hin.symm
    exact if_neg (by omega)
  step := by
    intro z chunk later out room h hne
    obtain ⟨z', rest, o, out', hinf, hlen, hout, hat, hrest, hprog⟩ :=
      inflateStored_step z chunk later out room h
    exact ⟨z', rest, o, out', hinf, hlen, hout, hat, hrest, hprog hne⟩

/-- The byte is read, and a second one is refused. -/
theorem exact_stored : Exact inflateStored 20 (Reader.new 0 storedFile) [0x61] [1, 1] := by
  have hat : StoredAt 0 storedFile [0x61] := ⟨rfl, rfl⟩
  rw [read_exact_iff decodes_stored hat (by decide)]
  simp [Clean, capacity]

/-- Asked for 2000 bytes of a stream of one, `read` returns as if all had been read. -/
theorem not_exact_stored : ¬Exact inflateStored 20 (Reader.new 0 storedFile) [0x61] [2000] := by
  intro h
  have hread : ((Reader.new 0 storedFile).read inflateStored 20 2000).toOption.map Prod.fst = some [0x61] := by
    decide +kernel
  rw [Exact] at h
  split at h
  · rename_i heq
    rw [heq] at hread
    cases hread
  · exact absurd h.1 (by decide)

end Stored

end Mrustc.Serialise.Stream
