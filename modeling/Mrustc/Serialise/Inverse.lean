import Mrustc.Serialise.Lowlevel

/-! # The readers invert the writers

Each call of the reader takes exactly the bytes of the matching call of the writer, while the two tables of
names and of strings correspond.
-/

namespace Mrustc.Serialise
open Codec Codec.Read Int128

section Words

theorem reads_u8 (v : UInt8) : Reads readU8 [v] v :=
  (reads_take [v]).bind_nil (reads_pure v)

/-- A reader that starts with a byte. -/
theorem reads_u8_bind {α : Type} {f : UInt8 → Read α} {v : UInt8} {bs : List UInt8} {x : α}
    (h : Reads (f v) bs x) : Reads (readU8 >>= f) (v :: bs) x :=
  (reads_u8 v).bind h

theorem reads_u16 (v : BitVec 16) : Reads readU16 (writeU16 v) v := by
  refine (reads_take (writeU16 v)).bind_nil ?_
  have h : word 16 (byte v 0) 0 ||| word 16 (byte v 8) 8 = v := by
    rw [word_byte, word_byte, mid_or v (by norm_num) (by norm_num), mid_width]
  exact reads_pure_of_eq h

theorem reads_u32 (v : BitVec 32) : Reads readU32 (writeU32 v) v := by
  refine (reads_take (writeU32 v)).bind_nil ?_
  have h : word 32 (byte v 0) 0 ||| word 32 (byte v 8) 8 ||| word 32 (byte v 16) 16 |||
      word 32 (byte v 24) 24 = v := by
    simp only [word_byte]
    rw [mid_or v (by norm_num) (by norm_num), mid_or v (by norm_num) (by norm_num),
      mid_or v (by norm_num) (by norm_num), mid_width]
  exact reads_pure_of_eq h

theorem reads_u64 (v : BitVec 64) : Reads readU64 (writeU64 v) v := by
  refine (reads_take (writeU64 v)).bind_nil ?_
  have h : word 64 (byte v 0) 0 ||| word 64 (byte v 8) 8 ||| word 64 (byte v 16) 16 |||
      word 64 (byte v 24) 24 ||| word 64 (byte v 32) 32 ||| word 64 (byte v 40) 40 |||
      word 64 (byte v 48) 48 ||| word 64 (byte v 56) 56 = v := by
    simp only [word_byte]
    rw [mid_or v (by norm_num) (by norm_num), mid_or v (by norm_num) (by norm_num),
      mid_or v (by norm_num) (by norm_num), mid_or v (by norm_num) (by norm_num),
      mid_or v (by norm_num) (by norm_num), mid_or v (by norm_num) (by norm_num),
      mid_or v (by norm_num) (by norm_num), mid_width]
  exact reads_pure_of_eq h

/-- A word below 256 is its lowest byte. -/
theorem word_byte_of_lt {v : BitVec 64} (h : v.toNat < 256) : word 64 (byte v 0) 0 = v := by
  rw [word_byte]
  exact mid_of_lt v h

theorem toNat_byte {w : ℕ} (v : BitVec w) (k : ℕ) : (byte v k).toNat = v.toNat / 2 ^ k % 256 := by
  rw [byte, UInt8.toNat, BitVec.toNat_setWidth, BitVec.toNat_ushiftRight, Nat.shiftRight_eq_div_pow]

theorem toNat_byte_of_lt {v : BitVec 64} (h : v.toNat < 256) : (byte v 0).toNat = v.toNat := by
  rw [toNat_byte, pow_zero, Nat.div_one, Nat.mod_eq_of_lt h]

/-- A tag in front of the top byte of a number. -/
theorem toNat_tagged {v : BitVec 64} {k t : ℕ} (ht : t + v.toNat / 2 ^ k < 256) :
    (castU8 (BitVec.ofNat 64 t + v >>> k)).toNat = t + v.toNat / 2 ^ k := by
  have hsum : t + v.toNat / 2 ^ k < 2 ^ 64 := ht.trans (by norm_num)
  rw [castU8, UInt8.toNat, BitVec.toNat_setWidth, BitVec.toNat_add, BitVec.toNat_ushiftRight,
    Nat.shiftRight_eq_div_pow, BitVec.toNat_ofNat, Nat.mod_eq_of_lt ((Nat.le_add_right _ _).trans_lt hsum),
    Nat.mod_eq_of_lt hsum, Nat.mod_eq_of_lt ht]

/-- The six bits under a tag are the top byte. -/
theorem tagged_and {v : BitVec 64} {k t : ℕ} (h64 : t % 64 = 0) (h : v.toNat / 2 ^ k < 64)
    (ht : t + v.toNat / 2 ^ k < 256) :
    castU8 (BitVec.ofNat 64 t + v >>> k) &&& 0x3F = byte v k := by
  apply UInt8.toNat_inj.mp
  rw [UInt8.toNat_and, toNat_tagged ht, toNat_byte]
  change (t + v.toNat / 2 ^ k) &&& (2 ^ 6 - 1) = _
  rw [Nat.and_two_pow_sub_one_eq_mod, Nat.add_mod, h64, Nat.zero_add, Nat.mod_mod, Nat.mod_eq_of_lt h,
    Nat.mod_eq_of_lt (h.trans (by norm_num))]

theorem reads_u64c (v : BitVec 64) : Reads readU64c (writeU64c v) v := by
  rw [writeU64c]
  by_cases h7 : v.toNat < 2 ^ 7
  · rw [if_pos h7]
    refine reads_u8_bind ?_
    rw [toNat_byte_of_lt (by omega), if_pos h7, word_byte_of_lt (by omega)]
    exact reads_pure v
  rw [if_neg h7]
  by_cases h22 : v.toNat < 2 ^ (6 + 16)
  · have htag : (castU8 (0x80 + v >>> 16)).toNat = 0x80 + v.toNat / 2 ^ 16 := toNat_tagged (by omega)
    have hbits : castU8 (0x80 + v >>> 16) &&& 0x3F = byte v 16 := tagged_and (t := 0x80) rfl (by omega) (by omega)
    rw [if_pos h22]
    refine reads_u8_bind ?_
    rw [htag, if_neg (by omega), if_pos (by omega), hbits]
    refine reads_u8_bind (reads_u8_bind ?_)
    rw [word_byte, word_byte, word_byte, or_mid v (by norm_num) (by norm_num),
      or_mid v (by norm_num) (by norm_num), mid_of_lt v (by omega)]
    exact reads_pure v
  rw [if_neg h22]
  by_cases h37 : v.toNat < 2 ^ (5 + 32)
  · have htag : (castU8 (0xC0 + v >>> 32)).toNat = 0xC0 + v.toNat / 2 ^ 32 := toNat_tagged (by omega)
    have hbits : castU8 (0xC0 + v >>> 32) &&& 0x3F = byte v 32 := tagged_and (t := 0xC0) rfl (by omega) (by omega)
    rw [if_pos h37]
    refine reads_u8_bind ?_
    rw [htag, if_neg (by omega), if_neg (by omega), if_pos (by omega), hbits]
    refine reads_u8_bind (reads_u8_bind (reads_u8_bind (reads_u8_bind ?_)))
    simp only [word_byte]
    rw [or_mid v (by norm_num) (by norm_num), or_mid v (by norm_num) (by norm_num),
      or_mid v (by norm_num) (by norm_num), or_mid v (by norm_num) (by norm_num), mid_of_lt v (by omega)]
    exact reads_pure v
  · rw [if_neg h37]
    exact reads_u8_bind (reads_u64 v)

theorem toNat_shl_or (x : BitVec 64) {b : BitVec 64} (hb : b.toNat < 2) :
    (x <<< 1 ||| b).toNat = 2 * (x.toNat % 2 ^ 63) + b.toNat := by
  have hx : x.toNat * 2 ^ 1 % 2 ^ 64 = 2 ^ 1 * (x.toNat % 2 ^ 63) := by omega
  rw [BitVec.toNat_or, BitVec.toNat_shiftLeft, Nat.shiftLeft_eq, hx,
    ← Nat.two_pow_add_eq_or_of_lt (by simpa using hb), pow_one]

theorem getLsbD_zero_shl_or (x : BitVec 64) (b : Bool) :
    (x <<< 1 ||| if b then 1 else 0).getLsbD 0 = b := by
  cases b <;> simp

/-- The lowest bit is the sign, and its place alone stands for `INT64_MIN`. -/
theorem reads_i64c (v : BitVec 64) : Reads readI64c (writeI64c v) v := by
  refine (reads_u64c _).bind_nil (reads_pure_of_eq ?_)
  have hv := v.isLt
  have hzero : (0 : BitVec 64).toNat = 0 := rfl
  have hsign : v.slt 0 = decide (2 ^ 63 ≤ v.toNat) := by
    rw [BitVec.ofNat_eq_ofNat, BitVec.slt_zero_eq_msb, BitVec.msb_eq_decide]
  simp only [getLsbD_zero_shl_or]
  by_cases hneg : 2 ^ 63 ≤ v.toNat
  · rw [hsign, decide_eq_true hneg]
    simp only [if_true, and_true]
    have hva : ((-v) <<< 1 ||| 1).toNat = 2 * ((2 ^ 64 - v.toNat) % 2 ^ 64 % 2 ^ 63) + 1 := by
      rw [toNat_shl_or (-v) (b := 1) (by decide), BitVec.toNat_neg]
      rfl
    have hhalf : (((-v) <<< 1 ||| 1) >>> 1).toNat = (2 ^ 64 - v.toNat) % 2 ^ 64 % 2 ^ 63 := by
      rw [BitVec.toNat_ushiftRight, hva, Nat.shiftRight_eq_div_pow]
      omega
    by_cases hmin : ((-v) <<< 1 ||| 1) >>> 1 = 0
    · rw [if_pos hmin]
      rw [hmin, hzero] at hhalf
      apply BitVec.eq_of_toNat_eq
      rw [BitVec.toNat_intMin]
      omega
    · rw [if_neg hmin]
      have hne : (((-v) <<< 1 ||| 1) >>> 1).toNat ≠ 0 := fun h => hmin (BitVec.eq_of_toNat_eq h)
      apply BitVec.eq_of_toNat_eq
      rw [BitVec.toNat_neg]
      omega
  · rw [hsign, decide_eq_false hneg]
    simp only [Bool.false_eq_true, if_false, and_false]
    apply BitVec.eq_of_toNat_eq
    rw [BitVec.toNat_ushiftRight, toNat_shl_or v (b := 0) (by decide), Nat.shiftRight_eq_div_pow, hzero]
    omega

theorem reads_u128 (v : U128) : Reads readU128 (writeU128 v) v :=
  (reads_u64 v.lo).bind ((reads_u64 v.hi).bind_nil (reads_pure v))

theorem reads_i128 (v : S128) : Reads readI128 (writeI128 v) v :=
  (reads_u128 v.inner).bind_nil (reads_pure v)

variable {bs : List UInt8}

theorem reads_tag {t : BitVec 32} (h : writeTag t = some bs) : Reads readTag bs t := by
  rw [writeTag, Option.ite_none_right_eq_some] at h
  obtain ⟨ht, h⟩ := h
  cases h
  refine (reads_u8 _).bind_nil (reads_pure_of_eq ?_)
  have hw := word_byte t 0
  rw [word, BitVec.shiftLeft_zero] at hw
  exact hw.trans (mid_of_lt t ht)

theorem reads_count {c : BitVec 64} (h : writeCount c = some bs) : Reads readCount bs c := by
  unfold writeCount at h
  split_ifs at h with h1 h2 h3 h4
  · cases h
    refine reads_u8_bind ?_
    rw [toNat_byte_of_lt (by omega), if_pos h1, word_byte_of_lt (by omega)]
    exact reads_pure c
  · cases h
    subst h2
    exact reads_u8_bind (reads_pure _)
  · cases h
    refine reads_u8_bind ((reads_u16 _).bind_nil (reads_pure_of_eq ?_))
    apply BitVec.eq_of_toNat_eq
    rw [BitVec.toNat_setWidth, BitVec.toNat_setWidth]
    omega
  · cases h
    refine reads_u8_bind ((reads_u32 _).bind_nil (reads_pure_of_eq ?_))
    apply BitVec.eq_of_toNat_eq
    rw [BitVec.toNat_setWidth, BitVec.toNat_setWidth]
    omega

theorem reads_string {s : List UInt8} (h : writeString s = some bs) : Reads readString bs s := by
  unfold writeString at h
  split_ifs at h with h1 h2
  · cases h
    refine reads_u8_bind ?_
    have hlen : (UInt8.ofNat s.length).toNat = s.length := by simp; omega
    rw [hlen, if_pos h1]
    exact reads_take s
  · cases h
    have hlen : (UInt8.ofNat (128 + s.length >>> 16)).toNat = 128 + s.length / 2 ^ 16 := by
      rw [UInt8.toNat_ofNat', Nat.shiftRight_eq_div_pow]
      omega
    have hlo : (BitVec.ofNat 16 (s.length &&& 0xFFFF)).toNat = s.length % 2 ^ 16 := by
      rw [BitVec.toNat_ofNat, Nat.and_two_pow_sub_one_eq_mod s.length 16]
      omega
    have hall : ((128 + s.length / 2 ^ 16) &&& 0x7F) <<< 16 ||| s.length % 2 ^ 16 = s.length := by
      rw [Nat.and_two_pow_sub_one_eq_mod _ 7, Nat.shiftLeft_eq, Nat.mul_comm,
        ← Nat.two_pow_add_eq_or_of_lt (Nat.mod_lt _ (by norm_num))]
      omega
    refine reads_u8_bind ?_
    rw [hlen, if_neg (by omega)]
    refine (reads_u16 _).bind ?_
    rw [hlo, hall]
    exact reads_take s

theorem reads_bool (v : Bool) : Reads readBool (writeBool v) v := by
  cases v with
  | false => exact reads_u8_bind (reads_pure false)
  | true => exact reads_u8_bind (reads_pure true)

end Words

section Raw

variable {bs bytes : List UInt8}

theorem length_rawUintBytes {n : ℕ} {val : BitVec 64} (h : rawUintBytes n val = some bytes) :
    bytes.length ≤ n := by
  induction n generalizing val bytes with
  | zero =>
    rw [rawUintBytes] at h
    split at h
    · cases h
      rfl
    · cases h
  | succ n ih =>
    rw [rawUintBytes] at h
    split at h
    · cases h
      exact Nat.zero_le _
    · obtain ⟨tail, htail, h⟩ := Option.bind_eq_some_iff.mp h
      cases h
      exact Nat.succ_le_succ (ih htail)

/-- The bytes that are left are those of the bits that are not read yet. -/
theorem reads_rawUintLoop (v : BitVec 64) {n p : ℕ} (h : rawUintBytes n (v >>> (8 * p)) = some bytes) :
    Reads (rawUintLoop bytes.length p (mid v 0 (8 * p))) bytes v := by
  have hdone {p : ℕ} (h0 : v >>> (8 * p) = 0) : mid v 0 (8 * p) = v := by
    refine mid_of_lt v ?_
    have h0 := congrArg BitVec.toNat h0
    rw [BitVec.toNat_ushiftRight, Nat.shiftRight_eq_div_pow] at h0
    exact (Nat.div_eq_zero_iff_lt (by positivity)).mp h0
  induction n generalizing p bytes with
  | zero =>
    rw [rawUintBytes] at h
    split at h
    · cases h
      exact reads_pure_of_eq (hdone ‹_›)
    · cases h
  | succ n ih =>
    rw [rawUintBytes] at h
    split at h
    · cases h
      exact reads_pure_of_eq (hdone ‹_›)
    · obtain ⟨tail, htail, h⟩ := Option.bind_eq_some_iff.mp h
      cases h
      rw [← BitVec.shiftRight_add] at htail
      have hbyte : byte (v >>> (8 * p)) 0 = byte v (8 * p) := by
        rw [byte, byte, ← BitVec.shiftRight_add]
        rfl
      rw [hbyte, List.length_cons, rawUintLoop]
      refine reads_u8_bind ?_
      rw [word_byte, mid_or v (Nat.zero_le _) (by omega)]
      exact ih (p := p + 1) htail

/-- Eight bytes hold every number. -/
theorem rawUintBytes_isSome {n : ℕ} {val : BitVec 64} (h : val.toNat < 2 ^ (8 * n)) :
    (rawUintBytes n val).isSome := by
  induction n generalizing val with
  | zero =>
    have h0 : val = 0 := BitVec.eq_of_toNat_eq (by simpa using h)
    rw [rawUintBytes, if_pos h0]
    rfl
  | succ n ih =>
    rw [rawUintBytes]
    split
    · rfl
    · have hlt : (val >>> 8).toNat < 2 ^ (8 * n) := by
        rw [BitVec.toNat_ushiftRight, Nat.shiftRight_eq_div_pow]
        exact Nat.div_lt_of_lt_mul (by rw [← pow_add]; convert h using 2; ring)
      obtain ⟨tail, htail⟩ := Option.isSome_iff_exists.mp (ih hlt)
      rw [htail]
      rfl

theorem rawWriteUint_isSome (val : BitVec 64) : (rawWriteUint val).isSome := by
  rw [rawWriteUint]
  split
  · rfl
  · obtain ⟨bytes, hbytes⟩ := Option.isSome_iff_exists.mp (rawUintBytes_isSome (n := 8) val.isLt)
    rw [hbytes]
    rfl

theorem reads_rawUint {val : BitVec 64} (h : rawWriteUint val = some bs) : Reads rawReadUint bs val := by
  rw [rawWriteUint] at h
  split at h
  · cases h
    refine reads_u8_bind ?_
    rw [toNat_byte_of_lt (by omega), if_neg (by omega), if_pos ‹_›, word_byte_of_lt (by omega)]
    exact reads_pure val
  · obtain ⟨bytes, hbytes, h⟩ := Option.bind_eq_some_iff.mp h
    cases h
    have hlen := length_rawUintBytes hbytes
    have htag : (UInt8.ofNat (0xC0 + bytes.length)).toNat = 0xC0 + bytes.length := by
      rw [UInt8.toNat_ofNat']
      omega
    refine reads_u8_bind ?_
    rw [htag, if_neg (by omega), if_neg (by omega), Nat.add_sub_cancel_left]
    have hloop := reads_rawUintLoop val (n := 8) (p := 0) hbytes
    rwa [Nat.mul_zero, mid_self] at hloop

theorem reads_rawLen {len : BitVec 64} (h : rawWriteLen len = some bs) : Reads rawReadLen bs len := by
  rw [rawWriteLen] at h
  split at h
  · rename_i hlt
    cases h
    have htag : (castU8 (0xC0 + len)).toNat = 0xC0 + len.toNat := by
      have htag := toNat_tagged (v := len) (k := 0) (t := 0xC0) (by omega)
      rwa [pow_zero, Nat.div_one] at htag
    refine reads_u8_bind ?_
    rw [htag, if_neg (by omega), if_pos (by omega), Nat.add_sub_cancel_left]
    exact reads_pure_of_eq (by rw [BitVec.ofNat_toNat, BitVec.setWidth_eq])
  · obtain ⟨bytes, hbytes, h⟩ := Option.bind_eq_some_iff.mp h
    cases h
    exact reads_u8_bind (reads_rawUint hbytes)

theorem size_eq_some {n : ℕ} {c : BitVec 64} (h : size n = some c) : c.toNat = n := by
  rw [size, Option.ite_none_right_eq_some] at h
  obtain ⟨hn, h⟩ := h
  cases h
  rw [BitVec.toNat_ofNat, Nat.mod_eq_of_lt hn]

theorem reads_rawBytes {data : List UInt8} (h : rawWriteBytes data = some bs) :
    Reads rawReadBytes bs data := by
  obtain ⟨c, hc, h⟩ := Option.bind_eq_some_iff.mp h
  obtain ⟨len, hlen, h⟩ := Option.bind_eq_some_iff.mp h
  cases h
  refine (reads_rawLen hlen).bind ?_
  rw [size_eq_some hc]
  exact reads_take data

end Raw

section Calls

variable {P : Type} [DecidableEq P] {text : P → List UInt8} {w w' : Writer P} {r : Reader}
variable {i : Item P} {bs : List UInt8}

/-- An open writer and a reader at the same place of the file. -/
structure Corresponds (text : P → List UInt8) (w : Writer P) (r : Reader) : Prop where
  opened : w.opened = true
  strings : ∀ s k, w.istringCache.lookup s = some k → r.strings[k.toNat]? = some s
  names : r.objnameCache = w.objnameCache.map fun e => text e.1
  indices : ∀ k (e : P × BitVec 32), w.objnameCache[k]? = some e → e.2.toNat = k

theorem reads_plain {α : Type} {rd : Read α} {v : α} {f : α → Item (List UInt8)} (h : Reads rd bs v) :
    Reads (r.plain rd f) bs (f v, r) :=
  h.bind_nil (reads_pure _)

theorem toNat_setWidth_u32 (k : BitVec 32) : (k.setWidth 64).toNat = k.toNat := by
  rw [BitVec.toNat_setWidth]
  exact Nat.mod_eq_of_lt (k.isLt.trans (by norm_num))

theorem mem_of_lookup_eq_some {α β : Type} [BEq α] [LawfulBEq α] {l : List (α × β)} {a : α} {b : β}
    (h : l.lookup a = some b) : (a, b) ∈ l := by
  induction l with
  | nil => cases h
  | cons e l ih =>
    obtain ⟨x, y⟩ := e
    rw [List.lookup_cons] at h
    split at h
    · rename_i heq
      cases h
      rw [beq_iff_eq.mp heq]
      exact List.mem_cons_self
    · exact List.mem_cons_of_mem _ (ih h)

omit [DecidableEq P] in
theorem reads_istring (hc : Corresponds text w r) {s : List UInt8} (h : w.writeIstring s = some (w', bs)) :
    w' = w ∧ Reads r.readIstring bs s := by
  rw [Writer.writeIstring, if_pos hc.opened] at h
  obtain ⟨k, hk, h⟩ := Option.bind_eq_some_iff.mp h
  obtain ⟨bytes, hbytes, h⟩ := Option.bind_eq_some_iff.mp h
  cases h
  refine ⟨rfl, (reads_count hbytes).bind_nil ?_⟩
  rw [toNat_setWidth_u32, hc.strings s k hk]
  exact reads_pure s

/-- A name that the writer has met is found under its index. -/
theorem reads_open_known (hc : Corresponds text w r) {name : P} {k : BitVec 32} {key : List UInt8}
    (hk : w.objnameCache.lookup name = some k) (hkey : rawWriteUint (k.setWidth 64) = some key) :
    Reads (r.openObject (text name)) (0xFD :: key) r := by
  obtain ⟨n, hn⟩ := List.mem_iff_getElem?.mp (mem_of_lookup_eq_some hk)
  have hlt := (List.getElem?_eq_some_iff.mp hn).1
  have hidx : k.toNat = n := hc.indices n _ hn
  have hlen : r.objnameCache.length = w.objnameCache.length := by rw [hc.names, List.length_map]
  have hname : r.objnameCache[n]? = some (text name) := by rw [hc.names, List.getElem?_map, hn]; rfl
  refine reads_u8_bind ?_
  rw [if_neg (not_not.mpr rfl)]
  refine (reads_rawUint hkey).bind_nil ?_
  rw [toNat_setWidth_u32, hidx, if_neg (by omega)]
  refine (reads_pure _).bind_nil ?_
  dsimp only
  rw [if_pos hname]
  exact reads_pure r

omit [DecidableEq P] in
/-- A new name takes the same index on both sides. -/
theorem reads_open_new (hc : Corresponds text w r) {name : P} (hlt : w.objnameCache.length < 2 ^ 32)
    {key bytes : List UInt8}
    (hkey : rawWriteUint ((BitVec.ofNat 32 w.objnameCache.length).setWidth 64) = some key)
    (hbytes : rawWriteBytes (text name) = some bytes) :
    Reads (r.openObject (text name)) (0xFD :: key ++ bytes)
      {r with objnameCache := r.objnameCache ++ [text name]} := by
  have hlen : r.objnameCache.length = w.objnameCache.length := by rw [hc.names, List.length_map]
  refine reads_u8_bind ?_
  rw [if_neg (not_not.mpr rfl)]
  refine (reads_rawUint hkey).bind ?_
  rw [toNat_setWidth_u32, BitVec.toNat_ofNat, Nat.mod_eq_of_lt hlt, ← hlen, if_pos rfl]
  refine (reads_rawBytes hbytes).bind_nil ((reads_pure _).bind_nil ?_)
  dsimp only
  rw [if_pos List.getElem?_concat_length]
  exact reads_pure _

omit [DecidableEq P] in
theorem Corresponds.append (hc : Corresponds text w r) (name : P)
    (hlt : w.objnameCache.length < 2 ^ 32) :
    Corresponds text
      {w with objnameCache := w.objnameCache ++ [(name, BitVec.ofNat 32 w.objnameCache.length)]}
      {r with objnameCache := r.objnameCache ++ [text name]} where
  opened := hc.opened
  strings := hc.strings
  names := by rw [hc.names, List.map_append]; rfl
  indices := by
    intro k e he
    rw [List.getElem?_append] at he
    split at he
    · exact hc.indices k e he
    · obtain ⟨hk, he⟩ := List.getElem?_eq_some_iff.mp he
      rw [List.length_singleton] at hk
      have hk : k = w.objnameCache.length := by omega
      subst hk
      simp only [Nat.sub_self, List.getElem_cons_zero] at he
      rw [← he, BitVec.toNat_ofNat, Nat.mod_eq_of_lt hlt]

theorem reads_openObject (hc : Corresponds text w r) {name : P}
    (h : w.openObject text name = some (w', bs)) :
    ∃ r', Corresponds text w' r' ∧ Reads (r.openObject (text name)) bs r' := by
  rw [Writer.openObject] at h
  split at h
  · obtain ⟨key, hkey, h⟩ := Option.bind_eq_some_iff.mp h
    cases h
    exact ⟨r, hc, reads_open_known hc ‹_› hkey⟩
  · rw [Option.ite_none_right_eq_some] at h
    obtain ⟨hlt, h⟩ := h
    obtain ⟨key, hkey, h⟩ := Option.bind_eq_some_iff.mp h
    obtain ⟨bytes, hbytes, h⟩ := Option.bind_eq_some_iff.mp h
    cases h
    exact ⟨_, hc.append name hlt, reads_open_new hc hlt hkey hbytes⟩

theorem reads_expect (b : UInt8) : Reads (Reader.expect b) [b] () := by
  refine reads_u8_bind ?_
  rw [if_pos rfl]
  exact reads_pure ()

theorem map_prod_eq_some {α β : Type} {x : Option β} {a a' : α} {b : β}
    (h : x.map (a, ·) = some (a', b)) : a' = a ∧ x = some b := by
  obtain ⟨c, rfl, h⟩ := Option.map_eq_some_iff.mp h
  cases h
  exact ⟨rfl, rfl⟩

theorem reads_double (v : Vector UInt8 8) :
    Reads (r.plain (take 8) fun s => .double (Vector.ofFn fun i => s.getD i 0)) v.toList (.double v, r) := by
  have hread := reads_take v.toList
  rw [Vector.length_toList] at hread
  have hv : Vector.ofFn (fun i : Fin 8 => v.toList.getD i 0) = v := by
    ext i hi
    simp
  have hplain := reads_plain (r := r)
    (f := fun s => Item.double (Vector.ofFn fun i => s.getD i 0)) hread
  rwa [hv] at hplain

/-- One call of the reader for one of the writer. -/
theorem reads_encode (hc : Corresponds text w r) (h : w.encode text i = some (w', bs)) :
    ∃ r', Corresponds text w' r' ∧ Reads (r.read (i.request text)) bs (i.value text, r') := by
  cases i with
  | u8 v => cases h; exact ⟨r, hc, reads_plain (reads_u8 v)⟩
  | u16 v => cases h; exact ⟨r, hc, reads_plain (reads_u16 v)⟩
  | u32 v => cases h; exact ⟨r, hc, reads_plain (reads_u32 v)⟩
  | u64 v => cases h; exact ⟨r, hc, reads_plain (reads_u64 v)⟩
  | i64 v => cases h; exact ⟨r, hc, reads_plain (reads_u64 v)⟩
  | u64c v => cases h; exact ⟨r, hc, reads_plain (reads_u64c v)⟩
  | i64c v => cases h; exact ⟨r, hc, reads_plain (reads_i64c v)⟩
  | u128 v => cases h; exact ⟨r, hc, reads_plain (reads_u128 v)⟩
  | i128 v => cases h; exact ⟨r, hc, reads_plain (reads_i128 v)⟩
  | double v => cases h; exact ⟨r, hc, reads_double v⟩
  | tag t =>
    obtain ⟨rfl, hbs⟩ := map_prod_eq_some h
    exact ⟨r, hc, reads_plain (reads_tag hbs)⟩
  | count c =>
    obtain ⟨rfl, hbs⟩ := map_prod_eq_some h
    exact ⟨r, hc, reads_plain (reads_count hbs)⟩
  | string s =>
    obtain ⟨rfl, hbs⟩ := map_prod_eq_some h
    exact ⟨r, hc, reads_plain (reads_string hbs)⟩
  | istring s =>
    obtain ⟨rfl, hread⟩ := reads_istring hc h
    exact ⟨r, hc, reads_plain hread⟩
  | bool v => cases h; exact ⟨r, hc, reads_plain (reads_bool v)⟩
  | uint val =>
    obtain ⟨rfl, hbs⟩ := map_prod_eq_some h
    exact ⟨r, hc, reads_plain (reads_rawUint hbs)⟩
  | len l =>
    obtain ⟨rfl, hbs⟩ := map_prod_eq_some h
    exact ⟨r, hc, reads_plain (reads_rawLen hbs)⟩
  | bytes data =>
    obtain ⟨rfl, hbs⟩ := map_prod_eq_some h
    exact ⟨r, hc, reads_plain (reads_rawBytes hbs)⟩
  | openObject name =>
    obtain ⟨r', hc', h⟩ := reads_openObject hc h
    exact ⟨r', hc', h.bind_nil (reads_pure _)⟩
  | openAnonObject => cases h; exact ⟨r, hc, reads_plain (reads_expect 0xFE)⟩
  | closeObject => cases h; exact ⟨r, hc, reads_plain (reads_expect 0xFF)⟩

theorem reads_write (hc : Corresponds text w r) (h : w.write text i = some (w', bs)) :
    ∃ r', Corresponds text w' r' ∧ Reads (r.read (i.request text)) bs (i.value text, r') := by
  obtain ⟨⟨w₁, bs₁⟩, h₁, h⟩ := Option.bind_eq_some_iff.mp h
  simp only [hc.opened, if_true] at h
  cases h
  exact reads_encode hc h₁

theorem reads_writeAll {is : List (Item P)} (hc : Corresponds text w r)
    (h : w.writeAll text is = some (w', bs)) :
    ∃ r', Corresponds text w' r' ∧
      Reads (r.readAll (is.map (Item.request text))) bs (is.map (Item.value text), r') := by
  induction is generalizing w r bs with
  | nil =>
    cases h
    exact ⟨r, hc, reads_pure _⟩
  | cons i is ih =>
    obtain ⟨⟨w₁, bs₁⟩, h₁, h⟩ := Option.bind_eq_some_iff.mp h
    obtain ⟨⟨w₂, bs₂⟩, h₂, h⟩ := Option.bind_eq_some_iff.mp h
    cases h
    obtain ⟨r₁, hc₁, hr₁⟩ := reads_write hc h₁
    obtain ⟨r₂, hc₂, hr₂⟩ := ih hc₁ h₂
    exact ⟨r₂, hc₂, hr₁.bind (hr₂.bind_nil (reads_pure _))⟩

theorem reads_strings {ss : List (List UInt8)} (h : Writer.writeStrings ss = some bs) :
    Reads (Reader.readStrings ss.length) bs ss := by
  induction ss generalizing bs with
  | nil =>
    cases h
    exact reads_pure []
  | cons s ss ih =>
    obtain ⟨bs₁, h₁, h⟩ := Option.bind_eq_some_iff.mp h
    obtain ⟨bs₂, h₂, h⟩ := Option.bind_eq_some_iff.mp h
    cases h
    exact (reads_string h₁).bind ((ih h₂).bind_nil (reads_pure _))

/-- The index of a string in the table is where the reader finds it. -/
theorem getElem?_of_lookup_zipIdx {ss : List (List UInt8)} (hlt : ss.length < 2 ^ 32) {s : List UInt8}
    {k : BitVec 32} (h : (ss.zipIdx.map fun (s, i) => (s, BitVec.ofNat 32 i)).lookup s = some k) :
    ss[k.toNat]? = some s := by
  obtain ⟨⟨x, n⟩, hmem, h⟩ := List.mem_map.mp (mem_of_lookup_eq_some h)
  cases h
  rw [List.mem_zipIdx_iff_getElem?] at hmem
  have hn := (List.getElem?_eq_some_iff.mp hmem).1
  rwa [BitVec.toNat_ofNat, Nat.mod_eq_of_lt (by omega)]

variable (text) in
omit [DecidableEq P] in
/-- The table of strings puts the reader where the writer is. -/
theorem reads_openFile {sort : List (List UInt8 × BitVec 32) → List (List UInt8 × BitVec 32)}
    (h : w.openFile sort = some (w', bs)) : ∃ r', Corresponds text w' r' ∧ Reads Reader.new bs r' := by
  obtain ⟨c, hc, h⟩ := Option.bind_eq_some_iff.mp h
  obtain ⟨n, hn, h⟩ := Option.bind_eq_some_iff.mp h
  obtain ⟨strings, hstrings, h⟩ := Option.bind_eq_some_iff.mp h
  cases h
  have hsize := size_eq_some hc
  have hlt : c.toNat < 2 ^ 32 := by
    unfold writeCount at hn
    split_ifs at hn with h1 h2
    · omega
    · rw [h2]
      decide
    · omega
    · omega
  refine ⟨⟨(sort w.istringCache).map Prod.fst, []⟩, ?_, ?_⟩
  · exact
      { opened := rfl
        strings := fun s k hk => getElem?_of_lookup_zipIdx (hsize ▸ hlt) hk
        names := rfl
        indices := fun k e he => by cases he }
  · refine (reads_count hn).bind ?_
    rw [hsize]
    exact (reads_strings hstrings).bind_nil (reads_pure _)

section Range

theorem writeCount_isSome (c : BitVec 64) :
    (writeCount c).isSome ↔ c.toNat < 2 ^ 31 ∨ c = 0xFFFFFFFF := by
  unfold writeCount
  split_ifs with h1 h2 h3 h4
  · exact iff_of_true rfl (.inl (by omega))
  · exact iff_of_true rfl (.inr h2)
  · exact iff_of_true rfl (.inl (by omega))
  · exact iff_of_true rfl (.inl h4)
  · exact iff_of_false Bool.noConfusion fun h => h.elim h4 h2

theorem writeString_isSome (s : List UInt8) : (writeString s).isSome ↔ s.length < 2 ^ 23 := by
  unfold writeString
  split_ifs with h1 h2
  · exact iff_of_true rfl (by omega)
  · exact iff_of_true rfl h2
  · exact iff_of_false Bool.noConfusion h2

theorem rawWriteLen_isSome (len : BitVec 64) : (rawWriteLen len).isSome := by
  rw [rawWriteLen]
  split
  · rfl
  · obtain ⟨bytes, hbytes⟩ := Option.isSome_iff_exists.mp (rawWriteUint_isSome len)
    rw [hbytes]
    rfl

theorem rawWriteBytes_isSome (data : List UInt8) : (rawWriteBytes data).isSome ↔ data.length < 2 ^ 64 := by
  rw [rawWriteBytes, size]
  split
  · rename_i hlt
    obtain ⟨bytes, hbytes⟩ := Option.isSome_iff_exists.mp (rawWriteLen_isSome (BitVec.ofNat 64 data.length))
    refine iff_of_true ?_ hlt
    simp only [Option.bind_eq_bind, Option.bind_some, hbytes]
    rfl
  · exact iff_of_false Bool.noConfusion ‹_›

/-- The range of values that the writer takes. -/
def Writer.Accepts (text : P → List UInt8) (w : Writer P) : Item P → Prop
  | .tag t => t.toNat < 256
  | .count c => c.toNat < 2 ^ 31 ∨ c = 0xFFFFFFFF
  | .string s => s.length < 2 ^ 23
  | .istring s => w.opened = true →
      ∃ k, w.istringCache.lookup s = some k ∧ (k.toNat < 2 ^ 31 ∨ k = 0xFFFFFFFF)
  | .bytes data => data.length < 2 ^ 64
  | .openObject name => (w.objnameCache.lookup name).isSome ∨
      w.objnameCache.length < 2 ^ 32 ∧ (text name).length < 2 ^ 64
  | _ => True

omit [DecidableEq P] in
theorem writeIstring_isSome (w : Writer P) (s : List UInt8) : (w.writeIstring s).isSome ↔
    (w.opened = true → ∃ k, w.istringCache.lookup s = some k ∧ (k.toNat < 2 ^ 31 ∨ k = 0xFFFFFFFF)) := by
  rw [Writer.writeIstring]
  by_cases hopen : w.opened = true
  · rw [if_pos hopen, imp_iff_right hopen]
    cases hk : w.istringCache.lookup s with
    | none => simp
    | some k =>
      have hcount := writeCount_isSome (k.setWidth 64)
      have heq : k.setWidth 64 = 0xFFFFFFFF ↔ k = 0xFFFFFFFF := by
        rw [← BitVec.toNat_inj, ← BitVec.toNat_inj, toNat_setWidth_u32]
        rfl
      rw [toNat_setWidth_u32, heq] at hcount
      simpa [Option.isSome_bind] using hcount
  · rw [if_neg hopen]
    refine iff_of_true ?_ fun h => absurd h hopen
    split <;> rfl

theorem openObject_isSome (w : Writer P) (name : P) : (w.openObject text name).isSome ↔
    (w.objnameCache.lookup name).isSome ∨ w.objnameCache.length < 2 ^ 32 ∧ (text name).length < 2 ^ 64 := by
  rw [Writer.openObject]
  cases hk : w.objnameCache.lookup name with
  | some k =>
    obtain ⟨key, hkey⟩ := Option.isSome_iff_exists.mp (rawWriteUint_isSome (k.setWidth 64))
    simp [hkey]
  | none =>
    obtain ⟨key, hkey⟩ := Option.isSome_iff_exists.mp
      (rawWriteUint_isSome ((BitVec.ofNat 32 w.objnameCache.length).setWidth 64))
    have hbytes := rawWriteBytes_isSome (text name)
    by_cases hlt : w.objnameCache.length < 2 ^ 32
    · simp only [hlt, if_true, hkey, ← hbytes]
      simp [Option.isSome_bind]
    · simp only [hlt, if_false]
      simp

/-- Nothing else makes the writer fail; the loop of `raw_write_uint` stays within its eight bytes. -/
theorem encode_isSome (w : Writer P) (i : Item P) : (w.encode text i).isSome ↔ w.Accepts text i := by
  cases i with
  | tag t => simp [Writer.encode, Writer.Accepts, writeTag]
  | count c => rw [Writer.encode, Option.isSome_map, Writer.Accepts, writeCount_isSome]
  | string s => rw [Writer.encode, Option.isSome_map, Writer.Accepts, writeString_isSome]
  | istring s => exact writeIstring_isSome w s
  | uint val => exact iff_of_true (by rw [Writer.encode, Option.isSome_map]; exact rawWriteUint_isSome val) trivial
  | len l => exact iff_of_true (by rw [Writer.encode, Option.isSome_map]; exact rawWriteLen_isSome l) trivial
  | bytes data => rw [Writer.encode, Option.isSome_map, Writer.Accepts, rawWriteBytes_isSome]
  | openObject name => exact openObject_isSome w name
  | _ => exact iff_of_true rfl trivial

end Range

end Calls

end Mrustc.Serialise
