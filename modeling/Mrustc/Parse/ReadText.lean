import Mrustc.Parse.ReadBack

/-! # Reading printed lifetimes, characters and strings back -/

namespace Mrustc.Parse
open Codec Codepoint

variable {edition : Edition} {hygiene : Hygiene}

section Quotes

variable {stop : LexError}

theorem getSymbol_singleQuote (ch : ℕ) (input : List ℕ) :
    getSymbol stop (cp '\'' :: ch :: input) = .ok (some .singleQuote, ch :: input) := rfl

theorem getSymbol_doubleQuote (ch : ℕ) (input : List ℕ) :
    getSymbol stop (cp '"' :: ch :: input) = .ok (some .doubleQuote, ch :: input) := rfl

theorem getSymbol_blockComment (ch : ℕ) (input : List ℕ) :
    getSymbol stop (cp '/' :: cp '*' :: ch :: input) = .ok (some .blockComment, ch :: input) := rfl

theorem scanToken_singleQuote (atStart : Bool) (ch : ℕ) (input : List ℕ) :
    scanToken stop edition hygiene atStart (cp '\'' :: ch :: input) =
      scanSingleQuote stop (ch :: input) := by
  cases atStart <;> rfl

theorem scanToken_doubleQuote (atStart : Bool) (ch : ℕ) (input : List ℕ) :
    scanToken stop edition hygiene atStart (cp '"' :: ch :: input) =
      scanString stop addCodepoint [] (ch :: input) >>= fun out =>
        .ok ⟨.string out.1 hygiene, [], out.2⟩ := by
  cases atStart <;> rfl

theorem scanToken_blockComment (atStart : Bool) (ch : ℕ) (input : List ℕ) :
    scanToken stop edition hygiene atStart (cp '/' :: cp '*' :: ch :: input) =
      scanBlock stop hygiene (ch :: input) := by
  cases atStart <;> rfl

end Quotes

/-- A lifetime reads back. -/
theorem reads_lifetime {cs : List ℕ} (hne : cs ≠ [])
    (hcs : ∀ c ∈ cs, issym c = true ∧ c < 0x200000) (atStart : Bool) :
    Reads edition hygiene atStart (cp '\'' :: cs) (.lifetime (encode cs)) := by
  obtain ⟨c, cs, rfl⟩ := List.exists_cons_of_ne_nil hne
  obtain ⟨⟨hc, hlt⟩, htail⟩ := List.forall_mem_cons.mp hcs
  have hback : c ≠ cp '\\' := by
    rintro rfl
    exact absurd hc (by decide)
  obtain ⟨-, -, hquote, -⟩ := issym_facts hc
  refine reads_of_scan (fun rest => ?_) rfl (by simp)
  obtain ⟨ch, tail, hch, -, -, hsingle⟩ := word_tail htail rest
  have happ : append [] c = .ok (utf8 c) := append_eq_ok.mpr ⟨hlt, rfl⟩
  have htake : takeSyms .endOfFile _ _ = .ok (_, _) := takeSyms_append htail (utf8 c)
    (by decide : issym (cp ' ') = false) rest
  rw [List.cons_append, List.cons_append, scanToken_singleQuote, scanSingleQuote]
  rw [hch] at htake ⊢
  simp only [getc, Lex.bind_ok, if_neg hback, if_neg hquote, if_neg hsingle, hc, if_true, happ,
    htake]
  rfl

section Escapes

theorem xdigitsValue_toDigits (n : ℕ) :
    xdigitsValue 0 ((Nat.toDigits 16 n).map cp) = BitVec.ofNat 32 n := by
  have hfold : ∀ (ds : List Char) (acc : ℕ), xdigitsValue (BitVec.ofNat 32 acc) (ds.map cp) =
      BitVec.ofNat 32 (ds.foldl (fun acc c => acc * 16 + xdigitValue (cp c)) acc) := by
    intro ds
    induction ds with
    | nil => exact fun _ => rfl
    | cons d ds ih =>
      intro acc
      rw [List.foldl_cons, ← ih, BitVec.ofNat_add, BitVec.ofNat_mul]
      rfl
  rw [show (0 : BitVec 32) = BitVec.ofNat 32 0 from rfl, hfold,
    foldl_toDigits (fun c => xdigitValue (cp c)) (by norm_num) xdigitValue_digitChar]

/-- A printed `\u` escape, behind the backslash. -/
theorem parseEscape_unicode {stop : LexError} (enclosing : Char) (n : ℕ) (rest : List ℕ) :
    parseEscape stop enclosing false
      (cp 'u' :: cp '\x7b' :: (Nat.toDigits 16 n).map cp ++ cp '\x7d' :: rest) =
        .ok (BitVec.ofNat 32 n, rest) := by
  have hne : (Nat.toDigits 16 n).map cp ≠ [] := by simp [Nat.toDigits_ne_nil]
  have hdigits : ∀ d ∈ (Nat.toDigits 16 n).map cp, isxdigit d = true := by
    intro d hd
    obtain ⟨c, hc, rfl⟩ := List.mem_map.mp hd
    obtain ⟨k, hk, rfl⟩ := mem_toDigits (by norm_num) hc
    exact isxdigit_digitChar k hk
  rw [List.cons_append, List.cons_append, parseEscape, if_neg (by decide), if_pos rfl,
    ← List.cons_append, unicodeEscape_braces stop hne hdigits, xdigitsValue_toDigits]

theorem ascii_eq_encode {s : List Char} (hs : ∀ c ∈ s, cp c < 128) :
    ascii s = encode (s.map cp) := by
  induction s with
  | nil => rfl
  | cons c s ih =>
    obtain ⟨hc, hs⟩ := List.forall_mem_cons.mp hs
    rw [List.map_cons, encode_cons, utf8_ascii hc, ← ih hs]
    rfl

theorem cp_ofNat : ∀ n < 128, cp (Char.ofNat n) = n := by decide

/-- A character literal reads back. -/
theorem reads_char {v : BitVec 128} (hv : v.toNat < 2 ^ 32) (atStart : Bool) :
    Reads edition hygiene atStart ((charText v).map cp) (.integer v .char) := by
  have hwidth : (BitVec.ofNat 32 v.toNat).setWidth 128 = v := by
    apply BitVec.eq_of_toNat_eq
    rw [BitVec.toNat_setWidth_of_le (by norm_num), BitVec.toNat_ofNat, Nat.mod_eq_of_lt hv]
  refine reads_of_scan (fun rest => ?_) rfl (by simp)
  unfold charText
  split_ifs with hprint hquote hback
  · obtain rfl : v = BitVec.ofNat 128 (cp '\'') := by rw [← hquote, BitVec.ofNat_toNat,
      BitVec.setWidth_eq]
    cases atStart <;> rfl
  · obtain rfl : v = BitVec.ofNat 128 (cp '\\') := by rw [← hback, BitVec.ofNat_toNat,
      BitVec.setWidth_eq]
    cases atStart <;> rfl
  · simp only [List.map_cons, List.map_nil, List.cons_append, List.nil_append,
      cp_ofNat v.toNat hprint.2]
    rw [scanToken_singleQuote, scanSingleQuote]
    simp only [getc, Lex.bind_ok, if_neg hback, if_neg hquote, if_true, hwidth]
    rfl
  · simp only [List.map_append, List.map_cons, List.map_nil, List.cons_append, List.nil_append,
      List.append_assoc]
    rw [scanToken_singleQuote, scanSingleQuote]
    have hescape : parseEscape .endOfFile _ _ _ = _ := parseEscape_unicode '\'' v.toNat
      (cp '\'' :: cp ' ' :: rest)
    rw [List.cons_append, List.cons_append] at hescape
    simp only [getc, Lex.bind_ok, if_true, hescape, hwidth]
    rfl

end Escapes

section Strings

variable {stop : LexError} {add : List UInt8 → BitVec 32 → Lex (List UInt8)}

theorem scanString_quote (str : List UInt8) (input : List ℕ) :
    scanString stop add str (cp '"' :: input) = .ok (str, input) := by
  rw [scanString, if_pos rfl]

theorem scanString_char {ch : ℕ} (hquote : ch ≠ cp '"') (hback : ch ≠ cp '\\')
    (hlt : ch < 0x200000) (str : List UInt8) (input : List ℕ) :
    scanString stop add str (ch :: input) = scanString stop add (str ++ utf8 ch) input := by
  have happ : append str ch = .ok (str ++ utf8 ch) := append_eq_ok.mpr ⟨hlt, rfl⟩
  rw [scanString, if_neg hquote, if_neg hback, happ]

theorem scanString_escape {v : BitVec 32} {input rest : List ℕ}
    (h : parseEscape stop '"' false input = .ok (v, rest)) (str : List UInt8) :
    scanString stop add str (cp '\\' :: input) =
      if v = BitVec.allOnes 32 then scanString stop add str rest
      else add str v >>= fun str => scanString stop add str rest := by
  rw [scanString, if_neg (by decide), if_pos rfl]
  split
  · rename_i e he
    rw [h] at he
    cases he
  · rename_i v' rest' he
    rw [h] at he
    cases he
    split_ifs
    · rfl
    · cases add str v <;> rfl

theorem ofNat_ne_allOnes {n : ℕ} (hn : n < 2 ^ 32 - 1) : BitVec.ofNat 32 n ≠ BitVec.allOnes 32 := by
  intro h
  have := congrArg BitVec.toNat h
  rw [BitVec.toNat_ofNat, Nat.mod_eq_of_lt (by omega), BitVec.toNat_allOnes] at this
  omega

/-- An escape that stands for a byte below `0x80`. -/
theorem scanString_escape_ascii {b : UInt8} (hb : b < 0x80) {input rest : List ℕ}
    (h : parseEscape stop '"' false input = .ok (BitVec.ofNat 32 b.toNat, rest))
    (str : List UInt8) : scanString stop addCodepoint str (cp '\\' :: input) =
      scanString stop addCodepoint (str ++ [b]) rest := by
  have hb' : b.toNat < 128 := UInt8.lt_iff_toNat_lt.mp hb
  have hadd : addCodepoint str (BitVec.ofNat 32 b.toNat) = .ok (str ++ [b]) := by
    rw [addCodepoint, BitVec.toNat_ofNat, Nat.mod_eq_of_lt (by omega)]
    refine append_eq_ok.mpr ⟨by omega, ?_⟩
    rw [utf8_ascii hb', Nat.toUInt8, UInt8.ofNat_toNat]
  rw [scanString_escape h, if_neg (ofNat_ne_allOnes (by omega)), hadd, Lex.bind_ok]

theorem toNat_ne_cp {b : UInt8} {c : Char} (h : b ≠ c.toUInt8) (hc : c.toNat < 256) :
    b.toNat ≠ cp c := by
  intro he
  refine h (UInt8.toNat_inj.mp ?_)
  rw [he, Char.toUInt8, UInt32.toNat_toUInt8]
  exact (Nat.mod_eq_of_lt hc).symm

/-- The text of a `\u` escape. -/
theorem unicode_text (n : ℕ) (input : List ℕ) :
    (['\\', 'u', '\x7b'] ++ Nat.toDigits 16 n ++ ['\x7d']).map cp ++ input =
      cp '\\' :: (cp 'u' :: cp '\x7b' :: (Nat.toDigits 16 n).map cp ++ cp '\x7d' :: input) := by
  simp

/-- An escaped byte reads as itself below `0x80`. -/
theorem scanString_escapedByte {b : UInt8} (hb : b < 0x80) (str : List UInt8) (input : List ℕ) :
    scanString stop addCodepoint str ((escapedByte b).map cp ++ input) =
      scanString stop addCodepoint (str ++ [b]) input := by
  have hb' : b.toNat < 128 := UInt8.lt_iff_toNat_lt.mp hb
  unfold escapedByte
  split_ifs with hquote hback hnl hprint
  · subst hquote
    exact scanString_escape_ascii hb (by rfl) str
  · subst hback
    exact scanString_escape_ascii hb (by rfl) str
  · subst hnl
    exact scanString_escape_ascii hb (by rfl) str
  · rw [List.map_cons, List.map_nil, List.cons_append, List.nil_append, cp_ofNat b.toNat hb',
      scanString_char (toNat_ne_cp hquote (by decide)) (toNat_ne_cp hback (by decide)) (by omega),
      utf8_ascii hb', Nat.toUInt8, UInt8.ofNat_toNat]
  · rw [unicode_text]
    exact scanString_escape_ascii hb (parseEscape_unicode '"' b.toNat input) str

/-- From `0x80` on the escape is out of range, or adds nothing. -/
theorem scanString_escapedByte_high {b : UInt8} (hb : ¬ b < 0x80) (str : List UInt8)
    (input : List ℕ) :
    scanString stop addCodepoint str ((escapedByte b).map cp ++ input) =
      if b = 0xFF then scanString stop addCodepoint str input else .error .runtimeError := by
  have hb' : 128 ≤ b.toNat := by
    rw [UInt8.lt_iff_toNat_lt] at hb
    exact Nat.le_of_not_lt hb
  have hlt := b.toNat_lt
  have hne : ∀ c : Char, c.toUInt8 < 0x80 → b ≠ c.toUInt8 := by
    rintro c hc rfl
    exact hb hc
  have hprint : ¬ (0x20 ≤ b ∧ b < 0x7F) := by
    rintro ⟨-, h⟩
    have : b.toNat < 127 := UInt8.lt_iff_toNat_lt.mp h
    omega
  rw [escapedByte, if_neg (hne _ (by decide)), if_neg (hne _ (by decide)),
    if_neg (hne _ (by decide)), if_neg hprint, if_neg hb, unicode_text,
    scanString_escape (parseEscape_unicode '"' _ input)]
  by_cases hff : b = 0xFF
  · subst hff
    rfl
  · have hff' : b.toNat ≠ 255 := fun h => hff (UInt8.toNat_inj.mp h)
    rw [if_neg (ofNat_ne_allOnes (by omega)), if_neg hff, addCodepoint, BitVec.toNat_ofNat,
      Nat.mod_eq_of_lt (by omega)]
    have happ : appendCp (b.toNat + 0xFFFFFF00) = none := by
      unfold appendCp
      split_ifs <;> first | omega | rfl
    rw [append, happ]
    rfl

/-- What reads of a printed string, if anything does: its bytes below `0x80`. -/
theorem scanString_printed {s : List UInt8} {str out : List UInt8} {input rest : List ℕ}
    (h : scanString stop addCodepoint str ((s.flatMap escapedByte).map cp ++ cp '"' :: input) =
      .ok (out, rest)) : out = str ++ s.filter (· < 0x80) ∧ rest = input := by
  induction s generalizing str with
  | nil =>
    rw [List.flatMap_nil, List.map_nil, List.nil_append, scanString_quote] at h
    cases h
    simp
  | cons b s ih =>
    rw [List.flatMap_cons, List.map_append, List.append_assoc] at h
    by_cases hb : b < 0x80
    · rw [scanString_escapedByte hb] at h
      obtain ⟨rfl, rfl⟩ := ih h
      simp [hb]
    · rw [scanString_escapedByte_high hb] at h
      split_ifs at h
      obtain ⟨rfl, rfl⟩ := ih h
      simp [hb]

theorem scanString_ascii {s : List UInt8} (hs : ∀ b ∈ s, b < 0x80) (str : List UInt8)
    (input : List ℕ) :
    scanString stop addCodepoint str ((s.flatMap escapedByte).map cp ++ cp '"' :: input) =
      .ok (str ++ s, input) := by
  induction s generalizing str with
  | nil => rw [List.flatMap_nil, List.map_nil, List.nil_append, scanString_quote, List.append_nil]
  | cons b s ih =>
    obtain ⟨hb, hs⟩ := List.forall_mem_cons.mp hs
    rw [List.flatMap_cons, List.map_append, List.append_assoc, scanString_escapedByte hb, ih hs,
      List.append_assoc, List.singleton_append]

/-- The text of a scope reads as a comment. -/
theorem scanBlockComment_plain {body : List ℕ}
    (hbody : ∀ c ∈ body, c ≠ cp '/' ∧ c ≠ cp '*' ∧ c < 0x200000) (str : List UInt8)
    (input : List ℕ) :
    scanBlockComment stop str 0 (body ++ cp '*' :: cp '/' :: input) =
      .ok (str ++ encode body, input) := by
  induction body generalizing str with
  | nil => simp [scanBlockComment, cp]
  | cons c body ih =>
    obtain ⟨⟨hslash, hstar, hlt⟩, hbody⟩ := List.forall_mem_cons.mp hbody
    have happ : append str c = .ok (str ++ utf8 c) := append_eq_ok.mpr ⟨hlt, rfl⟩
    rw [List.cons_append, scanBlockComment.eq_def]
    simp only [if_neg hslash, if_neg hstar, happ, ih hbody, encode_cons, List.append_assoc]

theorem scanBlock_plain {body : List ℕ}
    (hbody : ∀ c ∈ body, c ≠ cp '/' ∧ c ≠ cp '*' ∧ c ≠ cp '!' ∧ c < 0x200000) (input : List ℕ) :
    scanBlock stop hygiene (body ++ cp '*' :: cp '/' :: input) =
      .ok ⟨.comment (encode body), [], input⟩ := by
  have hplain : scanBlockComment stop _ _ _ = _ := scanBlockComment_plain
    (fun c hc => ⟨(hbody c hc).1, (hbody c hc).2.1, (hbody c hc).2.2.2⟩) [] input
  cases body with
  | nil => rfl
  | cons c body =>
    obtain ⟨-, hstar, hbang, -⟩ := hbody c List.mem_cons_self
    rw [List.cons_append] at hplain ⊢
    rw [scanBlock, getc]
    simp only [Lex.bind_ok, if_neg hstar, if_neg hbang, hplain]
    rfl

theorem mem_intercalate {α : Type} {sep : List α} {x : α} :
    ∀ {l : List (List α)}, x ∈ sep.intercalate l → x ∈ sep ∨ ∃ ys ∈ l, x ∈ ys
  | [], h => by simp at h
  | [ys], h => by
    rw [List.intercalate_singleton] at h
    exact Or.inr ⟨ys, List.mem_cons_self, h⟩
  | ys :: zs :: l, h => by
    rw [List.intercalate_cons_cons, List.mem_append, List.mem_append] at h
    rcases h with (h | h) | h
    · exact Or.inr ⟨ys, List.mem_cons_self, h⟩
    · exact Or.inl h
    · rcases mem_intercalate h with h | ⟨ws, hws, h⟩
      · exact Or.inl h
      · exact Or.inr ⟨ws, List.mem_cons_of_mem ys hws, h⟩

theorem mem_contextsText {base : ℕ} (hbase : base = 10 ∨ base = 16) (contexts : Hygiene) :
    ∀ c ∈ (contextsText base contexts).map cp,
      c ≠ cp '/' ∧ c ≠ cp '*' ∧ c ≠ cp '!' ∧ c < 0x200000 := by
  have hchar : ∀ d < 16, cp (Nat.digitChar d) ≠ cp '/' ∧ cp (Nat.digitChar d) ≠ cp '*' ∧
      cp (Nat.digitChar d) ≠ cp '!' ∧ cp (Nat.digitChar d) < 0x200000 := by decide
  have hsep : ∀ x ∈ [',', ' '], cp x ≠ cp '/' ∧ cp x ≠ cp '*' ∧ cp x ≠ cp '!' ∧
      cp x < 0x200000 :=
    List.forall_mem_cons.mpr ⟨by decide, List.forall_mem_singleton.mpr (by decide)⟩
  intro c hc
  obtain ⟨x, hx, rfl⟩ := List.mem_map.mp hc
  rcases mem_intercalate hx with hx | ⟨ys, hys, hx⟩
  · exact hsep x hx
  · obtain ⟨n, -, rfl⟩ := List.mem_map.mp hys
    obtain ⟨d, hd, rfl⟩ := mem_toDigits (by omega) hx
    exact hchar d (by omega)

theorem lexes_hygieneText {base : ℕ} (hbase : base = 10 ∨ base = 16) (contexts : Hygiene)
    {rest : List ℕ} {ts : List Token} (h : Lexes (.ofInput edition hygiene false rest) ts) :
    Lexes (.ofInput edition hygiene false ((hygieneText base contexts).map cp ++ rest)) ts := by
  refine .skip (t := .comment (encode ((contextsText base contexts).map cp))) ?_ rfl h
  have hscan : scanBlock .endOfFile hygiene _ = _ := scanBlock_plain
    (mem_contextsText hbase contexts) rest
  obtain ⟨ch, tail, htail⟩ := List.exists_cons_of_ne_nil (l := (contextsText base contexts).map cp ++
    cp '*' :: cp '/' :: rest) (by simp)
  apply getTokenInt_ofInput
  have htext : (hygieneText base contexts).map cp ++ rest = cp '/' :: cp '*' ::
      ((contextsText base contexts).map cp ++ cp '*' :: cp '/' :: rest) := by
    simp [hygieneText]
  rw [htext, htail, scanToken_blockComment, ← htail, hscan]

theorem printsHex_base (s : List UInt8) :
    (if printsHex s then 16 else 10) = 10 ∨ (if printsHex s then 16 else 10) = 16 := by
  split <;> simp

theorem stringText_append (s : List UInt8) (contexts : Hygiene) (input : List ℕ) :
    (stringText s contexts).map cp ++ input = cp '"' :: ((s.flatMap escapedByte).map cp ++
      cp '"' :: ((hygieneText (if printsHex s then 16 else 10) contexts).map cp ++ input)) := by
  simp [stringText]

/-- What a printed string reads as. -/
theorem scanToken_stringText (atStart : Bool) (s : List UInt8) (contexts : Hygiene)
    (input : List ℕ) :
    scanToken stop edition hygiene atStart ((stringText s contexts).map cp ++ input) =
      scanString stop addCodepoint [] ((s.flatMap escapedByte).map cp ++ cp '"' ::
        ((hygieneText (if printsHex s then 16 else 10) contexts).map cp ++ input)) >>= fun out =>
          .ok ⟨.string out.1 hygiene, [], out.2⟩ := by
  rw [stringText_append]
  obtain ⟨ch, tail, htail⟩ := List.exists_cons_of_ne_nil (l := (s.flatMap escapedByte).map cp ++
    cp '"' :: ((hygieneText (if printsHex s then 16 else 10) contexts).map cp ++ input)) (by simp)
  rw [htail, scanToken_doubleQuote]

/-- An ASCII string reads back, with the scope of the lexer. -/
theorem reads_string {s : List UInt8} (hs : ∀ b ∈ s, b < 0x80) (contexts : Hygiene)
    (atStart : Bool) :
    Reads edition hygiene atStart ((stringText s contexts).map cp) (.string s hygiene) := by
  intro rest ts hts
  have hrest := lexes_hygieneText (printsHex_base s) contexts hts
  refine .token (getTokenInt_ofInput ?_) rfl (by simp) hrest
  rw [scanToken_stringText, scanString_ascii hs, Lex.bind_ok, List.nil_append]

theorem scanString_plain {cs : List ℕ}
    (hcs : ∀ c ∈ cs, c ≠ cp '"' ∧ c ≠ cp '\\' ∧ c < 0x200000) (str : List UInt8)
    (input : List ℕ) :
    scanString stop add str (cs ++ cp '"' :: input) = .ok (str ++ encode cs, input) := by
  induction cs generalizing str with
  | nil => rw [List.nil_append, scanString_quote, encode_nil, List.append_nil]
  | cons c cs ih =>
    obtain ⟨⟨hquote, hback, hlt⟩, hcs⟩ := List.forall_mem_cons.mp hcs
    rw [List.cons_append, scanString_char hquote hback hlt, ih hcs, encode_cons, List.append_assoc]

theorem scanToken_byteString (atStart : Bool) (input : List ℕ) :
    scanToken stop edition hygiene atStart (cp 'b' :: cp '"' :: input) =
      scanString stop addByte [] input >>= fun out => .ok ⟨.byteString out.1, [], out.2⟩ := by
  rw [scanToken_sym (by decide)]
  rfl

/-- A byte string without quotes and backslashes reads back. -/
theorem reads_byteString {cs : List ℕ}
    (hcs : ∀ c ∈ cs, c ≠ cp '"' ∧ c ≠ cp '\\' ∧ c < 0x200000) (atStart : Bool) :
    Reads edition hygiene atStart (cp 'b' :: cp '"' :: cs ++ [cp '"'])
      (.byteString (encode cs)) := by
  refine reads_of_scan (fun rest => ?_) rfl (by simp)
  have hscan : scanString .endOfFile addByte _ _ = _ := scanString_plain hcs [] (cp ' ' :: rest)
  rw [List.append_assoc, List.cons_append, List.cons_append, scanToken_byteString,
    List.singleton_append, hscan]
  rfl

end Strings

end Mrustc.Parse
