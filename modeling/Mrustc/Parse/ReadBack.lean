import Mrustc.Parse.Lexed

/-! # Reading printed tokens back

What the lexer makes of the text of a token with a space behind it.
-/

namespace Mrustc.Parse
open Codec Codepoint

variable {edition : Edition} {hygiene : Hygiene}

/-- The lexer in front of `input`, with nothing queued. -/
def Lexer.ofInput (edition : Edition) (hygiene : Hygiene) (atStart : Bool) (input : List ℕ) :
    Lexer :=
  ⟨edition, hygiene, .endOfFile, atStart, [], input⟩

theorem getTokenInt_ofInput {atStart : Bool} {input rest : List ℕ} {t : Token}
    (h : scanToken .endOfFile edition hygiene atStart input = .ok ⟨t, [], rest⟩) :
    (Lexer.ofInput edition hygiene atStart input).getTokenInt =
      .ok (t, .ofInput edition hygiene false rest) := by
  simp [Lexer.getTokenInt, Lexer.ofInput, h]

/-- With a space behind it, the text reads as the token. -/
def Reads (edition : Edition) (hygiene : Hygiene) (atStart : Bool) (text : List ℕ) (t : Token) :
    Prop :=
  ∀ rest ts, Lexes (.ofInput edition hygiene false (cp ' ' :: rest)) ts →
    Lexes (.ofInput edition hygiene atStart (text ++ cp ' ' :: rest)) (t :: ts)

theorem reads_of_scan {atStart : Bool} {text : List ℕ} {t : Token}
    (h : ∀ rest, scanToken .endOfFile edition hygiene atStart (text ++ cp ' ' :: rest) =
      .ok ⟨t, [], cp ' ' :: rest⟩) (hskip : t.isSkipped = false) (heof : t ≠ .eof) :
    Reads edition hygiene atStart text t := fun rest _ hts =>
  .token (getTokenInt_ofInput (h rest)) hskip heof hts

section Words

theorem issym_facts {ch : ℕ} (h : issym ch = true) :
    ch ≠ cp '#' ∧ ch ≠ cp '"' ∧ ch ≠ cp '\'' ∧ ch ≠ cp '\n' ∧ isspace ch = false := by
  simp only [issym, isspace, isdigit, isalpha, cp, Bool.or_eq_true, Bool.and_eq_true,
    decide_eq_true_eq, beq_iff_eq, Bool.not_eq_true', Bool.or_eq_false_iff, beq_eq_false_iff_ne,
    ne_eq, Char.reduceToNat] at *
  omega

/-- Symbols start with characters that no word has. -/
theorem searchSymbol_none {stop : LexError} {entries : List (List Char × SymType)} {ch : ℕ}
    {input : List ℕ} (h : ∀ entry ∈ entries, ∃ c chars, entry.1 = c :: chars ∧ c.toNat ≠ ch) :
    searchSymbol stop entries 0 none (ch :: input) = .ok (none, ch :: input) := by
  induction entries with
  | nil => rfl
  | cons entry entries ih =>
    obtain ⟨⟨c, chars, hchars, hc⟩, hentries⟩ := List.forall_mem_cons.mp h
    obtain ⟨_, type⟩ := entry
    cases hchars
    rw [searchSymbol]
    split
    · rfl
    · simp only [List.drop_zero, matchChars, if_neg hc.symm, Nat.sub_self]
      exact ih hentries

theorem tokenmap_heads : ∀ entry ∈ tokenmap, entry.1 ≠ [] ∧ issym (cp (entry.1.headD ' ')) = false := by
  decide

theorem getSymbol_sym {stop : LexError} {ch : ℕ} (hch : issym ch = true) (input : List ℕ) :
    getSymbol stop (ch :: input) = .ok (none, ch :: input) := by
  refine searchSymbol_none fun entry hentry => ?_
  obtain ⟨hne, hsym⟩ := tokenmap_heads entry hentry
  obtain ⟨c, chars, hc⟩ := List.exists_cons_of_ne_nil hne
  refine ⟨c, chars, hc, ?_⟩
  rintro rfl
  rw [hc, List.headD_cons, hch] at hsym
  contradiction

theorem scanToken_sym {stop : LexError} {ch : ℕ} (hch : issym ch = true) (atStart : Bool)
    (input : List ℕ) : scanToken stop edition hygiene atStart (ch :: input) =
      scanWord stop edition hygiene (ch :: input) := by
  obtain ⟨hhash, -, -, hnl, hspace⟩ := issym_facts hch
  simp [scanToken, getc, hhash, hnl, hspace, getSymbol_sym hch]

/-- The token of a word. -/
def wordToken (edition : Edition) (name : List UInt8) : Token :=
  match lexFindReservedWord name edition with
  | some type => .op type
  | none => .ident name

theorem wordToken_not_skipped (name : List UInt8) :
    (wordToken edition name).isSkipped = false ∧ wordToken edition name ≠ .eof := by
  unfold wordToken
  split <;> simp [Token.isSkipped]

variable {cs : List ℕ}

theorem scanIdentifier_word (hcs : ∀ c ∈ cs, issym c = true ∧ c < 0x200000) (str : List UInt8)
    (rest : List ℕ) : scanIdentifier .endOfFile edition str true (cs ++ cp ' ' :: rest) =
      .ok ⟨wordToken edition (str ++ encode cs), [], cp ' ' :: rest⟩ := by
  rw [scanIdentifier, takeSyms_append hcs str (by decide)]
  simp only [Lex.bind_ok, if_true, wordToken]
  cases lexFindReservedWord (str ++ encode cs) edition <;> rfl

/-- A symbol character or the space behind the word. -/
theorem word_tail (hcs : ∀ c ∈ cs, issym c = true ∧ c < 0x200000) (rest : List ℕ) :
    ∃ ch tail, cs ++ cp ' ' :: rest = ch :: tail ∧
      ch ≠ cp '#' ∧ ch ≠ cp '"' ∧ ch ≠ cp '\'' := by
  cases cs with
  | nil => exact ⟨cp ' ', rest, rfl, by decide, by decide, by decide⟩
  | cons c cs =>
    obtain ⟨h₁, h₂, h₃, -⟩ := issym_facts (hcs c List.mem_cons_self).1
    exact ⟨c, cs ++ cp ' ' :: rest, rfl, h₁, h₂, h₃⟩

theorem scanRawString_word (hcs : ∀ c ∈ cs, issym c = true ∧ c < 0x200000) (isByte : Bool)
    (rest : List ℕ) :
    scanRawString .endOfFile edition hygiene isByte (cs ++ cp ' ' :: rest) =
      .ok ⟨wordToken edition (encode ((if isByte then [cp 'b'] else []) ++ cp 'r' :: cs)), [],
        cp ' ' :: rest⟩ := by
  obtain ⟨ch, tail, htail, hhash, hquote, -⟩ := word_tail hcs rest
  have hword : scanIdentifier _ edition _ _ (cp 'r' :: cs ++ _) = _ := scanIdentifier_word
    (List.forall_mem_cons.mpr ⟨by decide, hcs⟩) (if isByte then ascii ['b'] else []) rest
  rw [List.cons_append, htail] at hword
  rw [htail, scanRawString, countHashes, if_neg hhash]
  simp only [Lex.bind_ok, ne_eq, hquote, not_false_eq_true, if_true, hword]
  cases isByte <;> rfl

theorem scanWord_word {c : ℕ} (hcs : ∀ d ∈ c :: cs, issym d = true ∧ d < 0x200000)
    (hdigit : isdigit c = false) (rest : List ℕ) :
    scanWord .endOfFile edition hygiene (c :: cs ++ cp ' ' :: rest) =
      .ok ⟨wordToken edition (encode (c :: cs)), [], cp ' ' :: rest⟩ := by
  obtain ⟨⟨hc, -⟩, htail⟩ := List.forall_mem_cons.mp hcs
  have hword : scanIdentifier _ edition _ _ _ = _ := scanIdentifier_word hcs [] rest
  rw [List.cons_append, scanWord, getc]
  simp only [Lex.bind_ok, hdigit, hc, if_true, Bool.false_eq_true, if_false]
  split_ifs with hb hr
  · subst hb
    obtain ⟨ch, tail, hch, -, hquote, hsingle⟩ := word_tail htail rest
    rw [scanByte, hch, getc]
    simp only [Lex.bind_ok, hquote, hsingle, if_false]
    split_ifs with hr
    · obtain ⟨ds, rfl⟩ : ∃ ds, cs = cp 'r' :: ds := by
        cases cs with
        | nil =>
          cases hch
          exact absurd hr (by decide)
        | cons d ds =>
          cases hch
          exact ⟨ds, by rw [hr]⟩
      cases hch
      exact scanRawString_word (List.forall_mem_cons.mp htail).2 true rest
    · rw [← hch]
      exact hword
  · subst hr
    exact scanRawString_word htail false rest
  · exact hword

/-- A word that starts with no digit reads as one identifier or reserved word. -/
theorem reads_word {c : ℕ} (hcs : ∀ d ∈ c :: cs, issym d = true ∧ d < 0x200000)
    (hdigit : isdigit c = false) (atStart : Bool) :
    Reads edition hygiene atStart (c :: cs) (wordToken edition (encode (c :: cs))) := by
  refine reads_of_scan (fun rest => ?_) (wordToken_not_skipped _).1 (wordToken_not_skipped _).2
  rw [List.cons_append, scanToken_sym (hcs c List.mem_cons_self).1]
  exact scanWord_word hcs hdigit rest

end Words

section Operators

/-- The types of the operators whose text is not that of another operator. -/
def readableSymbols : List TokenType :=
  symbolTypes.filter fun type => type ∉ [.dashEqual, .doubleLtEqual, .doubleGtEqual]

theorem scanToken_op {type : TokenType} (htype : type ∈ readableSymbols) (rest : List ℕ) :
    scanToken .endOfFile edition hygiene false (type.text.toList.map cp ++ cp ' ' :: rest) =
      .ok ⟨.op type, [], cp ' ' :: rest⟩ := by
  cases type <;> first | exact absurd htype (by decide +kernel) | rfl

theorem scanToken_atStart {ch : ℕ} (hch : ch ≠ cp '#') (atStart : Bool) (input : List ℕ) :
    scanToken .endOfFile edition hygiene atStart (ch :: input) =
      scanToken .endOfFile edition hygiene false (ch :: input) := by
  cases atStart
  · rfl
  · simp [scanToken, getc, hch]

theorem text_head : ∀ type ∈ readableSymbols, type ≠ .hash →
    type.text.toList ≠ [] ∧ cp (type.text.toList.headD ' ') ≠ cp '#' := by
  decide +kernel

/-- An operator reads back, a hash only behind other tokens. -/
theorem reads_op {type : TokenType} (htype : type ∈ readableSymbols) {atStart : Bool}
    (hstart : atStart = true → type ≠ .hash) :
    Reads edition hygiene atStart (type.text.toList.map cp) (.op type) := by
  refine reads_of_scan (fun rest => ?_) rfl (by simp)
  cases atStart with
  | false => exact scanToken_op htype rest
  | true =>
    obtain ⟨hne, hhead⟩ := text_head type htype (hstart rfl)
    obtain ⟨c, text, htext⟩ := List.exists_cons_of_ne_nil hne
    have hscan : scanToken _ edition hygiene _ _ = _ := scanToken_op htype rest
    rw [htext, List.map_cons, List.cons_append] at hscan ⊢
    rw [htext, List.headD_cons] at hhead
    rw [scanToken_atStart hhead, hscan]

/-- The text of the reserved word finds it. -/
def RwordReads (edition : Edition) (type : TokenType) : Prop :=
  type.text.toList ≠ [] ∧ isdigit (cp (type.text.toList.headD ' ')) = false ∧
    (∀ d ∈ type.text.toList.map cp, issym d = true ∧ d < 0x200000) ∧
    lexFindReservedWord (encode (type.text.toList.map cp)) edition = some type

instance (edition : Edition) (type : TokenType) : Decidable (RwordReads edition type) :=
  inferInstanceAs (Decidable (_ ∧ _))

theorem rwordReads : ∀ edition : Edition, ∀ type ∈ (rwords edition).map Prod.snd,
    type ≠ .rwordYield → RwordReads edition type := by
  have h2018 : ∀ type ∈ rwords2018.map Prod.snd, type ≠ .rwordYield →
      RwordReads .rust2018 type := by decide +kernel
  intro edition
  cases edition with
  | rust2015 => decide +kernel
  | rust2018 => exact h2018
  | rust2021 => exact h2018

/-- A reserved word reads back in its edition. -/
theorem reads_rword {type : TokenType} (htype : type ∈ (rwords edition).map Prod.snd)
    (hyield : type ≠ .rwordYield) (atStart : Bool) :
    Reads edition hygiene atStart (type.text.toList.map cp) (.op type) := by
  obtain ⟨hne, hdigit, hsyms, hfind⟩ := rwordReads edition type htype hyield
  obtain ⟨c, text, htext⟩ := List.exists_cons_of_ne_nil hne
  rw [htext, List.map_cons] at hsyms hfind ⊢
  rw [htext, List.headD_cons] at hdigit
  have h : Reads edition hygiene _ _ _ := reads_word hsyms hdigit atStart
  rwa [wordToken, hfind] at h

end Operators

section Numbers

theorem isdigit_cp {c : Char} (h : c.isDigit = true) : isdigit (cp c) = true := by
  simp only [Char.isDigit, isdigit, cp, Bool.and_eq_true, decide_eq_true_eq, ge_iff_le,
    UInt32.le_iff_toNat_le] at *
  exact h

theorem xdigitValue_digitChar : ∀ d < 16, xdigitValue (cp (Nat.digitChar d)) = d := by decide

theorem isxdigit_digitChar : ∀ d < 16, isxdigit (cp (Nat.digitChar d)) = true := by decide

theorem isdigit_digitChar : ∀ d < 10, isdigit (cp (Nat.digitChar d)) = true ∧
    cp (Nat.digitChar d) ≠ cp '_' ∧ xdigitValue (cp (Nat.digitChar d)) ≤ 9 := by decide

/-- Every character of a number is a digit of its base. -/
theorem mem_toDigits {b n : ℕ} (hb : 1 < b) {c : Char} (hc : c ∈ Nat.toDigits b n) :
    ∃ d < b, c = Nat.digitChar d := by
  induction n using Nat.strong_induction_on with
  | _ n ih =>
    by_cases hn : n < b
    · rw [Nat.toDigits_of_lt_base hn, List.mem_singleton] at hc
      exact ⟨n, hn, hc⟩
    · rw [Nat.toDigits_of_base_le hb (by omega), List.mem_append, List.mem_singleton] at hc
      rcases hc with hc | rfl
      · exact ih (n / b) (Nat.div_lt_self (by omega) hb) hc
      · exact ⟨n % b, Nat.mod_lt n (by omega), rfl⟩

theorem parseDigits_append {stop : LexError} {ds : List Char}
    (hds : ∀ c ∈ ds, ∃ d < 10, c = Nat.digitChar d) (n : ℕ) (input : List ℕ) :
    parseDigits stop isdigit 10 9 (BitVec.ofNat 128 n) (ds.map cp ++ input) =
      parseDigits stop isdigit 10 9
        (BitVec.ofNat 128 (ds.foldl (fun acc c => acc * 10 + xdigitValue (cp c)) n)) input := by
  induction ds generalizing n with
  | nil => rfl
  | cons c ds ih =>
    obtain ⟨⟨d, hd, rfl⟩, htail⟩ := List.forall_mem_cons.mp hds
    obtain ⟨hdigit, hunder, hle⟩ := isdigit_digitChar d hd
    rw [List.map_cons, List.cons_append, parseDigits, if_neg hunder, if_pos hdigit,
      if_neg (by omega), List.foldl_cons, ← ih htail]
    congr 1
    rw [BitVec.ofNat_add, BitVec.ofNat_mul]

/-- The characters behind a number: perhaps an underscore, then one that no number has. -/
structure NumberTail (tail : List ℕ) (ch : ℕ) (input : List ℕ) : Prop where
  eq : tail = ch :: input ∨ tail = cp '_' :: ch :: input
  notDigit : isdigit ch = false
  notBase : ch ≠ cp 'x' ∧ ch ≠ cp 'b' ∧ ch ≠ cp 'o'
  notUnderscore : ch ≠ cp '_'

theorem NumberTail.parseDigits {stop : LexError} {tail input : List ℕ} {ch : ℕ}
    (h : NumberTail tail ch input) (val : BitVec 128) :
    parseDigits stop isdigit 10 9 val tail = .ok (val, ch :: input) := by
  have hch : Parse.parseDigits stop isdigit 10 9 val (ch :: input) = .ok (val, ch :: input) := by
    rw [Parse.parseDigits, if_neg h.notUnderscore, if_neg (by simp [h.notDigit])]
  rcases h.eq with rfl | rfl
  · exact hch
  · rw [Parse.parseDigits, if_pos rfl, hch]

theorem NumberTail.getcNum {stop : LexError} {tail input : List ℕ} {ch : ℕ}
    (h : NumberTail tail ch input) : getcNum stop tail = .ok (ch, input) := by
  rcases h.eq with rfl | rfl <;> simp [Parse.getcNum, h.notUnderscore]

/-- A decimal number, with something behind it that is no part of it. -/
theorem parseInt_toDigits {stop : LexError} (n : ℕ) {tail input : List ℕ} {ch : ℕ}
    (h : NumberTail tail ch input) :
    parseInt stop ((Nat.toDigits 10 n).map cp ++ tail) =
      .ok (BitVec.ofNat 128 n, .dec, ch :: input) := by
  have hdigits : ∀ c ∈ Nat.toDigits 10 n, ∃ d < 10, c = Nat.digitChar d := fun c hc =>
    mem_toDigits (by norm_num) hc
  have hvalue : (Nat.toDigits 10 n).foldl (fun acc c => acc * 10 + xdigitValue (cp c)) 0 = n :=
    foldl_toDigits (fun c => xdigitValue (cp c)) (by norm_num)
      (fun d hd => xdigitValue_digitChar d (by omega)) n
  by_cases hn : n = 0
  · subst hn
    obtain ⟨hx, hb, ho⟩ := h.notBase
    simp only [Nat.toDigits_zero, List.map_cons, List.map_nil, List.cons_append, List.nil_append,
      parseInt, getc, Lex.bind_ok, if_true, h.getcNum, if_neg hx, if_neg hb, if_neg ho,
      h.parseDigits, Lex.pure_eq]
    rfl
  · obtain ⟨c, cs, hc⟩ := List.exists_cons_of_ne_nil (Nat.toDigits_ne_nil (b := 10) (n := n))
    have hzero : c ≠ '0' := by
      rintro rfl
      exact hn (toDigits_head_ne_zero n cs hc)
    rw [hc] at hdigits hvalue ⊢
    obtain ⟨⟨d, hd, rfl⟩, hcs⟩ := List.forall_mem_cons.mp hdigits
    have hdigit := (isdigit_digitChar d hd).1
    have hcp : cp (Nat.digitChar d) ≠ cp '0' := fun he => hzero (Char.toNat_inj.mp he)
    rw [List.foldl_cons, Nat.zero_mul, Nat.zero_add] at hvalue
    rw [List.map_cons, List.cons_append, parseInt, getc]
    simp only [Lex.bind_ok, if_neg hcp, if_pos hdigit]
    rw [parseDigits_append hcs, h.parseDigits, hvalue]
    rfl

theorem isdigit_not_sym_start {ch : ℕ} (h : isdigit ch = true) : issym ch = true := by
  simp [issym, h]

theorem scanWord_digit {stop : LexError} {ch : ℕ} (h : isdigit ch = true) (input : List ℕ) :
    scanWord stop edition hygiene (ch :: input) = scanNumber stop (ch :: input) := by
  simp [scanWord, getc, h]

theorem toDigits_head_isdigit (n : ℕ) :
    ∃ ch input, (Nat.toDigits 10 n).map cp = ch :: input ∧ isdigit ch = true := by
  obtain ⟨c, cs, hc, hd⟩ := toDigits_head (n := n)
  exact ⟨cp c, cs.map cp, by rw [hc, List.map_cons], isdigit_cp hd⟩

theorem scanToken_number (n : ℕ) (atStart : Bool) (tail : List ℕ) :
    scanToken .endOfFile edition hygiene atStart ((Nat.toDigits 10 n).map cp ++ tail) =
      scanNumber .endOfFile ((Nat.toDigits 10 n).map cp ++ tail) := by
  obtain ⟨ch, input, hch, hdigit⟩ := toDigits_head_isdigit n
  rw [hch, List.cons_append, scanToken_sym (isdigit_not_sym_start hdigit), scanWord_digit hdigit]

theorem reads_number (v : BitVec 128) (atStart : Bool) :
    Reads edition hygiene atStart ((Nat.toDigits 10 v.toNat).map cp) (.integer v .any) := by
  refine reads_of_scan (fun rest => ?_) rfl (by simp)
  have htail : NumberTail (cp ' ' :: rest) (cp ' ') rest :=
    ⟨Or.inl rfl, by decide, by decide, by decide⟩
  rw [scanToken_number, scanNumber, parseInt_toDigits _ htail, BitVec.ofNat_toNat,
    BitVec.setWidth_eq]
  rfl

/-- A number with a suffix reads back, whatever its type. -/
theorem reads_suffixed (v : BitVec 128) {type : CoreType} (htype : type ≠ .any ∧ type ≠ .char)
    (atStart : Bool) : Reads edition hygiene atStart
      ((Nat.toDigits 10 v.toNat ++ '_' :: (coretypeName type).toList).map cp)
      (.integer v type) := by
  have hname : ∀ type : CoreType, type ≠ .any ∧ type ≠ .char → ∃ c cs,
      (coretypeName type).toList = c :: cs ∧ isdigit (cp c) = false ∧
        (cp c ≠ cp 'x' ∧ cp c ≠ cp 'b' ∧ cp c ≠ cp 'o') ∧ cp c ≠ cp '_' ∧
        ¬ (cp c = cp 'e' ∨ cp c = cp 'E' ∨ cp c = cp '.') ∧ issym (cp c) = true ∧
        (∀ d ∈ (c :: cs).map cp, issym d = true ∧ d < 0x200000) ∧
        integerSuffix (encode ((c :: cs).map cp)) = some type := by
    intro type htype
    cases type <;> first | exact absurd rfl htype.1 | exact absurd rfl htype.2 | skip
    all_goals exact ⟨_, _, String.toList_ofList, by decide +kernel⟩
  obtain ⟨c, cs, hcs, hdigit, hbase, hunder, hfloat, hsym, hsyms, hsuffix⟩ := hname type htype
  refine reads_of_scan (fun rest => ?_) rfl (by simp)
  have htail : NumberTail (cp '_' :: cp c :: (cs.map cp ++ cp ' ' :: rest)) (cp c)
      (cs.map cp ++ cp ' ' :: rest) := ⟨Or.inr rfl, hdigit, hbase, hunder⟩
  have htake : takeSyms .endOfFile _ _ = .ok (_, _) := takeSyms_append hsyms [] (by decide : issym (cp ' ') = false)
    rest
  rw [List.map_cons, List.cons_append, List.nil_append] at htake
  rw [hcs, List.map_append, List.map_cons, List.map_cons, List.append_assoc, List.cons_append,
    List.cons_append, scanToken_number, scanNumber, parseInt_toDigits _ htail, BitVec.ofNat_toNat,
    BitVec.setWidth_eq]
  simp only [Lex.bind_ok, getc, if_neg hfloat, hsym, if_true, htake]
  rw [List.map_cons] at hsuffix
  simp only [hsuffix]
  rfl

end Numbers

end Mrustc.Parse
