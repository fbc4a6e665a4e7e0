import Mrustc.Parse.Lex

/-! # What the lexer produces

The shape of the tokens that come out of the lexer, on any input.
-/

namespace Mrustc.Parse
open Codepoint

/-- The types of the operators. -/
def symbolTypes : List TokenType :=
  tokenmap.filterMap fun entry => match entry.2 with
    | .tok type => some type
    | _ => none

/-- The types of the operators and reserved words of an edition. -/
def opTypes (edition : Edition) : List TokenType := symbolTypes ++ (rwords edition).map Prod.snd

/-- A name made of symbol characters. -/
def SymName (name : List UInt8) : Prop :=
  ∃ cs, name = encode cs ∧ ∀ c ∈ cs, issym c = true ∧ c < 0x200000

/-- The tokens an edition knows. -/
def Token.Lexed (edition : Edition) : Token → Prop
  | .op type => type ∈ opTypes edition
  | .ident name => SymName name
  | .lifetime name => SymName name ∧ name ≠ []
  | .integer v .char => v.toNat < 2 ^ 32
  | _ => True

variable {stop : LexError} {edition : Edition} {hygiene : Hygiene}

theorem append_eq_ok {str out : List UInt8} {ch : ℕ} :
    append str ch = .ok out ↔ ch < 0x200000 ∧ out = str ++ utf8 ch := by
  unfold append
  by_cases h : ch < 0x200000
  · rw [appendCp_eq h]
    simp [h, eq_comm]
  · have hn : appendCp ch = none := by
      unfold appendCp
      split_ifs <;> first | omega | rfl
    simp [hn, h]

theorem takeSyms_eq_ok {str out : List UInt8} {input rest : List ℕ}
    (h : takeSyms stop str input = .ok (out, rest)) :
    ∃ cs, input = cs ++ rest ∧ out = str ++ encode cs ∧
      (∀ c ∈ cs, issym c = true ∧ c < 0x200000) ∧ ∃ ch tail, rest = ch :: tail ∧ issym ch = false := by
  induction input generalizing str with
  | nil => cases h
  | cons ch input ih =>
    rw [takeSyms] at h
    split at h
    · rename_i hsym
      split at h
      · cases h
      · rename_i str' happ
        obtain ⟨hlt, rfl⟩ := append_eq_ok.mp happ
        obtain ⟨cs, rfl, rfl, hcs, hrest⟩ := ih h
        exact ⟨ch :: cs, rfl, by simp, List.forall_mem_cons.mpr ⟨⟨hsym, hlt⟩, hcs⟩, hrest⟩
    · rename_i hsym
      cases h
      exact ⟨[], rfl, by simp, by simp, ch, input, rfl, by simpa using hsym⟩

theorem takeSyms_append {cs : List ℕ} (hcs : ∀ c ∈ cs, issym c = true ∧ c < 0x200000)
    (str : List UInt8) {ch : ℕ} (hch : issym ch = false) (rest : List ℕ) :
    takeSyms stop str (cs ++ ch :: rest) = .ok (str ++ encode cs, ch :: rest) := by
  induction cs generalizing str with
  | nil => simp [takeSyms, hch]
  | cons c cs ih =>
    obtain ⟨⟨hc, hlt⟩, hcs⟩ := List.forall_mem_cons.mp hcs
    have happ : append str c = .ok (str ++ utf8 c) := append_eq_ok.mpr ⟨hlt, rfl⟩
    simp only [List.cons_append, takeSyms, hc, if_true, happ, ih hcs, encode_cons,
      List.append_assoc]

theorem lexFindReservedWord_mem {s : List UInt8} {type : TokenType}
    (h : lexFindReservedWord s edition = some type) : type ∈ opTypes edition := by
  have hgo : ∀ words, lexFindReservedWord.go s words = some type → type ∈ words.map Prod.snd := by
    intro words hw
    induction words with
    | nil => cases hw
    | cons entry words ih =>
      rw [lexFindReservedWord.go] at hw
      split_ifs at hw
      · cases hw
        exact List.mem_cons_self
      · exact List.mem_cons_of_mem _ (ih hw)
  exact List.mem_append_right _ (hgo _ h)

/-- What a computation returns, if it does not fail, satisfies `P`. -/
def Lex.Yields {α : Type} (x : Lex α) (P : α → Prop) : Prop := ∀ a, x = .ok a → P a

section Yields

variable {α β : Type} {P : β → Prop}

theorem yields_ok {b : β} (h : P b) : Lex.Yields (.ok b) P := by
  rintro _ ⟨⟩
  exact h

theorem yields_error (e : LexError) : Lex.Yields (.error e) P := by
  rintro _ ⟨⟩

theorem yields_bind {x : Lex α} {f : α → Lex β} (h : ∀ a, x = .ok a → Lex.Yields (f a) P) :
    Lex.Yields (x >>= f) P := by
  intro b hb
  obtain ⟨a, ha, hf⟩ := Lex.bind_eq_ok.mp hb
  exact h a ha b hf

end Yields

/-- Every token of a scan has its shape. -/
def Scanned.Lexed (edition : Edition) (out : Scanned) : Prop :=
  out.token.Lexed edition ∧ ∀ t ∈ out.next, t.Lexed edition

theorem scanned_lexed {token : Token} {input : List ℕ} (h : token.Lexed edition) :
    (Scanned.mk token [] input).Lexed edition :=
  ⟨h, by simp⟩

theorem symName_nil : SymName [] := ⟨[], rfl, by simp⟩

theorem symName_ascii {s : List Char} (hs : s.all fun c => issym (cp c) && cp c < 128) :
    SymName (ascii s) := by
  refine ⟨s.map cp, ?_, ?_⟩
  · induction s with
    | nil => rfl
    | cons c s ih =>
      simp only [List.all_cons, Bool.and_eq_true, decide_eq_true_eq] at hs
      rw [List.map_cons, encode_cons, utf8_ascii hs.1.2, ← ih (by simpa using hs.2)]
      rfl
  · intro c hc
    obtain ⟨d, hd, rfl⟩ := List.mem_map.mp hc
    have := List.all_eq_true.mp hs d hd
    simp only [Bool.and_eq_true, decide_eq_true_eq] at this
    exact ⟨this.1, by omega⟩

theorem SymName.append {s t : List UInt8} (hs : SymName s) (ht : SymName t) : SymName (s ++ t) := by
  obtain ⟨cs, rfl, hcs⟩ := hs
  obtain ⟨ds, rfl, hds⟩ := ht
  refine ⟨cs ++ ds, (encode_append cs ds).symm, fun c hc => ?_⟩
  rcases List.mem_append.mp hc with hc | hc
  · exact hcs c hc
  · exact hds c hc

theorem takeSyms_symName {str out : List UInt8} {input rest : List ℕ} (hstr : SymName str)
    (h : takeSyms stop str input = .ok (out, rest)) : SymName out := by
  obtain ⟨cs, -, rfl, hcs, -⟩ := takeSyms_eq_ok h
  exact hstr.append ⟨cs, rfl, hcs⟩

theorem lexed_op {type : TokenType} (h : type ∈ symbolTypes) : (Token.op type).Lexed edition :=
  List.mem_append_left _ h

theorem mem_symbolTypes {chars : List Char} {type : TokenType}
    (h : (chars, SymType.tok type) ∈ tokenmap) : type ∈ symbolTypes :=
  List.mem_filterMap.mpr ⟨_, h, rfl⟩

theorem searchSymbol_mem {entries : List (List Char × SymType)} {ofs : ℕ} {best : Option SymType}
    {input : List ℕ} {out : Option SymType × List ℕ}
    (hentries : ∀ entry ∈ entries, entry ∈ tokenmap)
    (hbest : ∀ type, best = some type → ∃ chars, (chars, type) ∈ tokenmap)
    (h : searchSymbol stop entries ofs best input = .ok out) :
    ∀ type, out.1 = some type → ∃ chars, (chars, type) ∈ tokenmap := by
  induction entries generalizing ofs best input with
  | nil =>
    cases h
    exact hbest
  | cons entry entries ih =>
    obtain ⟨hentry, hentries⟩ := List.forall_mem_cons.mp hentries
    rw [searchSymbol] at h
    split at h
    · cases h
      exact hbest
    · split at h
      · cases h
      · refine ih hentries ?_ h
        intro type htype
        split at htype
        · cases htype
          exact ⟨entry.1, hentry⟩
        · exact hbest type htype

theorem scanIdentifier_lexed {str : List UInt8} (hstr : SymName str) (reserved : Bool)
    (input : List ℕ) :
    Lex.Yields (scanIdentifier stop edition str reserved input) (Scanned.Lexed edition) := by
  apply yields_bind
  rintro ⟨name, rest⟩ hsyms
  have hname := takeSyms_symName hstr hsyms
  dsimp only
  split
  · split
    · rename_i type htype
      exact yields_ok (scanned_lexed (lexFindReservedWord_mem htype))
    · exact yields_ok (scanned_lexed hname)
  · exact yields_ok (scanned_lexed hname)

theorem scanRawString_lexed (isByte : Bool) (input : List ℕ) :
    Lex.Yields (scanRawString stop edition hygiene isByte input) (Scanned.Lexed edition) := by
  apply yields_bind
  rintro ⟨hashes, ch, rest⟩ -
  dsimp only
  split_ifs
  · exact scanIdentifier_lexed (symName_ascii (by decide)) true _
  · exact scanIdentifier_lexed symName_nil true _
  · exact scanIdentifier_lexed symName_nil false _
  · exact yields_error _
  · apply yields_bind
    rintro ⟨val, rest⟩ -
    exact yields_ok (scanned_lexed trivial)
  · apply yields_bind
    rintro ⟨val, rest⟩ -
    exact yields_ok (scanned_lexed trivial)

/-- A number token with a type that a number can have. -/
def Token.IsNumber : Token → Prop
  | .integer _ type => type ≠ .char
  | .float _ _ => True
  | _ => False

theorem Token.IsNumber.lexed {t : Token} (h : t.IsNumber) : t.Lexed edition := by
  cases t with
  | integer v type =>
    cases type with
    | char => exact absurd rfl h
    | _ => trivial
  | float => trivial
  | _ => exact h.elim

/-- A number first, then tokens of their shape. -/
def Scanned.IsNumber (edition : Edition) (out : Scanned) : Prop :=
  out.token.IsNumber ∧ ∀ t ∈ out.next, t.Lexed edition

theorem scanned_isNumber {token : Token} {input : List ℕ} (h : token.IsNumber) :
    (Scanned.mk token [] input).IsNumber edition :=
  ⟨h, by simp⟩

theorem integer_any (v : BitVec 128) : (Token.integer v .any).IsNumber := by
  simp [Token.IsNumber]

theorem parseFloat_isNumber (whole : BitVec 128) (input : List ℕ) :
    Lex.Yields (parseFloat stop whole input) (fun out => match out.1 with
      | .float _ => True
      | .tokens token next => token.IsNumber ∧ ∀ t ∈ next, t.Lexed edition) := by
  have hdot : (Token.op .dot).Lexed edition := lexed_op (by decide)
  apply yields_bind
  rintro ⟨frac, ch, rest⟩ -
  dsimp only
  split_ifs
  · apply yields_bind
    rintro ⟨ch, rest'⟩ -
    dsimp only
    split_ifs
    · apply yields_bind
      rintro ⟨ch, rest''⟩ -
      dsimp only
      split_ifs
      · exact yields_ok ⟨trivial, by simp [lexed_op (by decide : TokenType.tripleDot ∈ _)]⟩
      · exact yields_ok ⟨trivial, by simp [lexed_op (by decide : TokenType.doubleDotEqual ∈ _)]⟩
      · exact yields_ok ⟨trivial, by simp [lexed_op (by decide : TokenType.doubleDot ∈ _)]⟩
    · exact yields_ok ⟨integer_any _, List.forall_mem_cons.mpr ⟨hdot, List.forall_mem_cons.mpr
        ⟨trivial, by simpa using hdot⟩⟩⟩
  · apply yields_bind
    rintro ⟨sign, first, rest⟩ -
    dsimp only
    split_ifs
    · apply yields_bind
      rintro ⟨exponent, ch', rest⟩ -
      exact yields_ok trivial
    · exact yields_error _
  · exact yields_ok trivial

theorem scanFloat_digits_isNumber (val : BitVec 128) (mode : NumMode) (input : List ℕ) :
    Lex.Yields (scanFloat.digits stop val mode input) (Scanned.IsNumber edition) := by
  rw [scanFloat.digits]
  split_ifs
  · apply yields_bind
    rintro ⟨out, rest⟩ hout
    have := @parseFloat_isNumber _ edition val input _ hout
    cases out with
    | tokens token next => exact yields_ok this
    | float text =>
      apply yields_bind
      rintro ⟨suffix, rest'⟩ -
      dsimp only
      split_ifs
      · exact yields_ok (scanned_isNumber trivial)
      · split
        · exact yields_ok (scanned_isNumber trivial)
        · exact yields_error _
  · exact yields_error _

theorem scanFloat_isNumber (val : BitVec 128) (mode : NumMode) (ch : ℕ) (input : List ℕ) :
    Lex.Yields (scanFloat stop val mode ch input) (Scanned.IsNumber edition) := by
  rw [scanFloat]
  split_ifs
  · apply yields_bind
    rintro ⟨ch₁, rest₁⟩ -
    dsimp only
    split_ifs
    · apply yields_bind
      rintro ⟨ch₂, rest₂⟩ -
      dsimp only
      split_ifs
      · exact yields_ok ⟨integer_any val, by simp [lexed_op (by decide : TokenType.tripleDot ∈ _)]⟩
      · exact yields_ok ⟨integer_any val, by simp [lexed_op (by decide : TokenType.doubleDotEqual ∈ _)]⟩
      · exact yields_ok ⟨integer_any val, by simp [lexed_op (by decide : TokenType.doubleDot ∈ _)]⟩
    · exact yields_ok ⟨integer_any val, by simp [lexed_op (by decide : TokenType.dot ∈ _)]⟩
    · exact yields_ok (scanned_isNumber trivial)
    · exact scanFloat_digits_isNumber val mode _
  · exact scanFloat_digits_isNumber val mode _

theorem scanNumber_isNumber (input : List ℕ) :
    Lex.Yields (scanNumber stop input) (Scanned.IsNumber edition) := by
  apply yields_bind
  rintro ⟨val, mode, rest⟩ -
  apply yields_bind
  rintro ⟨ch, rest'⟩ -
  dsimp only
  split_ifs
  · exact scanFloat_isNumber val mode ch rest'
  · apply yields_bind
    rintro ⟨suffix, rest⟩ -
    dsimp only
    split
    · rename_i type htype
      refine yields_ok (scanned_isNumber ?_)
      rintro rfl
      exact absurd (List.mem_of_find?_eq_some htype) (by decide)
    · exact yields_error _
  · exact yields_ok (scanned_isNumber (integer_any val))

theorem scanNumber_lexed (input : List ℕ) :
    Lex.Yields (scanNumber stop input) (Scanned.Lexed edition) := by
  intro out hout
  obtain ⟨hnumber, hnext⟩ := @scanNumber_isNumber _ edition input out hout
  exact ⟨hnumber.lexed, hnext⟩

theorem scanByte_lexed (input : List ℕ) :
    Lex.Yields (scanByte stop edition hygiene input) (Scanned.Lexed edition) := by
  apply yields_bind
  rintro ⟨ch, rest⟩ -
  dsimp only
  split_ifs
  · exact scanRawString_lexed true rest
  · apply yields_bind
    rintro ⟨str, rest⟩ -
    exact yields_ok (scanned_lexed trivial)
  · apply yields_bind
    rintro ⟨val, rest⟩ -
    apply yields_bind
    rintro ⟨ch, rest⟩ -
    dsimp only
    split_ifs
    · exact yields_ok (scanned_lexed trivial)
    · exact yields_error _
  · exact scanIdentifier_lexed symName_nil true _

theorem scanWord_lexed (input : List ℕ) :
    Lex.Yields (scanWord stop edition hygiene input) (Scanned.Lexed edition) := by
  apply yields_bind
  rintro ⟨ch, rest⟩ -
  dsimp only
  split_ifs
  · exact scanNumber_lexed input
  · exact scanByte_lexed rest
  · exact scanRawString_lexed false rest
  · exact scanIdentifier_lexed symName_nil true input
  · exact yields_error _

theorem setWidth_lt (v : BitVec 32) : (v.setWidth 128).toNat < 2 ^ 32 := by
  rw [BitVec.toNat_setWidth_of_le (by norm_num)]
  exact v.isLt

theorem utf8_ne_nil {c : ℕ} (hc : c < 0x200000) : utf8 c ≠ [] := by
  unfold utf8 appendCp
  split_ifs <;> simp

theorem scanSingleQuote_lexed (input : List ℕ) :
    Lex.Yields (scanSingleQuote stop input) (Scanned.Lexed edition) := by
  apply yields_bind
  rintro ⟨first, rest⟩ -
  dsimp only
  split
  · apply yields_bind
    rintro ⟨val, rest⟩ -
    apply yields_bind
    rintro ⟨ch, rest⟩ -
    dsimp only
    split_ifs
    · exact yields_ok (scanned_lexed (setWidth_lt val))
    · exact yields_error _
  split
  · exact yields_error _
  · apply yields_bind
    rintro ⟨ch, rest'⟩ -
    dsimp only
    split_ifs with hquote hsym
    · exact yields_ok (scanned_lexed (setWidth_lt _))
    · apply yields_bind
      intro str hstr
      apply yields_bind
      rintro ⟨name, rest⟩ hname
      obtain ⟨hlt, rfl⟩ := append_eq_ok.mp hstr
      have hfirst : SymName (utf8 first) := ⟨[first], by simp, by simp [hsym, hlt]⟩
      obtain ⟨cs, -, rfl, -⟩ := takeSyms_eq_ok hname
      refine yields_ok (scanned_lexed ⟨takeSyms_symName (by simpa using hfirst) hname, ?_⟩)
      simp [utf8_ne_nil hlt]
    · exact yields_error _

theorem docTokens_lexed (str : List UInt8) (isPdoc : Bool) (input : List ℕ) :
    (docTokens hygiene str isPdoc input).Lexed edition := by
  have hop : ∀ type ∈ [TokenType.hash, .exclam, .squareOpen, .equal, .squareClose],
      (Token.op type).Lexed edition := fun type htype =>
    lexed_op ((by decide : ∀ type ∈ [TokenType.hash, .exclam, .squareOpen, .equal, .squareClose],
      type ∈ symbolTypes) type htype)
  refine ⟨hop _ (by decide), ?_⟩
  have hdoc : SymName (ascii ['d', 'o', 'c']) := symName_ascii (by decide)
  intro t ht
  rcases List.mem_append.mp ht with ht | ht
  · obtain rfl : t = .op .exclam := by
      cases isPdoc
      · cases ht
      · exact List.mem_singleton.mp ht
    exact hop _ (by decide)
  · simp only [List.mem_cons, List.not_mem_nil, or_false] at ht
    rcases ht with rfl | rfl | rfl | rfl | rfl
    · exact hop _ (by decide)
    · exact hdoc
    · exact hop _ (by decide)
    · trivial
    · exact hop _ (by decide)

theorem scanLine_lexed (input : List ℕ) :
    Lex.Yields (scanLine stop hygiene input) (Scanned.Lexed edition) := by
  apply yields_bind
  rintro ⟨ch, rest⟩ -
  dsimp only
  split_ifs
  · apply yields_bind
    rintro ⟨ch, rest⟩ -
    dsimp only
    split_ifs
    · apply yields_bind
      rintro ⟨str, rest⟩ -
      exact yields_ok (scanned_lexed trivial)
    · apply yields_bind
      rintro ⟨str, rest⟩ -
      exact yields_ok (docTokens_lexed str false rest)
  · apply yields_bind
    rintro ⟨str, rest⟩ -
    exact yields_ok (docTokens_lexed str true rest)
  · apply yields_bind
    rintro ⟨str, rest⟩ -
    exact yields_ok (scanned_lexed trivial)

theorem scanBlock_lexed (input : List ℕ) :
    Lex.Yields (scanBlock stop hygiene input) (Scanned.Lexed edition) := by
  apply yields_bind
  rintro ⟨ch, rest⟩ -
  dsimp only
  split_ifs
  · apply yields_bind
    rintro ⟨ch, rest'⟩ -
    dsimp only
    split_ifs
    · apply yields_bind
      rintro ⟨str, rest⟩ -
      exact yields_ok (scanned_lexed trivial)
    · exact yields_ok (scanned_lexed trivial)
    · apply yields_bind
      rintro ⟨str, rest⟩ -
      exact yields_ok (docTokens_lexed str false rest)
  · apply yields_bind
    rintro ⟨str, rest⟩ -
    exact yields_ok (docTokens_lexed str true rest)
  · apply yields_bind
    rintro ⟨str, rest⟩ -
    exact yields_ok (scanned_lexed trivial)

theorem scanShebang_lexed (input : List ℕ) :
    Lex.Yields (scanShebang stop input) (Scanned.Lexed edition) := by
  have hhash : (Token.op .hash).Lexed edition := lexed_op (by decide)
  apply yields_bind
  rintro ⟨ch, rest⟩ -
  dsimp only
  split_ifs
  · apply yields_bind
    rintro ⟨ch, rest'⟩ -
    dsimp only
    split_ifs
    · apply yields_bind
      intro rest _
      exact yields_ok (scanned_lexed trivial)
    · exact yields_ok ⟨hhash, by simp [lexed_op (by decide : TokenType.exclam ∈ _)]⟩
    · exact yields_error _
  · exact yields_ok (scanned_lexed hhash)
  · exact yields_error _

theorem scanToken_lexed (atStart : Bool) (input : List ℕ) :
    Lex.Yields (scanToken stop edition hygiene atStart input) (Scanned.Lexed edition) := by
  apply yields_bind
  rintro ⟨ch, rest⟩ -
  dsimp only
  split_ifs
  · exact scanShebang_lexed rest
  · exact yields_ok (scanned_lexed trivial)
  · apply yields_bind
    intro rest _
    exact yields_ok (scanned_lexed trivial)
  · apply yields_bind
    rintro ⟨sym, rest⟩ hsym
    dsimp only
    split
    · exact scanWord_lexed rest
    · rename_i type
      have htype : type ∈ symbolTypes := by
        rw [getSymbol] at hsym
        split at hsym
        · cases hsym
        · obtain ⟨chars, hchars⟩ := searchSymbol_mem (fun _ h => h) (by simp) hsym _ rfl
          exact mem_symbolTypes hchars
      split_ifs
      · apply yields_bind
        rintro ⟨ch, -⟩ -
        dsimp only
        split_ifs
        · apply yields_bind
          rintro ⟨val, mode, rest⟩ -
          exact yields_ok ⟨lexed_op (by decide), by simp [Token.Lexed]⟩
        · exact yields_ok (scanned_lexed (lexed_op (by decide)))
      · exact yields_ok (scanned_lexed (lexed_op htype))
    · exact scanLine_lexed rest
    · exact scanBlock_lexed rest
    · exact scanSingleQuote_lexed rest
    · apply yields_bind
      rintro ⟨str, rest⟩ -
      exact yields_ok (scanned_lexed trivial)

/-- One step keeps the shape of the queued tokens. -/
theorem Lexer.getTokenInt_lexed {lex lex' : Lexer} {t : Token}
    (hnext : ∀ u ∈ lex.nextTokens, u.Lexed lex.edition) (h : lex.getTokenInt = .ok (t, lex')) :
    t.Lexed lex.edition ∧ lex'.edition = lex.edition ∧
      ∀ u ∈ lex'.nextTokens, u.Lexed lex.edition := by
  rw [getTokenInt] at h
  split at h
  · rename_i token next hqueue
    cases h
    rw [hqueue] at hnext
    exact ⟨hnext t List.mem_cons_self, rfl, fun u hu => hnext u (List.mem_cons_of_mem t hu)⟩
  · rename_i hqueue
    split at h
    · rename_i out hout
      cases h
      have := scanToken_lexed lex.atStart lex.input out hout
      exact ⟨this.1, rfl, this.2⟩
    · cases h
      exact ⟨trivial, rfl, hnext⟩
    · cases h

/-- Every token of a run has its shape. -/
theorem Lexes.lexed {lex : Lexer} {ts : List Token} (h : Lexes lex ts)
    (hnext : ∀ u ∈ lex.nextTokens, u.Lexed lex.edition) : ∀ t ∈ ts, t.Lexed lex.edition := by
  induction h with
  | eof => simp
  | skip h ht hts ih =>
    obtain ⟨-, he, hq⟩ := Lexer.getTokenInt_lexed hnext h
    rw [← he] at hq ⊢
    exact ih hq
  | token h ht heof hts ih =>
    obtain ⟨htok, he, hq⟩ := Lexer.getTokenInt_lexed hnext h
    rw [← he] at hq
    exact List.forall_mem_cons.mpr ⟨htok, he ▸ ih hq⟩

end Mrustc.Parse
