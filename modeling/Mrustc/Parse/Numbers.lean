import Mrustc.Parse.LongestSymbol
import Mrustc.Parse.ReadText

/-! # Integer literals and what stands behind them

The reference takes an integer literal and the tuple indices behind it apart at the dots. The lexer first reads a number
and the index behind it as a float, and takes that apart again, at 64 bits, when another dot follows.
-/

namespace Mrustc.Parse
open Codepoint

section Spelling

/-- The letter of a base behind the leading zero. -/
def NumMode.letter : NumMode → Option Char
  | .bin => some 'b'
  | .oct => some 'o'
  | .dec => none
  | .hex => some 'x'

def NumMode.base : NumMode → ℕ
  | .bin => 2
  | .oct => 8
  | .dec => 10
  | .hex => 16

/-- A digit of a base. -/
def NumMode.IsDigit (mode : NumMode) (c : Char) : Prop := isxdigit (cp c) = true ∧ xdigitValue (cp c) < mode.base

/-- The number that digits and underscores stand for. -/
def NumMode.value (mode : NumMode) (digits : List Char) : ℕ :=
  digits.foldl (fun n d => if d = '_' then n else n * mode.base + xdigitValue (cp d)) 0

/-- Digits and underscores, with a digit among them. -/
def NumMode.Digits (mode : NumMode) (digits : List Char) : Prop :=
  (∀ d ∈ digits, mode.IsDigit d ∨ d = '_') ∧ ∃ d ∈ digits, mode.IsDigit d

/-- Decimal digits and underscores, a digit first. -/
def IsDecimal (digits : List Char) : Prop :=
  NumMode.dec.Digits digits ∧ ∃ d ∈ digits.head?, NumMode.dec.IsDigit d

structure IntegerLiteral where
  mode : NumMode
  digits : List Char
  suffix : Option CoreType

def IntegerLiteral.value (lit : IntegerLiteral) : ℕ := lit.mode.value lit.digits

/-- The digits of a literal and the letter of their base. -/
def IntegerLiteral.number (lit : IntegerLiteral) : List Char :=
  (lit.mode.letter.elim [] fun c => ['0', c]) ++ lit.digits

def suffixText (suffix : Option CoreType) : List Char := suffix.elim [] fun type => (coretypeName type).toList

structure IntegerLiteral.WellSpelled (lit : IntegerLiteral) : Prop where
  digits : lit.mode.Digits lit.digits
  decimal : lit.mode = .dec → IsDecimal lit.digits
  suffix : ∀ type ∈ lit.suffix, type ≠ .any ∧ type ≠ .char ∧ (lit.mode = .hex → type ≠ .f32 ∧ type ≠ .f64)
  fits : lit.value < 2 ^ 128

/-- An integer literal, tuple indices, each behind a dot, and what stands behind them. -/
structure NumberText where
  lit : IntegerLiteral
  indices : List (List Char)
  rest : List ℕ

def indicesText (indices : List (List Char)) : List Char := indices.flatMap fun digits => '.' :: digits

def NumberText.input (text : NumberText) : List ℕ :=
  (text.lit.number ++ suffixText text.lit.suffix ++ indicesText text.indices).map cp ++ text.rest

def indicesTokens (indices : List (List Char)) : List Token :=
  indices.flatMap fun digits => [.op .dot, .integer (BitVec.ofNat 128 (NumMode.dec.value digits)) .any]

def NumberText.tokens (text : NumberText) : List Token :=
  .integer (BitVec.ofNat 128 text.lit.value) (text.lit.suffix.getD .any) :: indicesTokens text.indices

/-- The characters behind a number neither belong to it nor make it a float: a number without a suffix and a dot behind
it need another dot or a name, a number and one index need one more dot. -/
structure NumberText.WellFormed (text : NumberText) : Prop where
  lit : text.lit.WellSpelled
  indices : ∀ digits ∈ text.indices, IsDecimal digits ∧ NumMode.dec.value digits < 2 ^ 128
  ended : ∀ c ∈ text.rest.head?, issym c = false
  noIndex : ∀ c rest, text.rest = cp '.' :: c :: rest → isdigit c = false
  noFloat : text.lit.suffix = none → text.indices = [] → ∀ rest, text.rest = cp '.' :: rest →
    ∃ c ∈ rest.head?, c = cp '.' ∨ issym c = true
  noFloatIndex : text.lit.suffix = none → text.indices.length = 1 →
    ∃ rest, text.rest = cp '.' :: rest ∧ rest.head? ≠ some (cp '.')

/-- The lexer yields these tokens, and then does what `lex₂` does. -/
def TokensThen : Lexer → List Token → Lexer → Prop
  | lex, [], lex₂ => lex.getTokenInt = lex₂.getTokenInt
  | lex, token :: tokens, lex₂ => ∃ lex', lex.getTokenInt = .ok (token, lex') ∧ TokensThen lex' tokens lex₂

/-- The tokens of a number and of its indices, and then those of what stands behind them. -/
def NumberText.SplitsIn (text : NumberText) (edition : Edition) (hygiene : Hygiene) (atStart : Bool) : Prop :=
  TokensThen (.ofInput edition hygiene atStart text.input) text.tokens (.ofInput edition hygiene false text.rest)

/-- Nothing that the lexer looks at behind a number is cut off, and a dot there starts a range or stands in front of a
name. -/
def NumberEnds : List ℕ → Prop
  | [] => False
  | [c] => c ≠ cp '.'
  | c :: c' :: rest => c = cp '.' → if c' = cp '.' then rest ≠ [] else issym c' = true

/-- A number without a suffix is read together with the index behind it: both fit 64 bits and another dot follows. -/
def PairsSplit : (value : ℕ) → List (List Char) → List ℕ → Prop
  | _, [], rest => NumberEnds rest
  | value, [digits], rest => value < 2 ^ 64 ∧ NumMode.dec.value digits < 2 ^ 64 ∧
      ∃ c rest', rest = cp '.' :: c :: rest' ∧ c ≠ cp '.'
  | value, digits :: digits' :: indices, rest => value < 2 ^ 64 ∧ NumMode.dec.value digits < 2 ^ 64 ∧
      PairsSplit (NumMode.dec.value digits') indices rest

def NumberText.Splits (text : NumberText) : Prop :=
  match text.lit.suffix with
  | some _ => text.rest ≠ []
  | none => (text.indices ≠ [] → text.lit.mode = .dec) ∧ PairsSplit text.lit.value text.indices text.rest

end Spelling

section Digits

variable {stop : LexError}

/-- The test that ends the digits of a base. -/
def NumMode.test : NumMode → ℕ → Bool
  | .hex => isxdigit
  | _ => isdigit

theorem NumMode.IsDigit.test {mode : NumMode} {d : Char} (h : mode.IsDigit d) : mode.test (cp d) = true := by
  have hdec (hlt : xdigitValue (cp d) < 10) : isdigit (cp d) = true := by
    have hx := h.1
    simp only [isxdigit, isdigit, xdigitValue, Bool.or_eq_true, Bool.and_eq_true, decide_eq_true_eq] at hx hlt ⊢
    simp only [cp, Char.reduceToNat] at hx hlt ⊢
    split_ifs at hlt <;> omega
  cases mode with
  | hex => exact h.1
  | bin => exact hdec (lt_trans h.2 (by decide))
  | oct => exact hdec (lt_trans h.2 (by decide))
  | dec => exact hdec h.2

theorem parseDigits_digits (stop : LexError) {mode : NumMode} {digits : List Char}
    (h : ∀ d ∈ digits, mode.IsDigit d ∨ d = '_') {tail : List ℕ}
    (htail : ∀ c ∈ tail.head?, mode.test c = false ∧ c ≠ cp '_') (n : ℕ) :
    parseDigits stop mode.test mode.base (mode.base - 1) (BitVec.ofNat 128 n) (digits.map cp ++ tail) =
      if tail = [] then .error stop else .ok (BitVec.ofNat 128
        (digits.foldl (fun n d => if d = '_' then n else n * mode.base + xdigitValue (cp d)) n), tail) := by
  induction digits generalizing n with
  | nil =>
    cases tail with
    | nil => rfl
    | cons c tail =>
      have hc := htail c rfl
      rw [List.map_nil, List.nil_append, parseDigits, if_neg hc.2, hc.1]
      rfl
  | cons d ds ih =>
    rw [List.forall_mem_cons] at h
    rw [List.map_cons, List.cons_append, parseDigits, List.foldl_cons]
    by_cases hd : d = '_'
    · rw [hd, if_pos rfl, if_pos rfl]
      exact ih h.2 n
    · have hdigit := h.1.resolve_right hd
      have hcp : cp d ≠ cp '_' := fun he => hd (Char.toNat_inj.mp he)
      rw [if_neg hcp, hdigit.test, if_pos rfl, if_neg (by have := hdigit.2; omega), if_neg hd, ← ih h.2,
        BitVec.ofNat_add, BitVec.ofNat_mul]

/-- A decimal literal with a leading zero is not taken for one in another base. -/
theorem getcNum_digits (stop : LexError) {digits : List Char} (h : ∀ d ∈ digits, NumMode.dec.IsDigit d ∨ d = '_')
    {tail : List ℕ} (htail : ∀ c ∈ tail.head?, c ≠ cp '_' ∧ c ≠ cp 'x' ∧ c ≠ cp 'b' ∧ c ≠ cp 'o') :
    (tail = [] ∧ getcNum stop (digits.map cp ++ tail) = .error stop) ∨ ∃ ch rest,
      getcNum stop (digits.map cp ++ tail) = .ok (ch, rest) ∧ ch ≠ cp 'x' ∧ ch ≠ cp 'b' ∧ ch ≠ cp 'o' := by
  induction digits with
  | nil =>
    cases tail with
    | nil => exact Or.inl ⟨rfl, rfl⟩
    | cons c tail =>
      have hc := htail c rfl
      exact Or.inr ⟨c, tail, by rw [List.map_nil, List.nil_append, getcNum, if_neg hc.1], hc.2⟩
  | cons d ds ih =>
    rw [List.forall_mem_cons] at h
    rw [List.map_cons, List.cons_append, getcNum]
    split_ifs with hd
    · exact ih h.2
    · have hdigit := h.1.resolve_right fun he => hd (by rw [he])
      have hne {c : Char} (hc : isdigit (cp c) = false) : cp d ≠ cp c := fun he => by
        rw [← he, show isdigit (cp d) = true from hdigit.test] at hc
        contradiction
      exact Or.inr ⟨cp d, _, rfl, hne rfl, hne rfl, hne rfl⟩

theorem parseInt_hex (input : List ℕ) : parseInt stop (cp '0' :: cp 'x' :: input) =
    parseDigits stop NumMode.hex.test NumMode.hex.base (NumMode.hex.base - 1) (BitVec.ofNat 128 0) input >>= fun out =>
      .ok (out.1, .hex, out.2) := rfl

theorem parseInt_bin (input : List ℕ) : parseInt stop (cp '0' :: cp 'b' :: input) =
    parseDigits stop NumMode.bin.test NumMode.bin.base (NumMode.bin.base - 1) (BitVec.ofNat 128 0) input >>= fun out =>
      .ok (out.1, .bin, out.2) := rfl

theorem parseInt_oct (input : List ℕ) : parseInt stop (cp '0' :: cp 'o' :: input) =
    parseDigits stop NumMode.oct.test NumMode.oct.base (NumMode.oct.base - 1) (BitVec.ofNat 128 0) input >>= fun out =>
      .ok (out.1, .oct, out.2) := rfl

theorem parseInt_dec {ch : ℕ} (hch : isdigit ch = true) {input : List ℕ}
    (hinput : ch = cp '0' → getcNum stop input = .error stop ∨ ∃ ch' rest, getcNum stop input = .ok (ch', rest) ∧
      ch' ≠ cp 'x' ∧ ch' ≠ cp 'b' ∧ ch' ≠ cp 'o')
    (herror : getcNum stop input = .error stop → parseDigits stop isdigit 10 9 0 input = .error stop) :
    parseInt stop (ch :: input) =
      parseDigits stop NumMode.dec.test NumMode.dec.base (NumMode.dec.base - 1) (BitVec.ofNat 128 (xdigitValue ch))
        input >>= fun out => .ok (out.1, .dec, out.2) := by
  rw [parseInt, getc, Lex.bind_ok]
  by_cases hzero : ch = cp '0'
  · subst hzero
    change (getcNum stop input >>= _) = parseDigits stop isdigit 10 9 0 input >>= _
    rcases hinput rfl with h | ⟨ch', rest, h, hx, hb, ho⟩
    · rw [h, herror h]
      rfl
    · rw [h, Lex.bind_ok]
      simp only [if_neg hx, if_neg hb, if_neg ho]
      rfl
  · simp only [if_neg hzero, if_pos hch]
    rfl

/-- A number, up to the character behind its digits. -/
theorem parseInt_number {mode : NumMode} {digits : List Char} (h : mode.Digits digits)
    (hdec : mode = .dec → IsDecimal digits) {tail : List ℕ}
    (htail : ∀ c ∈ tail.head?, mode.test c = false ∧ c ≠ cp '_' ∧ c ≠ cp 'x' ∧ c ≠ cp 'b' ∧ c ≠ cp 'o') :
    parseInt stop (((mode.letter.elim [] fun c => ['0', c]) ++ digits).map cp ++ tail) =
      if tail = [] then .error stop else .ok (BitVec.ofNat 128 (mode.value digits), mode, tail) := by
  have hdigits {ds : List Char} (hds : ∀ d ∈ ds, mode.IsDigit d ∨ d = '_') (n : ℕ) :=
    parseDigits_digits stop hds (fun c hc => ⟨(htail c hc).1, (htail c hc).2.1⟩) n
  cases mode with
  | bin =>
    rw [show (((NumMode.bin.letter.elim [] fun c => ['0', c]) ++ digits).map cp ++ tail) =
      cp '0' :: cp 'b' :: (digits.map cp ++ tail) from rfl, parseInt_bin, hdigits h.1]
    split_ifs <;> rfl
  | oct =>
    rw [show (((NumMode.oct.letter.elim [] fun c => ['0', c]) ++ digits).map cp ++ tail) =
      cp '0' :: cp 'o' :: (digits.map cp ++ tail) from rfl, parseInt_oct, hdigits h.1]
    split_ifs <;> rfl
  | hex =>
    rw [show (((NumMode.hex.letter.elim [] fun c => ['0', c]) ++ digits).map cp ++ tail) =
      cp '0' :: cp 'x' :: (digits.map cp ++ tail) from rfl, parseInt_hex, hdigits h.1]
    split_ifs <;> rfl
  | dec =>
    rcases (hdec rfl).2 with ⟨d, hd, hdigit⟩
    cases digits with
    | nil => cases hd
    | cons d' ds =>
      cases hd
      have hds := (List.forall_mem_cons.mp h.1).2
      have hnot : d ≠ '_' := by
        rintro rfl
        exact absurd hdigit.1 (by decide)
      have hvalue : NumMode.dec.value (d :: ds) = ds.foldl
          (fun n d => if d = '_' then n else n * NumMode.dec.base + xdigitValue (cp d)) (xdigitValue (cp d)) := by
        rw [NumMode.value, List.foldl_cons, if_neg hnot, Nat.zero_mul, Nat.zero_add]
      have hnum := getcNum_digits stop hds fun c hc => (htail c hc).2
      rw [show (((NumMode.dec.letter.elim [] fun c => ['0', c]) ++ d :: ds).map cp ++ tail) =
        cp d :: (ds.map cp ++ tail) from rfl, parseInt_dec hdigit.test (fun _ => hnum.imp_left And.right), hdigits hds,
        hvalue]
      · split_ifs <;> rfl
      · intro herror
        rcases hnum with ⟨hnil, -⟩ | ⟨ch, rest, hok, -⟩
        · exact (hdigits hds 0).trans (if_pos hnil)
        · rw [hok] at herror
          cases herror

end Digits

section Dots

theorem dot_entries : tokenmap.all (fun entry => entry.1.head? ≠ some '.' ∨
    entry.1 ∈ [['.'], ['.', '.'], ['.', '.', '.'], ['.', '.', '=']]) = true := by decide

/-- The symbols that a text with a dot in front begins with. -/
theorem dot_entry {entry : List Char × SymType} (h : entry ∈ tokenmap) {input : List ℕ}
    (hp : word entry <+: cp '.' :: input) : entry.1 ∈ [['.'], ['.', '.'], ['.', '.', '.'], ['.', '.', '=']] := by
  apply (of_decide_eq_true (List.all_eq_true.mp dot_entries entry h)).resolve_left
  intro hne
  cases hc : entry.1 with
  | nil => exact absurd (by rw [word, hc]; rfl) (tokenmap_table.ne_nil _ (List.mem_map_of_mem h))
  | cons c cs =>
    rw [word, hc, List.map_cons, List.cons_prefix_cons] at hp
    apply hne
    rw [hc, Char.toNat_inj.mp hp.1]
    rfl

theorem getSymbol_dot {c : ℕ} (hc : c ≠ cp '.') (input : List ℕ) :
    getSymbol .endOfFile (cp '.' :: c :: input) = .ok (some (.tok .dot), c :: input) := by
  have hmem : (['.'], SymType.tok .dot) ∈ tokenmap := by decide
  apply getSymbol_eq_some hmem
  intro entry hentry hp
  have h := dot_entry hentry hp
  simp only [List.mem_cons, List.not_mem_nil, or_false] at h
  rcases h with h | h | h | h
  · rw [h]
  all_goals
    rw [word, h] at hp
    exact absurd (List.cons_prefix_cons.mp (List.cons_prefix_cons.mp hp).2).1.symm hc

theorem getSymbol_dots {c : ℕ} (hdot : c ≠ cp '.') (hequal : c ≠ cp '=') (input : List ℕ) :
    getSymbol .endOfFile (cp '.' :: cp '.' :: c :: input) = .ok (some (.tok .doubleDot), c :: input) := by
  have hmem : (['.', '.'], SymType.tok .doubleDot) ∈ tokenmap := by decide
  apply getSymbol_eq_some hmem
  intro entry hentry hp
  have h := dot_entry hentry hp
  simp only [List.mem_cons, List.not_mem_nil, or_false] at h
  rcases h with h | h | h | h
  · simp [h]
  · simp [h]
  all_goals
    rw [word, h] at hp
    have hc := (List.cons_prefix_cons.mp (List.cons_prefix_cons.mp (List.cons_prefix_cons.mp hp).2).2).1.symm
  · exact absurd hc hdot
  · exact absurd hc hequal

theorem getSymbol_three (chars : List Char) (type : SymType) (hmem : (chars, type) ∈ tokenmap)
    (hchars : chars.length = 3) (input : List ℕ) :
    getSymbol .endOfFile (chars.map cp ++ input) = .ok (some type, input) := by
  have hlen : tokenmap.all (fun entry => entry.1.length ≤ 3) = true := by decide
  apply getSymbol_eq_some hmem
  intro entry hentry _
  rw [hchars]
  exact of_decide_eq_true (List.all_eq_true.mp hlen entry hentry)

variable {edition : Edition} {hygiene : Hygiene} {atStart : Bool}

/-- The lexer inside a file, with tokens queued. -/
def Lexer.inside (edition : Edition) (hygiene : Hygiene) (next : List Token) (input : List ℕ) : Lexer :=
  ⟨edition, hygiene, .endOfFile, false, next, input⟩

theorem getTokenInt_queued (token : Token) (next : List Token) (input : List ℕ) :
    (Lexer.inside edition hygiene (token :: next) input).getTokenInt =
      .ok (token, Lexer.inside edition hygiene next input) := rfl

theorem getTokenInt_of_scan {input : List ℕ} {out : Scanned}
    (h : scanToken .endOfFile edition hygiene atStart input = .ok out) :
    (Lexer.ofInput edition hygiene atStart input).getTokenInt =
      .ok (out.token, Lexer.inside edition hygiene out.next out.input) := by
  simp only [Lexer.getTokenInt, Lexer.ofInput, h]
  rfl

theorem getTokenInt_of_error {input : List ℕ} {e : LexError} {token : Token} {lex : Lexer} (htoken : token ≠ .eof)
    (h : scanToken .endOfFile edition hygiene atStart input = .error e) :
    (Lexer.ofInput edition hygiene atStart input).getTokenInt ≠ .ok (token, lex) := by
  simp only [Lexer.getTokenInt, Lexer.ofInput, h]
  cases e <;> simp
  exact fun h => absurd h.symm htoken

theorem scanToken_dot {input rest : List ℕ} {type : TokenType} (htype : type ≠ .dot)
    (h : getSymbol .endOfFile (cp '.' :: input) = .ok (some (.tok type), rest)) :
    scanToken .endOfFile edition hygiene atStart (cp '.' :: input) = .ok ⟨.op type, [], rest⟩ := by
  have hhash : (atStart && cp '.' == cp '#') = false := by cases atStart <;> rfl
  simp only [scanToken, getc, Lex.bind_ok, hhash, h, Bool.false_eq_true, if_false,
    if_neg (by decide : cp '.' ≠ cp '\n'), (by decide : isspace (cp '.') = false), if_neg htype, Lex.pure_eq]

theorem scanToken_field {c : ℕ} (hdot : c ≠ cp '.') (hdigit : isdigit c = false) (input : List ℕ) :
    scanToken .endOfFile edition hygiene atStart (cp '.' :: c :: input) = .ok ⟨.op .dot, [], c :: input⟩ := by
  have hhash : (atStart && cp '.' == cp '#') = false := by cases atStart <;> rfl
  simp only [scanToken, getc, Lex.bind_ok, hhash, getSymbol_dot hdot, Bool.false_eq_true, if_false,
    if_neg (by decide : cp '.' ≠ cp '\n'), (by decide : isspace (cp '.') = false), if_true, hdigit, Lex.pure_eq]

theorem scanToken_index (edition : Edition) (hygiene : Hygiene) (atStart : Bool) {c : ℕ}
    (hdigit : isdigit c = true) (input : List ℕ) :
    scanToken .endOfFile edition hygiene atStart (cp '.' :: c :: input) =
      parseInt .endOfFile (c :: input) >>= fun out => .ok ⟨.op .dot, [.integer out.1 .any], out.2.2⟩ := by
  have hhash : (atStart && cp '.' == cp '#') = false := by cases atStart <;> rfl
  have hdot : c ≠ cp '.' := by
    rintro rfl
    exact absurd hdigit (by decide)
  simp only [scanToken, getc, Lex.bind_ok, hhash, getSymbol_dot hdot, Bool.false_eq_true, if_false,
    if_neg (by decide : cp '.' ≠ cp '\n'), (by decide : isspace (cp '.') = false), if_true, hdigit, Lex.pure_eq]

end Dots

section Scan

variable {edition : Edition} {hygiene : Hygiene} {atStart : Bool}

theorem tokensThen_cons {lex lex' lex₂ : Lexer} {t token : Token} {tokens : List Token}
    (h : lex.getTokenInt = .ok (t, lex')) :
    TokensThen lex (token :: tokens) lex₂ ↔ t = token ∧ TokensThen lex' tokens lex₂ := by
  constructor
  · rintro ⟨lex'', hlex, hthen⟩
    rw [h] at hlex
    cases hlex
    exact ⟨rfl, hthen⟩
  · rintro ⟨rfl, hthen⟩
    exact ⟨lex', h, hthen⟩

theorem tokensThen_queued {token t : Token} {next tokens : List Token} {input : List ℕ} {lex₂ : Lexer} :
    TokensThen (.inside edition hygiene (t :: next) input) (token :: tokens) lex₂ ↔
      t = token ∧ TokensThen (.inside edition hygiene next input) tokens lex₂ :=
  tokensThen_cons (getTokenInt_queued t next input)

theorem tokensThen_scan {input : List ℕ} {out : Scanned} {token : Token} {tokens : List Token} {lex₂ : Lexer}
    (h : scanToken .endOfFile edition hygiene atStart input = .ok out) :
    TokensThen (.ofInput edition hygiene atStart input) (token :: tokens) lex₂ ↔
      out.token = token ∧ TokensThen (.inside edition hygiene out.next out.input) tokens lex₂ :=
  tokensThen_cons (getTokenInt_of_scan h)

/-- The scan does not give an integer. -/
def NotInteger (x : Lex Scanned) : Prop := ∀ out, x = .ok out → ∀ v type, out.token ≠ .integer v type

theorem notInteger_error (e : LexError) : NotInteger (.error e) := by
  intro out h
  cases h

theorem not_tokensThen {input : List ℕ} {v : BitVec 128} {type : CoreType} {tokens : List Token} {lex₂ : Lexer}
    (h : NotInteger (scanToken .endOfFile edition hygiene atStart input)) :
    ¬ TokensThen (.ofInput edition hygiene atStart input) (.integer v type :: tokens) lex₂ := by
  rintro ⟨lex', hlex, -⟩
  cases hscan : scanToken .endOfFile edition hygiene atStart input with
  | ok out =>
    rw [getTokenInt_of_scan hscan] at hlex
    exact h out hscan v type (congrArg Prod.fst (Except.ok.inj hlex))
  | error e => exact getTokenInt_of_error (by simp) hscan hlex

theorem scanToken_digit {c : ℕ} (hc : isdigit c = true) (input : List ℕ) :
    scanToken .endOfFile edition hygiene atStart (c :: input) = scanNumber .endOfFile (c :: input) := by
  rw [scanToken_sym (isdigit_not_sym_start hc), scanWord_digit hc]

theorem scanNumber_of_parseInt {input tail : List ℕ} {v : BitVec 128} {mode : NumMode}
    (h : parseInt .endOfFile input = .ok (v, mode, tail)) : scanNumber .endOfFile input =
      getc .endOfFile tail >>= fun out =>
        if out.1 = cp 'e' ∨ out.1 = cp 'E' ∨ out.1 = cp '.' then scanFloat .endOfFile v mode out.1 out.2
        else if issym out.1 = true then takeSyms .endOfFile [] tail >>= fun out =>
          match integerSuffix out.1 with
          | some type => .ok ⟨.integer v type, [], out.2⟩
          | none => .error .parseError
        else .ok ⟨.integer v .any, [], tail⟩ := by
  rw [scanNumber, h]
  rfl

theorem not_float_start {c : ℕ} (hsym : issym c = false) (hdot : c ≠ cp '.') :
    ¬(c = cp 'e' ∨ c = cp 'E' ∨ c = cp '.') := by
  rintro (rfl | rfl | rfl)
  · exact absurd hsym (by decide)
  · exact absurd hsym (by decide)
  · exact hdot rfl

theorem scanNumber_plain {input : List ℕ} {v : BitVec 128} {mode : NumMode} {c : ℕ} {rest : List ℕ}
    (h : parseInt .endOfFile input = .ok (v, mode, c :: rest)) (hsym : issym c = false) (hdot : c ≠ cp '.') :
    scanNumber .endOfFile input = .ok ⟨.integer v .any, [], c :: rest⟩ := by
  rw [scanNumber_of_parseInt h, getc, Lex.bind_ok, if_neg (not_float_start hsym hdot), hsym]
  rfl

theorem scanNumber_dot {input : List ℕ} {v : BitVec 128} {mode : NumMode} {rest : List ℕ}
    (h : parseInt .endOfFile input = .ok (v, mode, cp '.' :: rest)) :
    scanNumber .endOfFile input = scanFloat .endOfFile v mode (cp '.') rest := by
  rw [scanNumber_of_parseInt h, getc, Lex.bind_ok, if_pos (Or.inr (Or.inr rfl))]

theorem scanFloat_dots {v : BitVec 128} {mode : NumMode} {c : ℕ} (rest : List ℕ) :
    scanFloat .endOfFile v mode (cp '.') (cp '.' :: c :: rest) =
      if c = cp '.' then .ok ⟨.integer v .any, [.op .tripleDot], rest⟩
      else if c = cp '=' then .ok ⟨.integer v .any, [.op .doubleDotEqual], rest⟩
      else .ok ⟨.integer v .any, [.op .doubleDot], c :: rest⟩ := rfl

theorem scanFloat_field {v : BitVec 128} {mode : NumMode} {c : ℕ} (hdot : c ≠ cp '.') (hdigit : isdigit c = false)
    (rest : List ℕ) : scanFloat .endOfFile v mode (cp '.') (c :: rest) =
      if issym c = true then .ok ⟨.integer v .any, [.op .dot], c :: rest⟩
      else .ok ⟨.float (ascii (Nat.toDigits 10 v.toNat)) .any, [], c :: rest⟩ := by
  simp only [scanFloat, if_true, getc, Lex.bind_ok, if_neg hdot, hdigit, Bool.not_false]
  rfl

/-- The last number of a text without a suffix. -/
theorem tokensThen_number_end {input rest : List ℕ} {v : BitVec 128} {mode : NumMode}
    (hscan : scanToken .endOfFile edition hygiene atStart input = scanNumber .endOfFile input)
    (h : parseInt .endOfFile input = if rest = [] then .error .endOfFile else .ok (v, mode, rest))
    (hended : ∀ c ∈ rest.head?, issym c = false) (hindex : ∀ c rest', rest = cp '.' :: c :: rest' → isdigit c = false) :
    TokensThen (.ofInput edition hygiene atStart input) [.integer v .any] (.ofInput edition hygiene false rest) ↔
      NumberEnds rest := by
  cases rest with
  | nil =>
    have herror : scanNumber .endOfFile input = .error .endOfFile := by
      rw [scanNumber, h]
      rfl
    exact iff_of_false (not_tokensThen (by rw [hscan, herror]; exact notInteger_error _)) id
  | cons c rest =>
    rw [if_neg (List.cons_ne_nil c rest)] at h
    by_cases hdot : c = cp '.'
    · subst hdot
      have hnum := scanNumber_dot h
      cases rest with
      | nil =>
        rw [hnum] at hscan
        exact iff_of_false (not_tokensThen (by rw [hscan]; exact notInteger_error _)) (fun h => h rfl)
      | cons c' rest =>
        by_cases hdot' : c' = cp '.'
        · subst hdot'
          cases rest with
          | nil =>
            rw [hnum] at hscan
            refine iff_of_false (not_tokensThen (by rw [hscan]; exact notInteger_error _)) fun h => ?_
            have := h rfl
            rw [if_pos rfl] at this
            exact this rfl
          | cons c'' rest =>
            have hends : NumberEnds (cp '.' :: cp '.' :: c'' :: rest) := fun _ => by
              rw [if_pos rfl]
              exact List.cons_ne_nil c'' rest
            apply iff_of_true _ hends
            rw [hnum, scanFloat_dots] at hscan
            split_ifs at hscan with hthird hthird'
            · rw [tokensThen_scan hscan, hthird]
              have hsym := getSymbol_three ['.', '.', '.'] (.tok .tripleDot) (by decide) rfl rest
              exact ⟨rfl, ((getTokenInt_of_scan (scanToken_dot (by decide) hsym)).trans rfl).symm⟩
            · rw [tokensThen_scan hscan, hthird']
              have hsym := getSymbol_three ['.', '.', '='] (.tok .doubleDotEqual) (by decide) rfl rest
              exact ⟨rfl, ((getTokenInt_of_scan (scanToken_dot (by decide) hsym)).trans rfl).symm⟩
            · rw [tokensThen_scan hscan]
              have hsym := getSymbol_dots hthird hthird' rest
              exact ⟨rfl, ((getTokenInt_of_scan (scanToken_dot (by decide) hsym)).trans rfl).symm⟩
        · have hdigit := hindex c' rest rfl
          rw [hnum, scanFloat_field hdot' hdigit] at hscan
          have hends : NumberEnds (cp '.' :: c' :: rest) ↔ issym c' = true := by
            rw [NumberEnds, if_neg hdot']
            exact ⟨fun h => h rfl, fun h _ => h⟩
          rw [hends]
          split_ifs at hscan with hsym
          · apply iff_of_true _ hsym
            rw [tokensThen_scan hscan]
            exact ⟨rfl, ((getTokenInt_of_scan (scanToken_field hdot' hdigit rest)).trans rfl).symm⟩
          · apply iff_of_false (not_tokensThen _) hsym
            intro out hout v' type
            rw [hscan] at hout
            cases hout
            simp
    · have hnum := scanNumber_plain h (hended c rfl) hdot
      rw [hnum] at hscan
      apply iff_of_true
      · rw [tokensThen_scan hscan]
        exact ⟨rfl, rfl⟩
      · cases rest with
        | nil => exact hdot
        | cons c' rest => exact fun h => absurd h hdot

theorem not_sym_facts {c : ℕ} (h : issym c = false) (mode : NumMode) :
    mode.test c = false ∧ c ≠ cp '_' ∧ c ≠ cp 'x' ∧ c ≠ cp 'b' ∧ c ≠ cp 'o' := by
  have hne {d : ℕ} (hd : issym d = true) : c ≠ d := by
    rintro rfl
    rw [hd] at h
    contradiction
  refine ⟨?_, hne (by decide), hne (by decide), hne (by decide), hne (by decide)⟩
  simp only [issym, isalpha, Bool.or_eq_false_iff, Bool.and_eq_false_iff, decide_eq_false_iff_not] at h
  cases mode with
  | hex =>
    simp only [NumMode.test, isxdigit, Bool.or_eq_false_iff, Bool.and_eq_false_iff, decide_eq_false_iff_not]
    simp only [cp, Char.reduceToNat] at h ⊢
    exact ⟨⟨h.1.1.1, by omega⟩, by omega⟩
  | bin | oct | dec => exact h.1.1.1

/-- What stands behind a number: indices and the rest. -/
theorem indicesText_head (indices : List (List Char)) {rest : List ℕ} (h : ∀ c ∈ rest.head?, issym c = false) :
    ∀ c ∈ ((indicesText indices).map cp ++ rest).head?, issym c = false := by
  cases indices with
  | nil => exact h
  | cons digits indices =>
    intro c hc
    cases hc
    decide

theorem parseInt_decimal {digits : List Char} (h : IsDecimal digits) {tail : List ℕ}
    (htail : ∀ c ∈ tail.head?, issym c = false) : parseInt .endOfFile (digits.map cp ++ tail) =
      if tail = [] then .error .endOfFile else .ok (BitVec.ofNat 128 (NumMode.dec.value digits), .dec, tail) :=
  parseInt_number h.1 (fun _ => h) fun c hc => not_sym_facts (htail c hc) .dec

theorem IsDecimal.head {digits : List Char} (h : IsDecimal digits) :
    ∃ d ds, digits = d :: ds ∧ isdigit (cp d) = true := by
  rcases h.2 with ⟨d, hd, hdigit⟩
  cases digits with
  | nil => cases hd
  | cons d' ds =>
    cases hd
    exact ⟨d, ds, rfl, hdigit.test⟩

/-- Indices behind something other than a number. -/
theorem tokensThen_indices {indices : List (List Char)} (h : ∀ digits ∈ indices, IsDecimal digits) {rest : List ℕ}
    (hended : ∀ c ∈ rest.head?, issym c = false) :
    TokensThen (.inside edition hygiene [] ((indicesText indices).map cp ++ rest)) (indicesTokens indices)
      (.ofInput edition hygiene false rest) ↔ (indices ≠ [] → rest ≠ []) := by
  induction indices with
  | nil => exact iff_of_true rfl fun h => absurd rfl h
  | cons digits indices ih =>
    rw [List.forall_mem_cons] at h
    have htail := indicesText_head indices hended
    have hparse := parseInt_decimal h.1 htail
    rcases h.1.head with ⟨d, ds, hdigits, hdigit⟩
    have hinput : (indicesText (digits :: indices)).map cp ++ rest =
        cp '.' :: cp d :: (ds.map cp ++ ((indicesText indices).map cp ++ rest)) := by
      simp [indicesText, hdigits]
    have hnumber : cp d :: (ds.map cp ++ ((indicesText indices).map cp ++ rest)) =
        digits.map cp ++ ((indicesText indices).map cp ++ rest) := by simp [hdigits]
    have hscan := scanToken_index edition hygiene false hdigit
      (ds.map cp ++ ((indicesText indices).map cp ++ rest))
    rw [hnumber] at hscan hinput
    rw [hparse] at hscan
    have htokens : indicesTokens (digits :: indices) = .op .dot ::
        .integer (BitVec.ofNat 128 (NumMode.dec.value digits)) .any :: indicesTokens indices := rfl
    rw [hinput, htokens]
    by_cases hnil : (indicesText indices).map cp ++ rest = []
    · rw [if_pos hnil] at hscan
      apply iff_of_false
      · rintro ⟨lex', hlex, -⟩
        exact getTokenInt_of_error (by simp) hscan hlex
      · exact fun h => h (List.cons_ne_nil _ _) (List.append_eq_nil_iff.mp hnil).2
    · rw [if_neg hnil, Lex.bind_ok] at hscan
      apply (tokensThen_scan hscan).trans
      apply (and_iff_right rfl).trans
      apply tokensThen_queued.trans
      apply (and_iff_right rfl).trans
      apply (ih h.2).trans
      constructor
      · intro hrest _
        by_cases hindices : indices = []
        · subst hindices
          exact hnil
        · exact hrest hindices
      · exact fun hrest _ => hrest (List.cons_ne_nil _ _)

theorem floatDigits_digits {digits : List Char} (h : ∀ d ∈ digits, NumMode.dec.IsDigit d ∨ d = '_') {tail : List ℕ}
    (htail : ∀ c ∈ tail.head?, issym c = false) : floatDigits .endOfFile (digits.map cp ++ tail) =
      match tail with
      | [] => .error .endOfFile
      | c :: rest => .ok (ascii (digits.filter fun d => d != '_'), c, rest) := by
  induction digits with
  | nil =>
    cases tail with
    | nil => rfl
    | cons c rest =>
      have hc := not_sym_facts (htail c rfl) .dec
      have hdigit : isdigit c = false := hc.1
      rw [List.map_nil, List.nil_append, floatDigits, if_neg hc.2.1, if_neg (by simp [hdigit])]
      rfl
  | cons d ds ih =>
    rw [List.forall_mem_cons] at h
    rw [List.map_cons, List.cons_append, floatDigits, List.filter_cons]
    by_cases hd : d = '_'
    · subst hd
      exact ih h.2
    · have hdigit := h.1.resolve_right hd
      have hcp : cp d ≠ cp '_' := fun he => hd (Char.toNat_inj.mp he)
      rw [if_neg hcp, if_pos (show isdigit (cp d) = true from hdigit.test), ih h.2, if_pos (by simpa using hd)]
      cases tail <;> rfl

theorem ascii_digit {d : Char} (h : NumMode.dec.IsDigit d) : d.toUInt8.toNat - cp '0' = xdigitValue (cp d) := by
  have hdigit : isdigit (cp d) = true := h.test
  simp only [isdigit, Bool.and_eq_true, decide_eq_true_eq] at hdigit
  have hlt : d.toNat < 256 := lt_of_le_of_lt hdigit.2 (by decide)
  have htoNat : d.toUInt8.toNat = d.toNat := by
    change d.toNat % 256 = d.toNat
    exact Nat.mod_eq_of_lt hlt
  rw [htoNat, xdigitValue, if_pos hdigit.2]

/-- A decimal text at 64 bits. -/
theorem strtoull_digits {digits : List Char} (h : ∀ d ∈ digits, NumMode.dec.IsDigit d ∨ d = '_') :
    strtoull (ascii (digits.filter fun d => d != '_')) =
      BitVec.ofNat 128 (min (NumMode.dec.value digits) (2 ^ 64 - 1)) := by
  have hfold (n : ℕ) : (ascii (digits.filter fun d => d != '_')).foldl (fun n b => n * 10 + (b.toNat - cp '0')) n =
      digits.foldl (fun n d => if d = '_' then n else n * NumMode.dec.base + xdigitValue (cp d)) n := by
    induction digits generalizing n with
    | nil => rfl
    | cons d ds ih =>
      rw [List.forall_mem_cons] at h
      rw [List.filter_cons, List.foldl_cons]
      by_cases hd : d = '_'
      · subst hd
        exact ih h.2 n
      · rw [if_pos (by simpa using hd), if_neg hd, ← ih h.2, ← ascii_digit (h.1.resolve_right hd)]
        rfl
  rw [strtoull, hfold]
  rfl

theorem strtoull_toDigits (n : ℕ) :
    strtoull (ascii (Nat.toDigits 10 n)) = BitVec.ofNat 128 (min n (2 ^ 64 - 1)) := by
  have hvalue : ∀ d < 10, (Nat.digitChar d).toUInt8.toNat - cp '0' = d := by decide
  have hfold := Codec.foldl_toDigits (fun c => c.toUInt8.toNat - cp '0') (by norm_num) hvalue n
  rw [strtoull, ascii, List.foldl_map, hfold]

theorem scanFloat_index {v : BitVec 128} {mode : NumMode} {c : ℕ} (hc : isdigit c = true) (rest : List ℕ) :
    scanFloat .endOfFile v mode (cp '.') (c :: rest) = scanFloat.digits .endOfFile v mode (c :: rest) := by
  have hdot : c ≠ cp '.' := by
    rintro rfl
    exact absurd hc (by decide)
  simp only [scanFloat, if_true, getc, Lex.bind_ok, if_neg hdot, hc, Bool.not_true, Bool.false_eq_true, if_false]

/-- A number and the index behind it, with something behind them that no index begins with. -/
theorem scanNumber_index {input : List ℕ} {v : BitVec 128} {digits : List Char} (hdigits : IsDecimal digits)
    {more : List ℕ} (hmore : ∀ c ∈ more.head?, issym c = false)
    (h : parseInt .endOfFile input = .ok (v, .dec, cp '.' :: (digits.map cp ++ more))) :
    (∀ c rest, more = cp '.' :: c :: rest → c ≠ cp '.' → scanNumber .endOfFile input =
      .ok ⟨.integer (BitVec.ofNat 128 (min v.toNat (2 ^ 64 - 1))) .any, [.op .dot,
        .integer (BitVec.ofNat 128 (min (NumMode.dec.value digits) (2 ^ 64 - 1))) .any, .op .dot], c :: rest⟩) ∧
    ((¬ ∃ c rest, more = cp '.' :: c :: rest ∧ c ≠ cp '.') → NotInteger (scanNumber .endOfFile input)) := by
  have hnum : scanNumber .endOfFile input = scanFloat.digits .endOfFile v .dec (digits.map cp ++ more) := by
    rcases hdigits.head with ⟨d, ds, rfl, hd⟩
    rw [scanNumber_dot h]
    exact scanFloat_index hd _
  have hfloat := floatDigits_digits hdigits.1.1 hmore
  rw [hnum, scanFloat.digits, if_pos rfl, parseFloat, hfloat]
  constructor
  · rintro c rest rfl hc
    simp only [Lex.bind_ok, if_true, getc, if_neg hc, Lex.pure_eq, strtoull_toDigits, strtoull_digits hdigits.1.1]
  · intro hnot
    have hok {out : Scanned} (hout : ∀ v type, out.token ≠ .integer v type) : NotInteger (.ok out) := by
      intro out' h
      cases h
      exact hout
    cases more with
    | nil => exact notInteger_error _
    | cons c rest =>
      by_cases hdot : c = cp '.'
      · subst hdot
        rcases rest with _ | ⟨c', _ | ⟨c'', rest⟩⟩
        · exact notInteger_error _
        · have hc' : c' = cp '.' := by
            by_contra hne
            exact hnot ⟨c', [], rfl, hne⟩
          subst hc'
          exact notInteger_error _
        · have hc' : c' = cp '.' := by
            by_contra hne
            exact hnot ⟨c', c'' :: rest, rfl, hne⟩
          subst hc'
          simp only [Lex.bind_ok, if_true, getc, Lex.pure_eq]
          split_ifs <;> exact hok (by simp)
      · have hsym := hmore c rfl
        have hexp : ¬(c = cp 'e' ∨ c = cp 'E') := fun he =>
          not_float_start hsym hdot (he.imp_right Or.inl)
        simp only [Lex.bind_ok, if_neg hdot, if_neg hexp, Lex.pure_eq, takeSyms, hsym, Bool.false_eq_true, if_false,
          if_true]
        exact hok (by simp)

/-- Two numbers at 64 bits are right where they fit. -/
theorem ofNat_min_eq {n : ℕ} (h : n < 2 ^ 128) :
    BitVec.ofNat 128 (min n (2 ^ 64 - 1)) = BitVec.ofNat 128 n ↔ n < 2 ^ 64 := by
  have hmin : min n (2 ^ 64 - 1) < 2 ^ 128 := lt_of_le_of_lt (min_le_left _ _) h
  constructor
  · intro heq
    have := congrArg BitVec.toNat heq
    rw [BitVec.toNat_ofNat, BitVec.toNat_ofNat, Nat.mod_eq_of_lt hmin, Nat.mod_eq_of_lt h] at this
    omega
  · intro hlt
    rw [min_eq_left (by omega)]

theorem tokensThen_pair {input : List ℕ} {value : ℕ} {digits : List Char} {more : List ℕ} {tokens : List Token}
    {lex₂ : Lexer} (hscan : scanToken .endOfFile edition hygiene atStart input = scanNumber .endOfFile input)
    (hvalue : value < 2 ^ 128) (hdigits : IsDecimal digits) (hindex : NumMode.dec.value digits < 2 ^ 128)
    (hmore : ∀ c ∈ more.head?, issym c = false)
    (h : parseInt .endOfFile input = .ok (BitVec.ofNat 128 value, .dec, cp '.' :: (digits.map cp ++ more))) :
    TokensThen (.ofInput edition hygiene atStart input) (.integer (BitVec.ofNat 128 value) .any :: .op .dot ::
      .integer (BitVec.ofNat 128 (NumMode.dec.value digits)) .any :: tokens) lex₂ ↔
    value < 2 ^ 64 ∧ NumMode.dec.value digits < 2 ^ 64 ∧ ∃ c rest, more = cp '.' :: c :: rest ∧ c ≠ cp '.' ∧
      TokensThen (.inside edition hygiene [.op .dot] (c :: rest)) tokens lex₂ := by
  rcases scanNumber_index hdigits hmore h with ⟨hpair, hnot⟩
  by_cases hex : ∃ c rest, more = cp '.' :: c :: rest ∧ c ≠ cp '.'
  · rcases hex with ⟨c, rest, rfl, hc⟩
    have hpair := hpair c rest rfl hc
    rw [← hscan, BitVec.toNat_ofNat, Nat.mod_eq_of_lt hvalue] at hpair
    rw [tokensThen_scan hpair, tokensThen_queued, tokensThen_queued]
    simp only [Token.integer.injEq, and_true, ofNat_min_eq hvalue, ofNat_min_eq hindex, true_and]
    apply and_congr_right
    intro _
    apply and_congr_right
    intro _
    constructor
    · exact fun hthen => ⟨c, rest, rfl, hc, hthen⟩
    · rintro ⟨c', rest', heq, -, hthen⟩
      cases heq
      exact hthen
  · apply iff_of_false
    · rw [← hscan] at hnot
      exact not_tokensThen (hnot hex)
    · rintro ⟨-, -, c, rest, hmore, hc, -⟩
      exact hex ⟨c, rest, hmore, hc⟩

/-- A number without a suffix and the indices behind it. -/
theorem tokensThen_pairs {indices : List (List Char)} {rest : List ℕ} (hended : ∀ c ∈ rest.head?, issym c = false)
    (hindex : ∀ c rest', rest = cp '.' :: c :: rest' → isdigit c = false) (input : List ℕ) (value : ℕ)
    (mode : NumMode) (hmode : indices ≠ [] → mode = .dec)
    (hindices : ∀ digits ∈ indices, IsDecimal digits ∧ NumMode.dec.value digits < 2 ^ 128) (hvalue : value < 2 ^ 128)
    (hscan : scanToken .endOfFile edition hygiene atStart input = scanNumber .endOfFile input)
    (h : parseInt .endOfFile input = if (indicesText indices).map cp ++ rest = [] then .error .endOfFile
      else .ok (BitVec.ofNat 128 value, mode, (indicesText indices).map cp ++ rest)) :
    TokensThen (.ofInput edition hygiene atStart input)
      (.integer (BitVec.ofNat 128 value) .any :: indicesTokens indices) (.ofInput edition hygiene false rest) ↔
      PairsSplit value indices rest := by
  induction value, indices, rest using PairsSplit.induct generalizing input mode atStart with
  | case1 value rest => exact tokensThen_number_end hscan h hended hindex
  | case2 value digits rest =>
    rw [List.forall_mem_singleton] at hindices
    have htext : (indicesText [digits]).map cp ++ rest = cp '.' :: (digits.map cp ++ rest) := by simp [indicesText]
    rw [hmode (by simp), htext, if_neg (List.cons_ne_nil _ _)] at h
    apply (tokensThen_pair hscan hvalue hindices.1 hindices.2 hended h).trans
    rw [PairsSplit]
    apply and_congr_right
    intro _
    apply and_congr_right
    intro _
    constructor
    · rintro ⟨c, rest', heq, hc, -⟩
      exact ⟨c, rest', heq, hc⟩
    · rintro ⟨c, rest', rfl, hc⟩
      exact ⟨c, rest', rfl, hc, (getTokenInt_of_scan (scanToken_field hc (hindex c rest' rfl) rest')).symm⟩
  | case3 value digits digits' indices rest ih =>
    rw [List.forall_mem_cons, List.forall_mem_cons] at hindices
    have htail := indicesText_head indices hended
    have htext : (indicesText (digits :: digits' :: indices)).map cp ++ rest = cp '.' :: (digits.map cp ++
        cp '.' :: (digits'.map cp ++ ((indicesText indices).map cp ++ rest))) := by simp [indicesText]
    rw [hmode (by simp), htext, if_neg (List.cons_ne_nil _ _)] at h
    have hmore : ∀ c ∈ (cp '.' :: (digits'.map cp ++ ((indicesText indices).map cp ++ rest))).head?,
        issym c = false := by
      intro c hc
      cases hc
      decide
    rcases hindices.2.1.1.head with ⟨d, ds, hd, hdigit⟩
    have hhead : digits'.map cp ++ ((indicesText indices).map cp ++ rest) =
        cp d :: (ds.map cp ++ ((indicesText indices).map cp ++ rest)) := by simp [hd]
    have hscan' : scanToken .endOfFile edition hygiene false
        (digits'.map cp ++ ((indicesText indices).map cp ++ rest)) =
        scanNumber .endOfFile (digits'.map cp ++ ((indicesText indices).map cp ++ rest)) := by
      rw [hhead, scanToken_digit hdigit]
    have hih := ih hended hindex _ .dec (fun _ => rfl) hindices.2.2 hindices.2.1.2 hscan'
      (parseInt_decimal hindices.2.1.1 htail)
    apply (tokensThen_pair hscan hvalue hindices.1.1 hindices.1.2 hmore h).trans
    rw [PairsSplit, ← hih]
    apply and_congr_right
    intro _
    apply and_congr_right
    intro _
    constructor
    · rintro ⟨c, rest', heq, -, hthen⟩
      rw [(List.cons.inj heq).2]
      exact (tokensThen_queued.mp hthen).2
    · intro hthen
      refine ⟨cp d, _, by rw [hhead], ?_, ?_⟩
      · intro hdot
        rw [hdot] at hdigit
        exact absurd hdigit (by decide)
      · apply tokensThen_queued.mpr
        rw [← hhead]
        exact ⟨rfl, hthen⟩

end Scan

section Splits

variable {edition : Edition} {hygiene : Hygiene} {atStart : Bool}

theorem IntegerLiteral.WellSpelled.head {lit : IntegerLiteral} (h : lit.WellSpelled) :
    ∃ d ds, lit.number = d :: ds ∧ isdigit (cp d) = true := by
  rcases lit with ⟨mode, digits, suffix⟩
  cases mode with
  | bin => exact ⟨'0', 'b' :: digits, rfl, by decide⟩
  | oct => exact ⟨'0', 'o' :: digits, rfl, by decide⟩
  | hex => exact ⟨'0', 'x' :: digits, rfl, by decide⟩
  | dec => exact (h.decimal rfl).head

theorem NumberText.scanToken_eq (edition : Edition) (hygiene : Hygiene) (atStart : Bool) {text : NumberText}
    (h : text.lit.WellSpelled) :
    scanToken .endOfFile edition hygiene atStart text.input = scanNumber .endOfFile text.input := by
  rcases h.head with ⟨d, ds, hd, hdigit⟩
  rw [NumberText.input, hd, List.cons_append, List.cons_append, List.map_cons, List.cons_append, scanToken_digit hdigit]

/-- The suffix of a number as the lexer finds it. -/
theorem suffix_facts {type : CoreType} (h : type ≠ .any ∧ type ≠ .char) : ∃ c cs, (coretypeName type).toList = c :: cs ∧
    isdigit (cp c) = false ∧ (type ≠ .f32 ∧ type ≠ .f64 → isxdigit (cp c) = false) ∧
    (cp c ≠ cp '_' ∧ cp c ≠ cp 'x' ∧ cp c ≠ cp 'b' ∧ cp c ≠ cp 'o') ∧ ¬(cp c = cp 'e' ∨ cp c = cp 'E' ∨ cp c = cp '.') ∧
    (∀ d ∈ (c :: cs).map cp, issym d = true ∧ d < 0x200000) ∧
    integerSuffix (encode ((c :: cs).map cp)) = some type := by
  cases type <;> first | exact absurd rfl h.1 | exact absurd rfl h.2 | skip
  all_goals exact ⟨_, _, rfl, by decide⟩

theorem takeSyms_endOfFile {cs : List ℕ} (hcs : ∀ c ∈ cs, issym c = true ∧ c < 0x200000) (str : List UInt8) :
    takeSyms .endOfFile str cs = .error .endOfFile := by
  induction cs generalizing str with
  | nil => rfl
  | cons c cs ih =>
    rw [List.forall_mem_cons] at hcs
    rw [takeSyms, if_pos hcs.1.1, append_eq_ok.mpr ⟨hcs.1.2, rfl⟩]
    exact ih hcs.2 _

theorem splitsIn_suffix_iff {text : NumberText} (h : text.WellFormed) {type : CoreType}
    (hsuffix : text.lit.suffix = some type) : text.SplitsIn edition hygiene atStart ↔ text.rest ≠ [] := by
  have hlit := h.lit.suffix type hsuffix
  rcases suffix_facts ⟨hlit.1, hlit.2.1⟩ with ⟨c, cs, hname, hdigit, hxdigit, hne, hfloat, hsyms, htype⟩
  have htail := indicesText_head text.indices h.ended
  have hinput : text.input = text.lit.number.map cp ++
      ((c :: cs).map cp ++ ((indicesText text.indices).map cp ++ text.rest)) := by
    rw [NumberText.input, hsuffix, suffixText, Option.elim, hname]
    simp
  have htest : text.lit.mode.test (cp c) = false := by
    cases hmode : text.lit.mode with
    | hex => exact hxdigit (hlit.2.2 hmode)
    | bin | oct | dec => exact hdigit
  have hparse : parseInt .endOfFile text.input = .ok (BitVec.ofNat 128 text.lit.value, text.lit.mode,
      (c :: cs).map cp ++ ((indicesText text.indices).map cp ++ text.rest)) := by
    rw [hinput, IntegerLiteral.number, parseInt_number h.lit.digits h.lit.decimal, if_neg (by simp)]
    · rfl
    · intro c' hc'
      cases hc'
      exact ⟨htest, hne⟩
  have hnum : scanNumber .endOfFile text.input = takeSyms .endOfFile []
      ((c :: cs).map cp ++ ((indicesText text.indices).map cp ++ text.rest)) >>= fun out =>
        match integerSuffix out.1 with
        | some type => .ok ⟨.integer (BitVec.ofNat 128 text.lit.value) type, [], out.2⟩
        | none => .error .parseError := by
    rw [scanNumber_of_parseInt hparse, List.map_cons, List.cons_append, getc, Lex.bind_ok, if_neg hfloat,
      if_pos (hsyms (cp c) List.mem_cons_self).1]
  have htokens : text.tokens = .integer (BitVec.ofNat 128 text.lit.value) type :: indicesTokens text.indices := by
    rw [NumberText.tokens, hsuffix]
    rfl
  rw [NumberText.SplitsIn, htokens]
  by_cases hnil : (indicesText text.indices).map cp ++ text.rest = []
  · apply iff_of_false
    · apply not_tokensThen
      rw [NumberText.scanToken_eq edition hygiene atStart h.lit, hnum, hnil, List.append_nil, takeSyms_endOfFile hsyms]
      exact notInteger_error _
    · exact fun hrest => hrest (List.append_eq_nil_iff.mp hnil).2
  · rcases List.exists_cons_of_ne_nil hnil with ⟨c', more, hmore⟩
    have htake : takeSyms .endOfFile _ _ = _ := takeSyms_append hsyms [] (htail c' (by rw [hmore]; rfl)) more
    rw [hmore, htake, Lex.bind_ok] at hnum
    simp only [List.nil_append, htype] at hnum
    rw [← hmore, ← NumberText.scanToken_eq edition hygiene atStart h.lit] at hnum
    apply (tokensThen_scan hnum).trans
    apply (and_iff_right rfl).trans
    apply (tokensThen_indices (fun digits hd => (h.indices digits hd).1) h.ended).trans
    constructor
    · intro hrest
      by_cases hindices : text.indices = []
      · rw [hindices] at hnil
        exact hnil
      · exact hrest hindices
    · exact fun hrest _ => hrest

theorem splitsIn_plain_iff {text : NumberText} (h : text.WellFormed) (hsuffix : text.lit.suffix = none) :
    text.SplitsIn edition hygiene atStart ↔
      (text.indices ≠ [] → text.lit.mode = .dec) ∧ PairsSplit text.lit.value text.indices text.rest := by
  have htail := indicesText_head text.indices h.ended
  have hinput : text.input = text.lit.number.map cp ++ ((indicesText text.indices).map cp ++ text.rest) := by
    rw [NumberText.input, hsuffix, suffixText, Option.elim, List.append_nil, List.map_append, List.append_assoc]
  have hparse : parseInt .endOfFile text.input = if (indicesText text.indices).map cp ++ text.rest = [] then
      .error .endOfFile else .ok (BitVec.ofNat 128 text.lit.value, text.lit.mode,
        (indicesText text.indices).map cp ++ text.rest) := by
    rw [hinput]
    exact parseInt_number h.lit.digits h.lit.decimal fun c hc => not_sym_facts (htail c hc) _
  have htokens : text.tokens = .integer (BitVec.ofNat 128 text.lit.value) .any :: indicesTokens text.indices := by
    rw [NumberText.tokens, hsuffix]
    rfl
  rw [NumberText.SplitsIn, htokens]
  by_cases hmode : text.indices ≠ [] → text.lit.mode = .dec
  · rw [and_iff_right hmode]
    exact tokensThen_pairs h.ended h.noIndex text.input text.lit.value text.lit.mode hmode h.indices h.lit.fits
      (NumberText.scanToken_eq edition hygiene atStart h.lit) hparse
  · apply iff_of_false _ fun hsplit => hmode hsplit.1
    rw [Classical.not_imp] at hmode
    rcases List.exists_cons_of_ne_nil hmode.1 with ⟨digits, indices, hindices⟩
    rcases (h.indices digits (by rw [hindices]; exact List.mem_cons_self)).1.head with ⟨d, ds, rfl, hdigit⟩
    have hdot : (indicesText text.indices).map cp ++ text.rest =
        cp '.' :: cp d :: (ds.map cp ++ ((indicesText indices).map cp ++ text.rest)) := by
      simp [hindices, indicesText]
    rw [hdot, if_neg (List.cons_ne_nil _ _)] at hparse
    apply not_tokensThen
    rw [NumberText.scanToken_eq edition hygiene atStart h.lit, scanNumber_dot hparse, scanFloat_index hdigit,
      scanFloat.digits, if_neg hmode.2]
    exact notInteger_error _

/-- `getSymbol` returns the longest symbol, and the symbol of every input that is not at its end. -/
def SymbolsLongest : Prop :=
  (∀ stop input best rest, getSymbol stop input = .ok (best, rest) → LongestSymbol input best rest) ∧
    ∀ input ≠ [], ∃ out, getSymbol .endOfFile input = .ok out

/-- The longest symbols are found, and an integer literal, its indices and what stands behind them are told apart, if
and only if the end of the input cuts nothing off and a number without a suffix in front of indices is decimal, fits
64 bits in pairs and does not end in a float. -/
theorem NumberText.splitsIn_iff {text : NumberText} (h : text.WellFormed) (edition : Edition) (hygiene : Hygiene)
    (atStart : Bool) : (SymbolsLongest ∧ text.SplitsIn edition hygiene atStart) ↔ text.Splits := by
  have hsymbols : SymbolsLongest := ⟨fun _ _ _ _ => getSymbol_longest, fun _ => getSymbol_endOfFile⟩
  rw [and_iff_right hsymbols, NumberText.Splits]
  cases hsuffix : text.lit.suffix with
  | some type => exact splitsIn_suffix_iff h hsuffix
  | none => exact splitsIn_plain_iff h hsuffix

/-- The digits of a concrete literal, as a test. -/
theorem digits_of_test {mode : NumMode} {d : Char} {ds : List Char}
    (hd : isxdigit (cp d) = true ∧ xdigitValue (cp d) < mode.base)
    (hds : ds.all (fun d => isxdigit (cp d) && decide (xdigitValue (cp d) < mode.base) || d == '_') = true) :
    mode.Digits (d :: ds) := by
  refine ⟨List.forall_mem_cons.mpr ⟨Or.inl hd, fun c hc => ?_⟩, d, List.mem_cons_self, hd⟩
  have h := List.all_eq_true.mp hds c hc
  rw [Bool.or_eq_true, Bool.and_eq_true, decide_eq_true_eq, beq_iff_eq] at h
  exact h

theorem isDecimal_zero : IsDecimal ['0'] := ⟨digits_of_test (by decide) rfl, '0', rfl, by decide, by decide⟩

/-- The text `0x1f_u8.0` in front of a plus. -/
def hexIndex : NumberText := ⟨⟨.hex, ['1', 'f', '_'], some .u8⟩, [['0']], [cp '+']⟩

theorem hexIndex_splitsIn : SymbolsLongest ∧ hexIndex.SplitsIn .rust2018 [] true := by
  apply (NumberText.splitsIn_iff _ .rust2018 [] true).mpr
  · exact List.cons_ne_nil _ _
  · refine ⟨⟨digits_of_test (by decide) (by decide), by simp [hexIndex], ?_, by decide⟩, ?_, ?_, ?_, by simp [hexIndex],
      by simp [hexIndex]⟩
    · intro type htype
      cases htype
      decide
    · intro digits hdigits
      rw [List.mem_singleton.mp hdigits]
      exact ⟨isDecimal_zero, by decide⟩
    · intro c hc
      cases hc
      decide
    · intro c rest hrest
      exact absurd (List.cons.inj hrest).1 (by decide)

/-- The text `18446744073709551616.0.a`, with a number of 65 bits. -/
def wideIndex : NumberText :=
  ⟨⟨.dec, ['1', '8', '4', '4', '6', '7', '4', '4', '0', '7', '3', '7', '0', '9', '5', '5', '1', '6', '1', '6'], none⟩,
    [['0']], [cp '.', cp 'a']⟩

/-- A number of 65 bits in front of an index is cut to 64. -/
theorem wideIndex_not_splitsIn : ¬ ∀ text : NumberText, text.WellFormed → ∀ (edition : Edition) (hygiene : Hygiene)
    (atStart : Bool), SymbolsLongest ∧ text.SplitsIn edition hygiene atStart := by
  intro h
  have hdec : IsDecimal wideIndex.lit.digits :=
    ⟨digits_of_test (by decide) (by decide), '1', rfl, by decide, by decide⟩
  have hwell : wideIndex.WellFormed := by
    refine ⟨⟨hdec.1, fun _ => hdec, by simp [wideIndex], by decide⟩, ?_, ?_, ?_, by simp [wideIndex], ?_⟩
    · intro digits hdigits
      rw [List.mem_singleton.mp hdigits]
      exact ⟨isDecimal_zero, by decide⟩
    · intro c hc
      cases hc
      decide
    · intro c rest hrest
      rw [← (List.cons.inj (List.cons.inj hrest).2).1]
      decide
    · exact fun _ _ => ⟨[cp 'a'], rfl, by decide⟩
  have hsplit := ((splitsIn_plain_iff hwell rfl).mp (h wideIndex hwell .rust2018 [] true).2).2
  exact absurd hsplit.1 (by decide)

end Splits

end Mrustc.Parse
