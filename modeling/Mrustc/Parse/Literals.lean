import Mrustc.Parse.ReadText

/-! # String and character literals

A literal is spelled as a list of elements. The lexer gives back the text that the elements stand for, unless a `\u`
escape has an underscore, or a character that only the lexer takes for white space follows a line continuation; and it
takes the value 256 for a byte.
-/

namespace Mrustc.Parse
open Codepoint

section Spelling

/-- An element of a string or character literal. -/
inductive Elem
  | plain (c : Char)
  /-- A backslash and a letter. -/
  | simple (c : Char)
  | byte (d₁ d₂ : Char)
  | unicode (digits : List Char)
  /-- A backslash in front of a newline, and the white space behind it. -/
  | continuation (blank : List Char)
  deriving DecidableEq, Repr

def Elem.spell : Elem → List Char
  | .plain c => [c]
  | .simple c => ['\\', c]
  | .byte d₁ d₂ => ['\\', 'x', d₁, d₂]
  | .unicode digits => ['\\', 'u', '\x7b'] ++ digits ++ ['\x7d']
  | .continuation blank => '\\' :: '\n' :: blank

/-- The number that hexadecimal digits and underscores stand for. -/
def hexValue (digits : List Char) : ℕ :=
  digits.foldl (fun n d => if d = '_' then n else n * 16 + xdigitValue (cp d)) 0

/-- The letters of simple escapes. -/
def simpleEscapes : List (Char × Char) :=
  [('n', '\n'), ('r', '\r'), ('t', '\t'), ('\\', '\\'), ('0', '\x00'), ('\'', '\''), ('"', '"')]

/-- The value of an element that is no line continuation. -/
def Elem.value : Elem → ℕ
  | .plain c => c.toNat
  | .simple c => ((simpleEscapes.lookup c).getD ' ').toNat
  | .byte d₁ d₂ => hexValue [d₁, d₂]
  | .unicode digits => hexValue digits
  | .continuation _ => 0

def Elem.isContinuation : Elem → Bool
  | .continuation _ => true
  | _ => false

def Elem.isPlain (p : Char → Bool) : Elem → Bool
  | .plain c => p c
  | _ => false

def values (es : List Elem) : List ℕ := (es.filter fun e => !e.isContinuation).map Elem.value

def textOf (es : List Elem) : List Char := (values es).map Char.ofNat

/-- One to six hexadecimal digits, with underscores behind the first. -/
def UnicodeDigits (digits : List Char) : Prop :=
  (∀ d ∈ digits, isxdigit (cp d) = true ∨ d = '_') ∧ digits.head?.any (fun d => isxdigit (cp d)) = true ∧
    (digits.filter fun d => d != '_').length ≤ 6

/-- What all literals ask of an element. -/
def Elem.WellSpelled : Elem → Prop
  | .plain c => c ≠ '\\' ∧ c ≠ '\r'
  | .simple c => c ∈ simpleEscapes.map Prod.fst
  | .byte d₁ d₂ => isxdigit (cp d₁) = true ∧ isxdigit (cp d₂) = true
  | .unicode digits => UnicodeDigits digits
  | .continuation blank => ∀ c ∈ blank, c ∈ [' ', '\n', '\t']

/-- The value is a character; with `\x`, an ASCII one. -/
def Elem.IsChar : Elem → Prop
  | .byte d₁ d₂ => hexValue [d₁, d₂] < 0x80
  | .unicode digits => (hexValue digits).isValidChar
  | _ => True

/-- The elements between quotes. White space behind a continuation is part of it. -/
structure Body (es : List Elem) : Prop where
  spelled : ∀ e ∈ es, e.WellSpelled ∧ e ≠ .plain '"'
  blanks : es.IsChain fun e e' => e.isContinuation = true → e'.isPlain (· ∈ [' ', '\n', '\t']) = false

inductive Literal
  | string (es : List Elem)
  | byteString (es : List Elem)
  | rawString (hashes : ℕ) (text : List Char)
  | rawByteString (hashes : ℕ) (text : List Char)
  | char (e : Elem)

def terminator (hashes : ℕ) : List Char := '"' :: List.replicate hashes '#'

def Literal.spell : Literal → List Char
  | .string es => '"' :: es.flatMap Elem.spell ++ ['"']
  | .byteString es => 'b' :: '"' :: es.flatMap Elem.spell ++ ['"']
  | .rawString hashes text => 'r' :: List.replicate hashes '#' ++ '"' :: text ++ terminator hashes
  | .rawByteString hashes text => 'b' :: 'r' :: List.replicate hashes '#' ++ '"' :: text ++ terminator hashes
  | .char e => '\'' :: e.spell ++ ['\'']

def Literal.WellSpelled : Literal → Prop
  | .string es => Body es ∧ ∀ e ∈ es, e.IsChar
  | .byteString es => Body es ∧ ∀ e ∈ es, e.isPlain (fun c => 0x80 ≤ c.toNat) = false
  | .rawString hashes text => '\r' ∉ text ∧ ¬ terminator hashes <:+: text
  | .rawByteString hashes text => '\r' ∉ text ∧ ¬ terminator hashes <:+: text ∧ ∀ c ∈ text, c.toNat < 0x80
  | .char e => e.WellSpelled ∧ e.IsChar ∧ e.isContinuation = false ∧ e.isPlain (· ∈ ['\'', '\n', '\t']) = false

/-- The bytes of a text in UTF-8. -/
def utf8Bytes (text : List Char) : List UInt8 := text.flatMap String.utf8EncodeChar

/-- The token of a literal; a byte string with a value above 255 has none. -/
def Literal.token (hygiene : Hygiene) : Literal → Option Token
  | .string es => some (.string (utf8Bytes (textOf es)) hygiene)
  | .byteString es => if ∃ v ∈ values es, 255 < v then none else some (.byteString ((values es).map Nat.toUInt8))
  | .rawString _ text => some (.string (utf8Bytes text) hygiene)
  | .rawByteString _ text => some (.byteString (text.map Char.toUInt8))
  | .char e => some (.integer (BitVec.ofNat 128 e.value) .char)

/-- The lexer in front of the bytes of a source. -/
def Lexer.before (edition : Edition) (hygiene : Hygiene) (atStart : Bool) (source : List UInt8) : Lexer :=
  { Lexer.ofSource edition hygiene source with atStart := atStart }

/-- In front of `rest`, a literal reads as its token and leaves the lexer in front of `rest`; a literal without a token
is an error. -/
def Literal.ReadsIn (edition : Edition) (hygiene : Hygiene) (atStart : Bool) (rest : List UInt8) (lit : Literal) :
    Prop :=
  (Lexer.before edition hygiene atStart (utf8Bytes lit.spell ++ rest)).getTokenInt =
    match lit.token hygiene with
    | some token => .ok (token, Lexer.before edition hygiene false rest)
    | none => .error .parseError

/-- A `\u` escape with an underscore. -/
def Elem.hasUnderscore : Elem → Bool
  | .unicode digits => digits.contains '_'
  | _ => false

/-- No character that the lexer takes for white space stands behind a continuation. -/
def Undropped (es : List Elem) : Prop :=
  es.IsChain fun e e' => e.isContinuation = true → e'.isPlain (fun c => isspace (cp c)) = false

def BodyReadable (es : List Elem) : Prop := (∀ e ∈ es, e.hasUnderscore = false) ∧ Undropped es

def Literal.Readable : Literal → Prop
  | .string es => BodyReadable es
  | .byteString es =>
    if ∃ v ∈ values es, 255 < v then (∃ v ∈ values es, 256 < v) ∨ ∃ e ∈ es, e.hasUnderscore = true
    else BodyReadable es
  | .rawString _ _ | .rawByteString _ _ => True
  | .char e => e.hasUnderscore = false

end Spelling

section Utf8

theorem toNat_lt_21 (c : Char) : c.toNat < 0x200000 := by
  rcases c.valid with h | h
  · exact lt_trans h (by decide)
  · exact lt_trans h.2 (by decide)

theorem utf8_eq_encodeChar (c : Char) : utf8 c.toNat = String.utf8EncodeChar c := by
  have h₁ : ∀ y < 32, 0xC0 ||| y = y + 0xC0 := by decide
  have h₂ : ∀ y < 16, 0xE0 ||| y = y + 0xE0 := by decide
  have h₃ : ∀ y < 8, 0xF0 ||| y = y + 0xF0 := by decide
  have h₄ : ∀ y < 64, 0x80 ||| y = y + 0x80 := by decide
  have hlt := toNat_lt_21 c
  have m (n k : ℕ) := shiftRight_and_mask c.toNat n k
  unfold utf8 appendCp String.utf8EncodeChar
  rw [show c.val.toNat = c.toNat from rfl, show c.toNat &&& 0x3F = c.toNat % 64 from m 0 6 ▸ by simp]
  simp only [if_pos hlt, show c.toNat >>> 6 &&& 0x1F = c.toNat / 64 % 32 from m 6 5,
    show c.toNat >>> 6 &&& 0x3F = c.toNat / 64 % 64 from m 6 6,
    show c.toNat >>> 12 &&& 0x0F = c.toNat / 4096 % 16 from m 12 4,
    show c.toNat >>> 12 &&& 0x3F = c.toNat / 4096 % 64 from m 12 6,
    show c.toNat >>> 18 &&& 0x07 = c.toNat / 262144 % 8 from m 18 3,
    h₁ _ (Nat.mod_lt _ (by decide : 0 < 32)), h₂ _ (Nat.mod_lt _ (by decide : 0 < 16)),
    h₃ _ (Nat.mod_lt _ (by decide : 0 < 8)), h₄ _ (Nat.mod_lt _ (by decide : 0 < 64))]
  split_ifs <;> first | omega | rfl

theorem cr_not_mem_utf8 {c : ℕ} (hc : c ≠ 13) : (13 : UInt8) ∉ utf8 c := by
  have h₁ : ∀ y < 32, (0xC0 ||| y).toUInt8 ≠ 13 := by decide
  have h₂ : ∀ y < 16, (0xE0 ||| y).toUInt8 ≠ 13 := by decide
  have h₃ : ∀ y < 8, (0xF0 ||| y).toUInt8 ≠ 13 := by decide
  have h₄ : ∀ y < 64, (0x80 ||| y).toUInt8 ≠ 13 := by decide
  have m (n k : ℕ) : c >>> n &&& (2 ^ k - 1) < 2 ^ k := by
    rw [shiftRight_and_mask]
    exact Nat.mod_lt _ (Nat.two_pow_pos k)
  have h₀ : c < 0x80 → c.toUInt8 ≠ 13 := fun hlt h => hc <| by
    have hn : c.toUInt8.toNat = c := UInt8.toNat_ofNat_of_lt (by unfold UInt8.size; omega)
    rw [← hn, h]
    rfl
  unfold utf8 appendCp
  split_ifs with h <;>
    simp only [Option.getD_some, Option.getD_none, List.mem_cons, List.not_mem_nil, or_false, not_or, not_false_eq_true]
  · exact (h₀ h).symm
  · exact ⟨(h₁ _ (m 6 5)).symm, (h₄ _ (m 0 6)).symm⟩
  · exact ⟨(h₂ _ (m 12 4)).symm, (h₄ _ (m 6 6)).symm, (h₄ _ (m 0 6)).symm⟩
  · exact ⟨(h₃ _ (m 18 3)).symm, (h₄ _ (m 12 6)).symm, (h₄ _ (m 6 6)).symm, (h₄ _ (m 0 6)).symm⟩

theorem getcByte_append_left {bs : List UInt8} (hbs : 13 ∉ bs) (rest : List UInt8) :
    getcByte (bs ++ rest) = bs ++ getcByte rest := by
  induction bs with
  | nil => rfl
  | cons b bs ih =>
    rw [List.mem_cons, not_or] at hbs
    rw [List.cons_append, getcByte_cons (Ne.symm hbs.1), ih hbs.2, List.cons_append]

theorem utf8Bytes_eq (text : List Char) : utf8Bytes text = encode (text.map cp) := by
  rw [utf8Bytes, encode, List.flatMap_map]
  congr 1
  funext c
  exact (utf8_eq_encodeChar c).symm

theorem before_append {text : List Char} (htext : '\r' ∉ text) (edition : Edition) (hygiene : Hygiene) (atStart : Bool)
    (rest : List UInt8) : Lexer.before edition hygiene atStart (utf8Bytes text ++ rest) =
      { Lexer.before edition hygiene atStart rest with
        input := text.map cp ++ (Lexer.before edition hygiene atStart rest).input } := by
  have hcr : (13 : UInt8) ∉ encode (text.map cp) := by
    intro h
    rcases List.mem_flatMap.mp h with ⟨v, hv, h⟩
    rcases List.mem_map.mp hv with ⟨c, hc, rfl⟩
    apply cr_not_mem_utf8 _ h
    intro h
    rw [show c = '\r' from Char.toNat_inj.mp h] at hc
    exact htext hc
  have hlt : ∀ v ∈ text.map cp, v < 0x200000 := List.forall_mem_map.mpr fun c _ => toNat_lt_21 c
  rw [Lexer.before, Lexer.ofSource, utf8Bytes_eq, getcByte_append_left hcr, getcCp_encode hlt]
  rfl

end Utf8

section Escapes

variable {stop : LexError}

theorem xdigitsValue_ofNat (digits : List Char) (n : ℕ) (h : '_' ∉ digits) :
    xdigitsValue (BitVec.ofNat 32 n) (digits.map cp) = BitVec.ofNat 32
      (digits.foldl (fun n d => if d = '_' then n else n * 16 + xdigitValue (cp d)) n) := by
  induction digits generalizing n with
  | nil => rfl
  | cons d ds ih =>
    rw [List.mem_cons, not_or] at h
    rw [List.foldl_cons, if_neg (Ne.symm h.1), ← ih _ h.2, BitVec.ofNat_add, BitVec.ofNat_mul]
    rfl

theorem xdigitValue_lt {d : ℕ} (hd : isxdigit d = true) : xdigitValue d < 16 := by
  have h : ∀ d < 128, isxdigit d = true → xdigitValue d < 16 := by decide
  apply h d _ hd
  simp only [isxdigit, isdigit, Bool.or_eq_true, Bool.and_eq_true, decide_eq_true_eq] at hd
  have := (by decide : cp '9' < 128 ∧ cp 'f' < 128 ∧ cp 'F' < 128)
  omega

theorem hexValue_lt {digits : List Char} (h : ∀ d ∈ digits, isxdigit (cp d) = true ∨ d = '_') (n : ℕ) :
    digits.foldl (fun n d => if d = '_' then n else n * 16 + xdigitValue (cp d)) n <
      (n + 1) * 16 ^ (digits.filter fun d => d != '_').length := by
  induction digits generalizing n with
  | nil => simp
  | cons d ds ih =>
    have h' := List.forall_mem_cons.mp h
    rw [List.foldl_cons]
    apply lt_of_lt_of_le (ih h'.2 _)
    by_cases hd : d = '_'
    · simp [hd]
    · have hlt := xdigitValue_lt (h'.1.resolve_right hd)
      rw [if_neg hd, List.filter_cons_of_pos (by simpa using hd), List.length_cons, pow_succ']
      rw [← mul_assoc]
      exact Nat.mul_le_mul_right _ (by omega)

theorem UnicodeDigits.value_lt {digits : List Char} (h : UnicodeDigits digits) : hexValue digits < 2 ^ 24 := by
  have hlt := hexValue_lt h.1 0
  have hle : 16 ^ (digits.filter fun d => d != '_').length ≤ 16 ^ 6 := Nat.pow_le_pow_right (by decide) h.2.2
  rw [zero_add, one_mul] at hlt
  exact lt_of_lt_of_le hlt hle

theorem hexValue_pair_lt {d₁ d₂ : Char} (h₁ : isxdigit (cp d₁) = true) (h₂ : isxdigit (cp d₂) = true) :
    hexValue [d₁, d₂] < 256 := by
  have h (d : Char) (hd : isxdigit (cp d) = true) : d ≠ '_' := by
    rintro rfl
    exact absurd hd (by decide)
  have := xdigitValue_lt h₁
  have := xdigitValue_lt h₂
  simp only [hexValue, List.foldl_cons, List.foldl_nil, if_neg (h _ h₁), if_neg (h _ h₂)]
  omega

theorem simpleEscapes_value {c : Char} (hc : c ∈ simpleEscapes.map Prod.fst) : (Elem.simple c).value < 128 := by
  have h : (simpleEscapes.map Prod.fst).all (fun c => (Elem.simple c).value < 128) = true := by decide
  exact of_decide_eq_true (List.all_eq_true.mp h c hc)

theorem Elem.WellSpelled.value_lt {e : Elem} (h : e.WellSpelled) : e.value < 2 ^ 24 := by
  cases e with
  | plain c => exact lt_trans (toNat_lt_21 c) (by decide)
  | simple c => exact lt_trans (simpleEscapes_value h) (by decide)
  | byte d₁ d₂ => exact lt_trans (hexValue_pair_lt h.1 h.2) (by decide)
  | unicode digits => exact UnicodeDigits.value_lt h
  | continuation blank => exact Nat.two_pow_pos 24

theorem UnicodeDigits.isxdigit {digits ds : List Char} (h : UnicodeDigits digits) (hsub : ∀ d ∈ ds, d ∈ digits)
    (hds : '_' ∉ ds) : ∀ v ∈ ds.map cp, isxdigit v = true := by
  intro v hv
  rcases List.mem_map.mp hv with ⟨d, hd, rfl⟩
  apply (h.1 d (hsub d hd)).resolve_right
  rintro rfl
  exact hds hd

/-- A `\u` escape, behind the `u`. -/
theorem unicodeEscape_digits (stop : LexError) {digits : List Char} (h : UnicodeDigits digits) (rest : List ℕ) :
    unicodeEscape stop (cp '\x7b' :: digits.map cp ++ cp '\x7d' :: rest) =
      if digits.contains '_' then .error .parseError else .ok (BitVec.ofNat 32 (hexValue digits), rest) := by
  cases digits with
  | nil => exact absurd h.2.1 (by decide)
  | cons d ds =>
  have hd : isxdigit (cp d) = true := h.2.1
  by_cases hmem : '_' ∈ d :: ds
  · rcases List.eq_append_cons_of_mem hmem with ⟨pre, post, heq, hpre⟩
    have hx := h.isxdigit (fun c hc => heq ▸ List.mem_append_left _ hc) hpre
    have hesc : hexEscape stop 0 ((d :: ds).map cp ++ cp '\x7d' :: rest) =
        .ok (xdigitsValue 0 (pre.map cp), cp '_', post.map cp ++ cp '\x7d' :: rest) :=
      (hexEscape_eq_ok stop).mpr ⟨pre.map cp, by simp [heq], hx, by decide, rfl⟩
    rw [List.map_cons, List.cons_append] at hesc
    rw [if_pos (by simpa using hmem)]
    simp only [unicodeEscape, getc, List.map_cons, List.cons_append, Lex.bind_ok, if_true, hd, hesc]
    rfl
  · have hx := h.isxdigit (fun c hc => hc) hmem
    rw [if_neg (by simpa using hmem), unicodeEscape_braces stop (by simp) hx]
    exact congrArg (fun v => Except.ok (v, rest)) (xdigitsValue_ofNat (d :: ds) 0 hmem)

theorem parseEscape_simple {c : Char} (hc : c ∈ simpleEscapes.map Prod.fst) (enclosing : Char) (rest : List ℕ) :
    parseEscape stop enclosing false (cp c :: rest) = .ok (BitVec.ofNat 32 (Elem.simple c).value, rest) := by
  simp only [simpleEscapes, List.map_cons, List.map_nil, List.mem_cons, List.not_mem_nil, or_false] at hc
  rcases hc with rfl | rfl | rfl | rfl | rfl | rfl | rfl <;> rfl

def Elem.isEscape : Elem → Bool
  | .plain _ | .continuation _ => false
  | _ => true

/-- An escape, behind its backslash. -/
theorem parseEscape_elem (stop : LexError) {e : Elem} (h : e.WellSpelled) (he : e.isEscape = true) (enclosing : Char)
    (rest : List ℕ) : ∃ tail, e.spell.map cp = cp '\\' :: tail ∧ parseEscape stop enclosing false (tail ++ rest) =
      if e.hasUnderscore then .error .parseError else .ok (BitVec.ofNat 32 e.value, rest) := by
  cases e with
  | plain c => exact absurd he Bool.false_ne_true
  | continuation blank => exact absurd he Bool.false_ne_true
  | simple c => exact ⟨[cp c], rfl, parseEscape_simple h enclosing rest⟩
  | byte d₁ d₂ =>
    refine ⟨[cp 'x', cp d₁, cp d₂], rfl, ?_⟩
    rw [List.cons_append, parseEscape, if_pos rfl]
    apply (byteEscape_eq_ok stop).mpr
    refine ⟨cp d₁, cp d₂, rfl, h.1, h.2, ?_⟩
    have hd (d : Char) (hd : isxdigit (cp d) = true) : d ≠ '_' := by
      rintro rfl
      exact absurd hd (by decide)
    simp [Elem.value, hexValue, hd d₁ h.1, hd d₂ h.2]
  | unicode digits =>
    refine ⟨cp 'u' :: cp '\x7b' :: digits.map cp ++ [cp '\x7d'], by simp [Elem.spell], ?_⟩
    have := unicodeEscape_digits stop h rest
    rw [List.append_assoc, List.cons_append, parseEscape, if_neg (by decide), if_pos rfl]
    exact this

end Escapes

section Strings

variable {stop : LexError} {add : List UInt8 → BitVec 32 → Lex (List UInt8)}

/-- A string goes on behind an escape. -/
def scanEscaped (stop : LexError) (add : List UInt8 → BitVec 32 → Lex (List UInt8)) (str : List UInt8)
    (x : Lex (BitVec 32 × List ℕ)) : Lex (List UInt8 × List ℕ) :=
  x >>= fun out =>
    if out.1 = BitVec.allOnes 32 then scanString stop add str out.2
    else add str out.1 >>= fun str => scanString stop add str out.2

theorem scanString_backslash (str : List UInt8) (input : List ℕ) : scanString stop add str (cp '\\' :: input) =
    scanEscaped stop add str (parseEscape stop '"' false input) := by
  cases h : parseEscape stop '"' false input with
  | ok out => exact scanString_escape h str
  | error e =>
    rw [scanString, if_neg (by decide), if_pos rfl]
    split
    · rename_i he
      rw [h] at he
      cases he
      rfl
    · rename_i he
      rw [h] at he
      cases he

theorem parseEscape_blank (stop : LexError) {blank : List ℕ} (h : ∀ v ∈ blank, isspace v = true) (enclosing : Char)
    (input : List ℕ) :
    parseEscape stop enclosing true (blank ++ input) = parseEscape stop enclosing true input := by
  induction blank with
  | nil => rfl
  | cons v blank ih =>
    rw [List.forall_mem_cons] at h
    rw [List.cons_append, parseEscape, if_pos h.1, ih h.2]

/-- The bytes that an element adds to a string whose values have a limit. -/
def readElem (limit : ℕ) (bytes : ℕ → List UInt8) (e : Elem) : Lex (List UInt8) :=
  if e.hasUnderscore = true ∨ limit < e.value then .error .parseError else .ok (bytes e.value)

/-- The elements as the lexer reads them: while it is skipping, white space is dropped. -/
def readElems (limit : ℕ) (bytes : ℕ → List UInt8) : (skipping : Bool) → List Elem → Lex (List UInt8)
  | _, [] => .ok []
  | skipping, e :: es =>
    if e.isContinuation then readElems limit bytes true es
    else if skipping && e.isPlain (fun c => isspace (cp c)) then readElems limit bytes true es
    else do
      let bs ← readElem limit bytes e
      let bs' ← readElems limit bytes false es
      return bs ++ bs'

/-- What `add` does with the value of an element. -/
structure Adds (add : List UInt8 → BitVec 32 → Lex (List UInt8)) (limit : ℕ) (bytes : ℕ → List UInt8) (e : Elem) :
    Prop where
  within : e.value ≤ limit → ∀ str, add str (BitVec.ofNat 32 e.value) = .ok (str ++ bytes e.value)
  beyond : limit < e.value → ∀ str, add str (BitVec.ofNat 32 e.value) = .error .parseError
  plain : ∀ c, e = .plain c → c.toNat ≤ limit ∧ bytes c.toNat = utf8 c.toNat

/-- A string, inside it or behind a continuation. -/
def scanBody (stop : LexError) (add : List UInt8 → BitVec 32 → Lex (List UInt8)) (str : List UInt8) (skipping : Bool)
    (input : List ℕ) : Lex (List UInt8 × List ℕ) :=
  if skipping then scanEscaped stop add str (parseEscape stop '"' true input) else scanString stop add str input

variable {limit : ℕ} {bytes : ℕ → List UInt8}

theorem scanEscaped_value {e : Elem} (hs : e.WellSpelled) (he : Adds add limit bytes e)
    (hu : e.hasUnderscore = false) (str : List UInt8) (input : List ℕ) :
    scanEscaped stop add str (.ok (BitVec.ofNat 32 e.value, input)) =
      readElem limit bytes e >>= fun bs => scanString stop add (str ++ bs) input := by
  have hne := ofNat_ne_allOnes (lt_trans hs.value_lt (by decide))
  rw [scanEscaped, Lex.bind_ok, if_neg hne, readElem, hu]
  rcases le_or_gt e.value limit with hle | hlt
  · rw [he.within hle, if_neg (by simpa using hle)]
    rfl
  · rw [he.beyond hlt, if_pos (Or.inr hlt)]
    rfl

theorem scanBody_elem {e : Elem} (hs : e.WellSpelled) (he : Adds add limit bytes e) (hq : e ≠ .plain '"')
    (hc : e.isContinuation = false) {skipping : Bool}
    (hskip : (skipping && e.isPlain fun c => isspace (cp c)) = false) (str : List UInt8) (input : List ℕ) :
    scanBody stop add str skipping (e.spell.map cp ++ input) =
      readElem limit bytes e >>= fun bs => scanString stop add (str ++ bs) input := by
  by_cases hesc : e.isEscape = true
  · rcases parseEscape_elem stop hs hesc '"' input with ⟨tail, htail, hparse⟩
    have heq : scanBody stop add str skipping (e.spell.map cp ++ input) =
        scanEscaped stop add str (parseEscape stop '"' false (tail ++ input)) := by
      rw [htail, List.cons_append]
      cases skipping with
      | false => exact scanString_backslash str _
      | true =>
        rw [scanBody, if_pos rfl, parseEscape, if_neg (by decide), if_pos rfl]
    rw [heq, hparse]
    by_cases hu : e.hasUnderscore = true
    · rw [if_pos hu, readElem, if_pos (Or.inl hu)]
      rfl
    · rw [if_neg hu, scanEscaped_value hs he (by simpa using hu)]
  · cases e with
    | plain c =>
      have hread : readElem limit bytes (.plain c) = .ok (utf8 c.toNat) := by
        have hgood := not_or.mpr ⟨Bool.false_ne_true, not_lt.mpr (he.plain c rfl).1⟩
        rw [readElem, ← (he.plain c rfl).2]
        exact if_neg hgood
      have hquote : cp c ≠ cp '"' := fun h => hq (congrArg Elem.plain (Char.toNat_inj.mp h))
      have hback : cp c ≠ cp '\\' := fun h => hs.1 (Char.toNat_inj.mp h)
      cases skipping with
      | false =>
        rw [hread, Lex.bind_ok, scanBody, if_neg Bool.false_ne_true]
        exact scanString_char hquote hback (toNat_lt_21 c) str input
      | true =>
        have hsp : ¬ isspace (cp c) = true := by simpa [Elem.isPlain] using hskip
        rw [← scanEscaped_value hs he rfl, scanBody, if_pos rfl]
        rw [Elem.spell, List.map_singleton, List.singleton_append, parseEscape, if_neg hsp, if_neg hback, if_neg hquote]
        rfl
    | continuation blank => exact absurd hc (by simp [Elem.isContinuation])
    | simple | byte | unicode => exact absurd rfl hesc

theorem blank_isspace {c : Char} (hc : c ∈ [' ', '\n', '\t']) : isspace (cp c) = true := by
  have h : [' ', '\n', '\t'].all (fun c => isspace (cp c)) = true := by decide
  exact List.all_eq_true.mp h c hc

theorem scanBody_continuation {blank : List Char} (h : (Elem.continuation blank).WellSpelled) (skipping : Bool)
    (str : List UInt8) (input : List ℕ) :
    scanBody stop add str skipping ((Elem.continuation blank).spell.map cp ++ input) =
      scanBody stop add str true input := by
  have hblank : ∀ v ∈ blank.map cp, isspace v = true := by
    intro v hv
    rcases List.mem_map.mp hv with ⟨c, hc, rfl⟩
    exact blank_isspace (h c hc)
  have hparse := parseEscape_blank stop hblank '"' input
  cases skipping with
  | false => exact (scanString_backslash str _).trans (congrArg (scanEscaped stop add str) hparse)
  | true => exact congrArg (scanEscaped stop add str) hparse

theorem scanBody_elems (stop : LexError) {es : List Elem} (hes : ∀ e ∈ es, e.WellSpelled ∧ e ≠ .plain '"')
    (hadd : ∀ e ∈ es, Adds add limit bytes e) (skipping : Bool) (str : List UInt8) (rest : List ℕ) :
    scanBody stop add str skipping ((es.flatMap Elem.spell).map cp ++ cp '"' :: rest) =
      readElems limit bytes skipping es >>= fun bs => .ok (str ++ bs, rest) := by
  induction es generalizing skipping str with
  | nil =>
    rw [readElems, Lex.bind_ok, List.append_nil]
    cases skipping with
    | false => exact scanString_quote str rest
    | true => exact scanString_quote str rest
  | cons e es ih =>
    rw [List.forall_mem_cons] at hes hadd
    have ih := ih hes.2 hadd.2
    rw [List.flatMap_cons, List.map_append, List.append_assoc, readElems]
    split_ifs with hc hd
    · cases e with
      | continuation blank => rw [scanBody_continuation hes.1.1, ih true]
      | plain | simple | byte | unicode => exact absurd hc Bool.false_ne_true
    · rw [Bool.and_eq_true] at hd
      cases e with
      | plain c =>
        have hsp : ∀ v ∈ [cp c], isspace v = true := by simpa [Elem.isPlain] using hd.2
        have hparse := parseEscape_blank stop hsp '"'
        rw [← ih true, hd.1]
        exact congrArg (scanEscaped stop add str) (hparse _)
      | continuation | simple | byte | unicode => exact absurd hd.2 Bool.false_ne_true
    · rw [scanBody_elem hes.1.1 hadd.1 hes.1.2 (by simpa using hc) (by simpa using hd)]
      cases readElem limit bytes e with
      | error err => rfl
      | ok bs =>
        have := ih false (str ++ bs)
        rw [scanBody, if_neg Bool.false_ne_true] at this
        rw [Lex.bind_ok, this]
        cases readElems limit bytes false es with
        | error err => rfl
        | ok bs' => exact congrArg (fun str => Except.ok (str, rest)) (List.append_assoc str bs bs')

/-- A bad element is found, since only characters are dropped. -/
theorem readElems_bad {es : List Elem} (hplain : ∀ c, .plain c ∈ es → c.toNat ≤ limit)
    (hbad : ∃ e ∈ es, e.hasUnderscore = true ∨ limit < e.value) (skipping : Bool) :
    readElems limit bytes skipping es = .error .parseError := by
  induction es generalizing skipping with
  | nil => simp at hbad
  | cons e es ih =>
    have ih := ih fun c hc => hplain c (List.mem_cons_of_mem e hc)
    have htail (he : ¬(e.hasUnderscore = true ∨ limit < e.value)) :
        ∃ e ∈ es, e.hasUnderscore = true ∨ limit < e.value := by
      rcases hbad with ⟨e', hmem, hbad⟩
      rcases List.mem_cons.mp hmem with rfl | hmem
      · exact absurd hbad he
      · exact ⟨e', hmem, hbad⟩
    rw [readElems]
    split_ifs with hc hd
    · cases e with
      | continuation blank => exact ih (htail (not_or.mpr ⟨Bool.false_ne_true, Nat.not_lt_zero limit⟩)) true
      | plain | simple | byte | unicode => exact absurd hc Bool.false_ne_true
    · rw [Bool.and_eq_true] at hd
      cases e with
      | plain c =>
        have hle := hplain c List.mem_cons_self
        exact ih (htail (not_or.mpr ⟨Bool.false_ne_true, not_lt.mpr hle⟩)) true
      | continuation | simple | byte | unicode => exact absurd hd.2 Bool.false_ne_true
    · rw [readElem]
      by_cases he : e.hasUnderscore = true ∨ limit < e.value
      · rw [if_pos he]
        rfl
      · rw [if_neg he, ih (htail he) false]
        rfl

/-- No dropped character, also at the front of what is read while skipping. -/
def UndroppedFrom (skipping : Bool) (es : List Elem) : Prop :=
  (skipping = true → ∀ e ∈ es.head?, e.isPlain (fun c => isspace (cp c)) = false) ∧ Undropped es

theorem undroppedFrom_cons (skipping : Bool) (e : Elem) (es : List Elem) : UndroppedFrom skipping (e :: es) ↔
    (skipping = true → e.isPlain (fun c => isspace (cp c)) = false) ∧ UndroppedFrom e.isContinuation es := by
  rw [UndroppedFrom, UndroppedFrom, Undropped, Undropped, List.isChain_cons, List.head?_cons]
  simp only [Option.mem_def, Option.some.injEq, forall_eq']
  apply and_congr_right
  intro _
  apply and_congr_left
  intro _
  exact ⟨fun h hc e' he' => h e' he' hc, fun h e' he' hc => h hc e' he'⟩

theorem values_cons (e : Elem) (es : List Elem) :
    values (e :: es) = if e.isContinuation = true then values es else e.value :: values es := by
  rw [values, values, List.filter_cons]
  cases e.isContinuation <;> rfl

theorem readElems_good (bytes : ℕ → List UInt8) {es : List Elem} (hbytes : ∀ e ∈ es, bytes e.value ≠ [])
    (hgood : ∀ e ∈ es, ¬(e.hasUnderscore = true ∨ limit < e.value)) (skipping : Bool) :
    ∃ bs, readElems limit bytes skipping es = .ok bs ∧ bs.length ≤ ((values es).flatMap bytes).length ∧
      (bs = (values es).flatMap bytes ↔ UndroppedFrom skipping es) := by
  induction es generalizing skipping with
  | nil => exact ⟨[], rfl, le_rfl, iff_of_true rfl ⟨by simp, List.IsChain.nil⟩⟩
  | cons e es ih =>
    rw [List.forall_mem_cons] at hbytes hgood
    have ih := ih hbytes.2 hgood.2
    rw [readElems, values_cons, undroppedFrom_cons]
    split_ifs with hc hd
    · rcases ih true with ⟨bs, hread, hle, heq⟩
      refine ⟨bs, hread, hle, ?_⟩
      cases e with
      | continuation blank => simpa [Elem.isPlain, Elem.isContinuation] using heq
      | plain | simple | byte | unicode => exact absurd hc Bool.false_ne_true
    · rcases ih true with ⟨bs, hread, hle, -⟩
      have hpos := List.length_pos_of_ne_nil hbytes.1
      rw [List.flatMap_cons, List.length_append]
      refine ⟨bs, hread, by omega, iff_of_false ?_ ?_⟩
      · intro h
        have := congrArg List.length h
        rw [List.length_append] at this
        omega
      · rintro ⟨h, -⟩
        rw [Bool.and_eq_true] at hd
        exact Bool.false_ne_true ((h hd.1).symm.trans hd.2)
    · rcases ih false with ⟨bs, hread, hle, heq⟩
      rw [readElem, if_neg hgood.1, Lex.bind_ok, hread, Lex.bind_ok, List.flatMap_cons]
      refine ⟨bytes e.value ++ bs, rfl, by simpa using hle, ?_⟩
      rw [List.append_cancel_left_eq, heq, show e.isContinuation = false by simpa using hc]
      exact (and_iff_right fun h => by simpa [h] using hd).symm

end Strings

section Raw

variable {stop : LexError} {hashes : ℕ}

theorem countHashes_replicate (n k : ℕ) (input : List ℕ) :
    countHashes stop n ((List.replicate k '#').map cp ++ cp '"' :: input) = .ok (n + k, cp '"', input) := by
  induction k generalizing n with
  | zero => rfl
  | succ k ih =>
    rw [List.replicate_succ, List.map_cons, List.cons_append, countHashes, if_pos rfl, ih, Nat.add_right_comm,
      Nat.add_assoc]

theorem scanRaw_char {ch : ℕ} (hch : ch ≠ cp '"') (hlt : ch < 0x200000) (val : List UInt8) (input : List ℕ) :
    scanRaw stop hashes val 0 (ch :: input) = scanRaw stop hashes (val ++ utf8 ch) 0 input := by
  rw [scanRaw, if_neg hch, append_eq_ok.mpr ⟨hlt, rfl⟩]

theorem scanRaw_quote (val : List UInt8) (input : List ℕ) : scanRaw stop hashes val 0 (cp '"' :: input) =
    if hashes = 0 then .ok (val, input) else scanRaw stop hashes val hashes input := by
  rw [scanRaw, if_pos rfl]

theorem scanRaw_hash (val : List UInt8) (n : ℕ) (input : List ℕ) : scanRaw stop hashes val (n + 1) (cp '#' :: input) =
    if n = 0 then .ok (val, input) else scanRaw stop hashes val n input := by
  rw [scanRaw, if_pos rfl]

theorem scanRaw_other {ch : ℕ} (hch : ch ≠ cp '#') (val : List UInt8) (n : ℕ) (input : List ℕ) :
    scanRaw stop hashes val (n + 1) (ch :: input) =
      scanRaw stop hashes (val ++ ascii ('"' :: List.replicate (hashes - (n + 1)) '#')) 0 (ch :: input) := by
  conv_lhs => rw [scanRaw]
  exact if_neg hch

theorem scanRaw_terminator (val : List UInt8) (n : ℕ) (rest : List ℕ) :
    scanRaw stop hashes val (n + 1) ((List.replicate (n + 1) '#').map cp ++ rest) = .ok (val, rest) := by
  induction n with
  | zero => exact scanRaw_hash val 0 rest
  | succ n ih =>
    rw [List.replicate_succ, List.map_cons, List.cons_append, scanRaw_hash, if_neg (Nat.succ_ne_zero n), ih]

/-- Fewer hashes than the terminator has are put back behind the quote. -/
theorem scanRaw_partial (stop : LexError) (hashes : ℕ) {ch : ℕ} (hch : ch ≠ cp '#') (val : List UInt8) (n k : ℕ)
    (input : List ℕ) :
    scanRaw stop hashes val (n + 1 + k) ((List.replicate k '#').map cp ++ ch :: input) =
      scanRaw stop hashes (val ++ ascii ('"' :: List.replicate (hashes - (n + 1)) '#')) 0 (ch :: input) := by
  induction k with
  | zero => exact scanRaw_other hch val n input
  | succ k ih =>
    rw [List.replicate_succ, List.map_cons, List.cons_append, ← Nat.add_assoc, scanRaw_hash, if_neg (by omega), ih]

theorem exists_hashes (text : List Char) :
    ∃ k text', text = List.replicate k '#' ++ text' ∧ ∀ c ∈ text'.head?, c ≠ '#' := by
  induction text with
  | nil => exact ⟨0, [], rfl, by simp⟩
  | cons c cs ih =>
    by_cases hc : c = '#'
    · rcases ih with ⟨k, text', rfl, h⟩
      exact ⟨k + 1, text', by rw [hc]; rfl, h⟩
    · exact ⟨0, c :: cs, rfl, by simpa using hc⟩

/-- A quote and fewer hashes than the terminator has are text. -/
theorem scanRaw_hashes {k ch : ℕ} (hk : k < hashes) (hch : ch ≠ cp '#') (val : List UInt8) (input : List ℕ) :
    scanRaw stop hashes val 0 (cp '"' :: ((List.replicate k '#').map cp ++ ch :: input)) =
      scanRaw stop hashes (val ++ ascii ('"' :: List.replicate k '#')) 0 (ch :: input) := by
  have hsum : hashes - 1 - k + 1 + k = hashes := by omega
  have hpartial := scanRaw_partial stop hashes hch val (hashes - 1 - k) k input
  rw [hsum, show hashes - (hashes - 1 - k + 1) = k by omega] at hpartial
  rw [scanRaw_quote, if_neg (by omega), hpartial]

theorem not_terminator_of_append (pre : List Char) {post : List Char}
    (htext : ¬ terminator hashes <:+: pre ++ post) : ¬ terminator hashes <:+: post := fun h =>
  htext (h.trans (List.suffix_append pre post).isInfix)

theorem scanRaw_text {text : List Char} (htext : ¬ terminator hashes <:+: text) (val : List UInt8) (rest : List ℕ) :
    scanRaw stop hashes val 0 (text.map cp ++ ((terminator hashes).map cp ++ rest)) =
      .ok (val ++ encode (text.map cp), rest) := by
  induction hn : text.length using Nat.strong_induction_on generalizing text val with
  | _ n ih =>
    cases text with
    | nil =>
      rw [List.map_nil, encode_nil, List.append_nil, List.nil_append, terminator, List.map_cons, List.cons_append,
        scanRaw_quote]
      cases hashes with
      | zero => rfl
      | succ m => exact scanRaw_terminator val m rest
    | cons c cs =>
      rw [List.length_cons] at hn
      by_cases hc : c = '"'
      · rcases exists_hashes cs with ⟨k, text', rfl, hhead⟩
        have hlt : k < hashes := by
          by_contra h
          apply htext
          refine ⟨[], List.replicate (k - hashes) '#' ++ text', ?_⟩
          rw [List.nil_append, terminator, hc, List.cons_append, ← List.append_assoc, List.replicate_append_replicate,
            Nat.add_sub_cancel' (not_lt.mp h)]
        have hascii : ascii ('"' :: List.replicate k '#') = encode (('"' :: List.replicate k '#').map cp) := by
          apply ascii_eq_encode
          intro d hd
          rcases List.mem_cons.mp hd with rfl | hd
          · decide
          · rw [List.eq_of_mem_replicate hd]
            decide
        have htext' := not_terminator_of_append (c :: List.replicate k '#') htext
        have hlen : text'.length < n := by
          rw [List.length_append] at hn
          omega
        have hgo := ih _ hlen htext' (val ++ ascii ('"' :: List.replicate k '#')) rfl
        have hcons : ∃ ch input, text'.map cp ++ ((terminator hashes).map cp ++ rest) = ch :: input ∧ ch ≠ cp '#' := by
          cases text' with
          | nil => exact ⟨cp '"', _, rfl, by decide⟩
          | cons c' cs' => exact ⟨cp c', _, rfl, fun h => hhead c' rfl (Char.toNat_inj.mp h)⟩
        rcases hcons with ⟨ch, input, hinput, hch⟩
        rw [hc, List.map_cons, List.map_append, List.cons_append, List.append_assoc, hinput, scanRaw_hashes hlt hch,
          ← hinput, hgo, hascii, encode_cons, encode_append, List.map_cons, encode_cons]
        simp only [List.append_assoc]
      · have hgo := ih _ (by omega) (not_terminator_of_append [c] htext) (val ++ utf8 (cp c)) rfl
        have hquote : cp c ≠ cp '"' := fun h => hc (Char.toNat_inj.mp h)
        rw [List.map_cons, List.cons_append, scanRaw_char hquote (toNat_lt_21 c), hgo, encode_cons, List.append_assoc]

end Raw

section Literals

variable {edition : Edition} {hygiene : Hygiene} {atStart : Bool}

theorem before_getTokenInt {text : List Char} (htext : '\r' ∉ text) {x : Lex Token} (hx : x ≠ .error .endOfFile)
    (h : ∀ stop input, scanToken stop edition hygiene atStart (text.map cp ++ input) =
      x >>= fun token => .ok ⟨token, [], input⟩) (rest : List UInt8) :
    (Lexer.before edition hygiene atStart (utf8Bytes text ++ rest)).getTokenInt =
      x >>= fun token => .ok (token, Lexer.before edition hygiene false rest) := by
  have hnil : (Lexer.before edition hygiene atStart (utf8Bytes text ++ rest)).nextTokens = [] := rfl
  have hscan := h (Lexer.before edition hygiene atStart rest).stop (Lexer.before edition hygiene atStart rest).input
  rw [Lexer.getTokenInt]
  simp only [before_append htext] at hnil ⊢
  rw [show (Lexer.before edition hygiene atStart rest).nextTokens = [] from rfl]
  dsimp only
  rw [show (Lexer.before edition hygiene atStart rest).edition = edition from rfl,
    show (Lexer.before edition hygiene atStart rest).hygiene = hygiene from rfl,
    show (Lexer.before edition hygiene atStart rest).atStart = atStart from rfl, hscan]
  cases x with
  | ok token => rfl
  | error e =>
    cases e with
    | endOfFile => exact absurd rfl hx
    | badChar | parseError | todo | runtimeError => rfl

theorem readsIn_iff {lit : Literal} (hlit : '\r' ∉ lit.spell) {x : Lex Token} (hx : x ≠ .error .endOfFile)
    (h : ∀ stop input, scanToken stop edition hygiene atStart (lit.spell.map cp ++ input) =
      x >>= fun token => .ok ⟨token, [], input⟩) (rest : List UInt8) :
    lit.ReadsIn edition hygiene atStart rest ↔ x = (lit.token hygiene).elim (.error .parseError) .ok := by
  rw [Literal.ReadsIn, before_getTokenInt hlit hx h]
  cases lit.token hygiene <;> cases x <;> simp

theorem readElems_ne_eof (limit : ℕ) (bytes : ℕ → List UInt8) (skipping : Bool) (es : List Elem) :
    readElems limit bytes skipping es ≠ .error .endOfFile := by
  induction es generalizing skipping with
  | nil => simp [readElems]
  | cons e es ih =>
    rw [readElems]
    split_ifs
    · exact ih true
    · exact ih true
    · rw [readElem]
      split_ifs
      · exact fun h => LexError.noConfusion (Except.error.inj h)
      · have := ih false
        cases h : readElems limit bytes false es with
        | ok bs => simp
        | error err =>
          rw [h] at this
          exact this

theorem bind_token_ne_eof {x : Lex (List UInt8)} (hx : x ≠ .error .endOfFile) (f : List UInt8 → Token) :
    (x >>= fun bs => Except.ok (f bs)) ≠ .error .endOfFile := by
  cases x with
  | ok bs => simp
  | error e => simpa using hx

theorem Elem.WellSpelled.cr_not_mem {e : Elem} (h : e.WellSpelled) : '\r' ∉ e.spell := by
  have hx {d : Char} (hd : isxdigit (cp d) = true) : d ≠ '\r' := by
    rintro rfl
    exact absurd hd (by decide)
  cases e with
  | plain c => simpa [Elem.spell] using h.2.symm
  | simple c =>
    have hall : '\r' ∉ simpleEscapes.map Prod.fst := by decide
    have hc : c ≠ '\r' := fun hc => hall (hc ▸ h)
    simpa [Elem.spell] using hc.symm
  | byte d₁ d₂ => simpa [Elem.spell] using ⟨(hx h.1).symm, (hx h.2).symm⟩
  | unicode digits =>
    have hdigits : '\r' ∉ digits := fun hmem => (h.1 _ hmem).elim (absurd rfl ∘ hx) (by decide)
    simpa [Elem.spell] using hdigits
  | continuation blank =>
    have hblank : '\r' ∉ blank := fun hmem => absurd (h _ hmem) (by decide)
    simpa [Elem.spell] using hblank

theorem Body.cr_not_mem {es : List Elem} (h : Body es) : '\r' ∉ es.flatMap Elem.spell := by
  intro hmem
  rcases List.mem_flatMap.mp hmem with ⟨e, he, hmem⟩
  exact (h.spelled e he).1.cr_not_mem hmem

theorem Elem.isValidChar {e : Elem} (h : e.WellSpelled) (hchar : e.IsChar) : e.value.isValidChar := by
  cases e with
  | plain c => exact c.valid
  | simple c => exact Or.inl (lt_trans (simpleEscapes_value h) (by decide))
  | byte d₁ d₂ => exact Or.inl (lt_trans hchar (by decide))
  | unicode digits => exact hchar
  | continuation blank => exact Or.inl (by decide : 0 < 0xd800)

theorem mem_values {es : List Elem} {v : ℕ} (h : v ∈ values es) : ∃ e ∈ es, e.value = v := by
  rcases List.mem_map.mp h with ⟨e, he, rfl⟩
  exact ⟨e, List.mem_of_mem_filter he, rfl⟩

theorem exists_value_iff {es : List Elem} {limit : ℕ} :
    (∃ e ∈ es, e.hasUnderscore = true ∨ limit < e.value) ↔
      (∃ v ∈ values es, limit < v) ∨ ∃ e ∈ es, e.hasUnderscore = true := by
  constructor
  · rintro ⟨e, he, hu | hlt⟩
    · exact Or.inr ⟨e, he, hu⟩
    · apply Or.inl
      refine ⟨e.value, List.mem_map_of_mem (List.mem_filter.mpr ⟨he, ?_⟩), hlt⟩
      cases e with
      | continuation => exact absurd hlt (Nat.not_lt_zero limit)
      | plain | simple | byte | unicode => rfl
  · rintro (⟨v, hv, hlt⟩ | ⟨e, he, hu⟩)
    · rcases mem_values hv with ⟨e, he, rfl⟩
      exact ⟨e, he, Or.inr hlt⟩
    · exact ⟨e, he, Or.inl hu⟩

theorem toNat_ofNat {v : ℕ} (h : v.isValidChar) : (Char.ofNat v).toNat = v := by
  rw [Char.ofNat, dif_pos h]
  rfl

theorem flatMap_utf8_values {es : List Elem} (h : ∀ e ∈ es, e.WellSpelled ∧ e.IsChar) :
    (values es).flatMap utf8 = utf8Bytes (textOf es) := by
  have hmap : (textOf es).map cp = values es := by
    rw [textOf, List.map_map]
    apply (List.map_congr_left fun v hv => ?_).trans (List.map_id _)
    rcases mem_values hv with ⟨e, he, rfl⟩
    exact toNat_ofNat (Elem.isValidChar (h e he).1 (h e he).2)
  rw [utf8Bytes_eq, hmap, encode]

theorem adds_codepoint {e : Elem} (h : e.WellSpelled) (hchar : e.IsChar) : Adds addCodepoint 0x1FFFFF utf8 e := by
  have hvalid : e.value < 0x200000 := by
    rcases Elem.isValidChar h hchar with hlt | hlt
    · exact lt_trans hlt (by decide)
    · exact lt_trans hlt.2 (by decide)
  refine ⟨fun _ str => ?_, fun hlt => absurd hlt (by omega), ?_⟩
  · rw [addCodepoint, BitVec.toNat_ofNat, Nat.mod_eq_of_lt (lt_trans hvalid (by decide))]
    exact append_eq_ok.mpr ⟨hvalid, rfl⟩
  · intro c _
    exact ⟨Nat.le_of_lt_succ (toNat_lt_21 c), rfl⟩

theorem adds_byte {e : Elem} (h : e.WellSpelled) (hplain : e.isPlain (fun c => 0x80 ≤ c.toNat) = false) :
    Adds addByte 256 (fun v => [v.toUInt8]) e := by
  have hmod : (BitVec.ofNat 32 e.value).toNat = e.value := by
    rw [BitVec.toNat_ofNat, Nat.mod_eq_of_lt (lt_trans h.value_lt (by decide))]
  refine ⟨fun hle str => ?_, fun hlt str => ?_, ?_⟩
  · rw [addByte, hmod, if_neg (not_lt.mpr hle)]
  · rw [addByte, hmod, if_pos hlt]
  · rintro c rfl
    have hlt : c.toNat < 0x80 := by simpa [Elem.isPlain] using hplain
    exact ⟨by omega, (utf8_ascii hlt).symm⟩

theorem bodyReadable_iff {limit : ℕ} (bytes : ℕ → List UInt8) {es : List Elem}
    (hplain : ∀ c, .plain c ∈ es → c.toNat ≤ limit) (hlimit : ∀ v ∈ values es, v ≤ limit)
    (hbytes : ∀ e ∈ es, bytes e.value ≠ []) :
    readElems limit bytes false es = .ok ((values es).flatMap bytes) ↔ BodyReadable es := by
  by_cases hbad : ∃ e ∈ es, e.hasUnderscore = true ∨ limit < e.value
  · rw [readElems_bad hplain hbad]
    apply iff_of_false (by simp)
    intro h
    rcases exists_value_iff.mp hbad with ⟨v, hv, hlt⟩ | ⟨e, he, hu⟩
    · exact absurd (hlimit v hv) (not_le.mpr hlt)
    · exact Bool.false_ne_true ((h.1 e he).symm.trans hu)
  · have hgood : ∀ e ∈ es, ¬(e.hasUnderscore = true ∨ limit < e.value) := fun e he h => hbad ⟨e, he, h⟩
    rcases readElems_good bytes hbytes hgood false with ⟨bs, hread, -, heq⟩
    rw [hread, Except.ok.injEq, heq]
    constructor
    · exact fun h => ⟨fun e he => by simpa using fun hu => hgood e he (Or.inl hu), h.2⟩
    · exact fun h => ⟨fun hf => absurd hf Bool.false_ne_true, h.2⟩

theorem scanToken_string (edition : Edition) (hygiene : Hygiene) (atStart : Bool) {es : List Elem} (h : Body es)
    (hchar : ∀ e ∈ es, e.IsChar) (stop : LexError) (input : List ℕ) :
    scanToken stop edition hygiene atStart ((Literal.string es).spell.map cp ++ input) =
      (readElems 0x1FFFFF utf8 false es >>= fun bs => .ok (.string bs hygiene)) >>= fun token =>
        .ok ⟨token, [], input⟩ := by
  have hscan := scanBody_elems stop h.spelled (fun e he => adds_codepoint (h.spelled e he).1 (hchar e he)) false []
    input
  rw [scanBody, if_neg Bool.false_ne_true] at hscan
  have htext : (Literal.string es).spell.map cp ++ input =
      cp '"' :: ((es.flatMap Elem.spell).map cp ++ cp '"' :: input) := by simp [Literal.spell]
  rcases List.exists_cons_of_ne_nil (l := (es.flatMap Elem.spell).map cp ++ cp '"' :: input) (by simp) with
    ⟨ch, tail, htail⟩
  rw [htext, htail, scanToken_doubleQuote, ← htail, hscan]
  cases readElems 0x1FFFFF utf8 false es <;> rfl

theorem scanToken_bytes (edition : Edition) (hygiene : Hygiene) (atStart : Bool) {es : List Elem} (h : Body es)
    (hplain : ∀ e ∈ es, e.isPlain (fun c => 0x80 ≤ c.toNat) = false) (stop : LexError) (input : List ℕ) :
    scanToken stop edition hygiene atStart ((Literal.byteString es).spell.map cp ++ input) =
      (readElems 256 (fun v => [v.toUInt8]) false es >>= fun bs => .ok (.byteString bs)) >>= fun token =>
        .ok ⟨token, [], input⟩ := by
  have hscan := scanBody_elems stop h.spelled (fun e he => adds_byte (h.spelled e he).1 (hplain e he)) false [] input
  rw [scanBody, if_neg Bool.false_ne_true] at hscan
  have htext : (Literal.byteString es).spell.map cp ++ input =
      cp 'b' :: cp '"' :: ((es.flatMap Elem.spell).map cp ++ cp '"' :: input) := by simp [Literal.spell]
  rw [htext, scanToken_byteString, hscan]
  cases readElems 256 (fun v => [v.toUInt8]) false es <;> rfl

theorem scanRawString_text (edition : Edition) (hygiene : Hygiene) {hashes : ℕ} {text : List Char}
    (htext : ¬ terminator hashes <:+: text) (stop : LexError) (isByte : Bool) (input : List ℕ) :
    scanRawString stop edition hygiene isByte ((List.replicate hashes '#').map cp ++ cp '"' ::
      (text.map cp ++ ((terminator hashes).map cp ++ input))) =
      .ok ⟨if isByte then .byteString (utf8Bytes text) else .string (utf8Bytes text) hygiene, [], input⟩ := by
  rw [scanRawString, countHashes_replicate, Lex.bind_ok]
  dsimp only
  rw [if_neg (not_not.mpr rfl), Nat.zero_add, scanRaw_text htext, Lex.bind_ok, List.nil_append, utf8Bytes_eq]
  rfl

theorem scanToken_char {e : Elem} (h : (Literal.char e).WellSpelled) (stop : LexError) (input : List ℕ) :
    scanToken stop edition hygiene atStart ((Literal.char e).spell.map cp ++ input) =
      (if e.hasUnderscore = true then .error .parseError else .ok (.integer (BitVec.ofNat 128 e.value) .char)) >>=
        fun token => .ok ⟨token, [], input⟩ := by
  have hwidth : (BitVec.ofNat 32 e.value).setWidth 128 = BitVec.ofNat 128 e.value := by
    apply BitVec.eq_of_toNat_eq
    rw [BitVec.toNat_setWidth, BitVec.toNat_ofNat, BitVec.toNat_ofNat,
      Nat.mod_eq_of_lt (lt_trans h.1.value_lt (by decide))]
  have htext : (Literal.char e).spell.map cp ++ input = cp '\'' :: (e.spell.map cp ++ cp '\'' :: input) := by
    simp [Literal.spell]
  rw [htext, ← hwidth]
  by_cases hesc : e.isEscape = true
  · rcases parseEscape_elem stop h.1 hesc '\'' (cp '\'' :: input) with ⟨tail, htail, hparse⟩
    rw [htail, List.cons_append, scanToken_singleQuote]
    simp only [scanSingleQuote, getc, Lex.bind_ok, if_true, hparse]
    cases e.hasUnderscore <;> rfl
  · cases e with
    | plain c =>
      have hback : cp c ≠ cp '\\' := fun hc => h.1.1 (Char.toNat_inj.mp hc)
      have hquote : cp c ≠ cp '\'' := by
        intro hc
        have := h.2.2.2
        rw [Elem.isPlain, Char.toNat_inj.mp hc] at this
        exact absurd this (by decide)
      rw [Elem.spell, List.map_singleton, List.singleton_append, scanToken_singleQuote]
      simp only [scanSingleQuote, getc, Lex.bind_ok, if_neg hback, if_neg hquote, if_true]
      rfl
    | continuation blank => exact absurd h.2.2.1 (by simp [Elem.isContinuation])
    | simple | byte | unicode => exact absurd rfl hesc

theorem string_readsIn_iff {es : List Elem} (h : (Literal.string es).WellSpelled) (rest : List UInt8) :
    (Literal.string es).ReadsIn edition hygiene atStart rest ↔ BodyReadable es := by
  have hcr : '\r' ∉ (Literal.string es).spell := by simpa [Literal.spell] using h.1.cr_not_mem
  have hvalid : ∀ e ∈ es, e.value ≤ 0x1FFFFF := by
    intro e he
    rcases Elem.isValidChar (h.1.spelled e he).1 (h.2 e he) with hlt | hlt
    · exact le_of_lt (lt_trans hlt (by decide))
    · exact le_of_lt (lt_trans hlt.2 (by decide))
  have hbytes : ∀ e ∈ es, utf8 e.value ≠ [] := fun e he => utf8_ne_nil (Nat.lt_succ_of_le (hvalid e he))
  have hlimit : ∀ v ∈ values es, v ≤ 0x1FFFFF := by
    intro v hv
    rcases mem_values hv with ⟨e, he, rfl⟩
    exact hvalid e he
  have hreads := readsIn_iff hcr (bind_token_ne_eof (readElems_ne_eof 0x1FFFFF utf8 false es) (.string · hygiene))
    (scanToken_string edition hygiene atStart h.1 h.2) rest
  rw [hreads, ← bodyReadable_iff utf8 (fun c hc => hvalid _ hc) hlimit hbytes,
    flatMap_utf8_values fun e he => ⟨(h.1.spelled e he).1, h.2 e he⟩]
  cases readElems 0x1FFFFF utf8 false es with
  | ok bs => simp [Literal.token]
  | error e => simp [Literal.token]

theorem byteString_readsIn_iff {es : List Elem} (h : (Literal.byteString es).WellSpelled) (rest : List UInt8) :
    (Literal.byteString es).ReadsIn edition hygiene atStart rest ↔ (Literal.byteString es).Readable := by
  have hcr : '\r' ∉ (Literal.byteString es).spell := by simpa [Literal.spell] using h.1.cr_not_mem
  have hplain : ∀ c, Elem.plain c ∈ es → c.toNat ≤ 256 := by
    intro c hc
    have := h.2 _ hc
    simp only [Elem.isPlain, decide_eq_false_iff_not] at this
    omega
  have hreads := readsIn_iff hcr (bind_token_ne_eof (readElems_ne_eof 256 (fun v => [v.toUInt8]) false es) .byteString)
    (scanToken_bytes edition hygiene atStart h.1 h.2) rest
  rw [hreads, Literal.Readable, Literal.token]
  by_cases hbig : ∃ v ∈ values es, 255 < v
  · rw [if_pos hbig, if_pos hbig, ← exists_value_iff]
    by_cases hbad : ∃ e ∈ es, e.hasUnderscore = true ∨ 256 < e.value
    · rw [readElems_bad hplain hbad]
      exact iff_of_true rfl hbad
    · have hgood : ∀ e ∈ es, ¬(e.hasUnderscore = true ∨ 256 < e.value) := fun e he h => hbad ⟨e, he, h⟩
      rcases readElems_good (fun v => [v.toUInt8]) (by simp) hgood false with ⟨bs, hread, -⟩
      rw [hread]
      exact iff_of_false (by simp) hbad
  · have hlimit : ∀ v ∈ values es, v ≤ 256 := fun v hv => by
      by_contra hlt
      exact hbig ⟨v, hv, by omega⟩
    rw [if_neg hbig, if_neg hbig, ← bodyReadable_iff (fun v => [v.toUInt8]) hplain hlimit (by simp),
      ← List.map_eq_flatMap]
    cases readElems 256 (fun v => [v.toUInt8]) false es with
    | ok bs => simp
    | error e => simp

theorem rawString_readsIn {hashes : ℕ} {text : List Char} (h : (Literal.rawString hashes text).WellSpelled)
    (rest : List UInt8) : (Literal.rawString hashes text).ReadsIn edition hygiene atStart rest := by
  have hcr : '\r' ∉ (Literal.rawString hashes text).spell := by
    simpa [Literal.spell, terminator] using h.1
  apply (readsIn_iff hcr (x := .ok (.string (utf8Bytes text) hygiene)) (by simp) ?_ rest).mpr rfl
  intro stop input
  have hscan := scanRawString_text edition hygiene h.2 stop false input
  have htext : (Literal.rawString hashes text).spell.map cp ++ input = cp 'r' :: ((List.replicate hashes '#').map cp ++
      cp '"' :: (text.map cp ++ ((terminator hashes).map cp ++ input))) := by simp [Literal.spell]
  rw [htext, scanToken_sym (by decide)]
  exact hscan

theorem rawByteString_readsIn {hashes : ℕ} {text : List Char} (h : (Literal.rawByteString hashes text).WellSpelled)
    (rest : List UInt8) : (Literal.rawByteString hashes text).ReadsIn edition hygiene atStart rest := by
  have hcr : '\r' ∉ (Literal.rawByteString hashes text).spell := by
    simpa [Literal.spell, terminator] using h.1
  have hascii : text.map Char.toUInt8 = utf8Bytes text := by
    rw [utf8Bytes_eq]
    exact ascii_eq_encode h.2.2
  apply (readsIn_iff hcr (x := .ok (.byteString (utf8Bytes text))) (by simp) ?_ rest).mpr
    (by simp [Literal.token, hascii])
  intro stop input
  have hscan := scanRawString_text edition hygiene h.2.1 stop true input
  have htext : (Literal.rawByteString hashes text).spell.map cp ++ input = cp 'b' :: cp 'r' ::
      ((List.replicate hashes '#').map cp ++ cp '"' :: (text.map cp ++ ((terminator hashes).map cp ++ input))) := by
    simp [Literal.spell]
  rw [htext, scanToken_sym (by decide)]
  exact hscan

theorem char_readsIn_iff {e : Elem} (h : (Literal.char e).WellSpelled) (rest : List UInt8) :
    (Literal.char e).ReadsIn edition hygiene atStart rest ↔ e.hasUnderscore = false := by
  have hcr : '\r' ∉ (Literal.char e).spell := by simpa [Literal.spell] using h.1.cr_not_mem
  rw [readsIn_iff hcr (by split_ifs <;> simp) (scanToken_char h) rest, Literal.token]
  cases e.hasUnderscore <;> simp

/-- A literal reads as its token if and only if no `\u` escape has an underscore, no character that only the lexer
takes for white space follows a line continuation, and, in a byte string, no value above 255 is 256. -/
theorem Literal.readsIn_iff_readable {lit : Literal} (h : lit.WellSpelled) (edition : Edition) (hygiene : Hygiene)
    (atStart : Bool) (rest : List UInt8) : lit.ReadsIn edition hygiene atStart rest ↔ lit.Readable := by
  cases lit with
  | string es => exact string_readsIn_iff h rest
  | byteString es => exact byteString_readsIn_iff h rest
  | rawString hashes text => exact iff_of_true (rawString_readsIn h rest) trivial
  | rawByteString hashes text => exact iff_of_true (rawByteString_readsIn h rest) trivial
  | char e => exact char_readsIn_iff h rest

/-- A `\u` escape, a line continuation and the end of the literal in front of other text. -/
theorem readsIn_string : (Literal.string [.unicode ['e', '9'], .continuation [' '], .simple 'n', .plain 'a']).ReadsIn
    .rust2018 [] false [32] := by
  apply (Literal.readsIn_iff_readable ?_ _ _ _ _).mpr
  · exact ⟨by decide, by unfold Undropped; decide⟩
  · refine ⟨⟨?_, by decide⟩, ?_⟩
    · simp [Elem.WellSpelled, UnicodeDigits, simpleEscapes]
      decide
    · simp [Elem.IsChar]
      decide

/-- The value 256 is taken for the byte zero. -/
theorem byteString_256 : ¬ ∀ lit : Literal, lit.WellSpelled → ∀ (edition : Edition) (hygiene : Hygiene)
    (atStart : Bool) (rest : List UInt8), lit.ReadsIn edition hygiene atStart rest := by
  intro h
  have hspelled : (Literal.byteString [.unicode ['1', '0', '0']]).WellSpelled := by
    refine ⟨⟨?_, by decide⟩, by decide⟩
    simp [Elem.WellSpelled, UnicodeDigits]
    decide
  have hreads := (byteString_readsIn_iff hspelled []).mp (h _ hspelled .rust2018 [] false [])
  rw [Literal.Readable, if_pos ⟨256, by decide, by decide⟩] at hreads
  revert hreads
  decide

end Literals

end Mrustc.Parse
