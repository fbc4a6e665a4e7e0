import Mrustc.Parse.LexTables

/-! # The lexer

The input is the list of codepoints still to be read, so that `ungetc` gives back the list from
before the last `getc`. What `getc` does at the end of that list is a parameter: the exception
`EndOfFile`, or the error for an invalid byte.
-/

namespace Mrustc.Parse
open Codepoint

inductive LexError
  | endOfFile
  | badChar (ch : ℕ)
  | parseError
  | todo
  | runtimeError
  deriving DecidableEq, Repr

abbrev Lex := Except LexError

theorem Lex.bind_eq_ok {α β : Type} {x : Lex α} {f : α → Lex β} {b : β} :
    x >>= f = .ok b ↔ ∃ a, x = .ok a ∧ f a = .ok b := by
  cases x with
  | error e => simp [bind, Except.bind]
  | ok a => simp [bind, Except.bind]

@[simp] theorem Lex.bind_ok {α β : Type} (a : α) (f : α → Lex β) : Except.ok a >>= f = f a := rfl

@[simp] theorem Lex.bind_error {α β : Type} (e : LexError) (f : α → Lex β) :
    Except.error e >>= f = .error e := rfl

@[simp] theorem Lex.pure_eq {α : Type} (a : α) : (pure a : Lex α) = .ok a := rfl

@[simp] theorem Lex.throw_eq {α : Type} (e : LexError) : (throw e : Lex α) = .error e := rfl

/-- `str += ch`. -/
def append (str : List UInt8) (ch : ℕ) : Lex (List UInt8) :=
  match appendCp ch with
  | some bytes => .ok (str ++ bytes)
  | none => .error .runtimeError

section Lexer

variable (stop : LexError)

def getc : List ℕ → Lex (ℕ × List ℕ)
  | [] => .error stop
  | ch :: input => .ok (ch, input)

def getcNum : List ℕ → Lex (ℕ × List ℕ)
  | [] => .error stop
  | ch :: input => if ch = cp '_' then getcNum input else .ok (ch, input)

section Symbol

/-- Reads on while the characters of a symbol match; the end of the file matches nothing. -/
def matchChars : List Char → List ℕ → Lex (List Char × List ℕ)
  | [], input => .ok ([], input)
  | chars, [] => .ok (chars, [])
  | c :: chars, ch :: input =>
    if ch = c.toNat then
      if input = [] ∧ stop ≠ .endOfFile then .error stop else matchChars chars input
    else .ok (c :: chars, ch :: input)

/-- The search of `getSymbol`, with `ofs` characters matched so far. -/
def searchSymbol : List (List Char × SymType) → (ofs : ℕ) → Option SymType → List ℕ →
    Lex (Option SymType × List ℕ)
  | [], _, best, input => .ok (best, input)
  | (chars, type) :: entries, ofs, best, input =>
    if chars.length ≤ ofs ∨ input.headD 0 < (chars.getD ofs '\x00').toNat then .ok (best, input)
    else
      match matchChars stop (chars.drop ofs) input with
      | .error e => .error e
      | .ok (left, input) =>
        searchSymbol entries (chars.length - left.length) (if left = [] then some type else best)
          input

def getSymbol (input : List ℕ) : Lex (Option SymType × List ℕ) :=
  match getc stop input with
  | .error e => .error e
  | .ok _ => searchSymbol stop tokenmap 0 none input

end Symbol

section Number

inductive NumMode
  | bin | oct | dec | hex
  deriving DecidableEq, Repr

def xdigitValue (ch : ℕ) : ℕ :=
  if ch ≤ cp '9' then ch - cp '0' else if ch ≤ cp 'F' then ch - cp 'A' + 10 else ch - cp 'a' + 10

/-- Digits read by `getc_num`, in a base; a decimal digit above `maxDigit` is an error. -/
def parseDigits (isDigit : ℕ → Bool) (base maxDigit : ℕ) : BitVec 128 → List ℕ →
    Lex (BitVec 128 × List ℕ)
  | _, [] => .error stop
  | val, ch :: input =>
    if ch = cp '_' then parseDigits isDigit base maxDigit val input
    else if isDigit ch then
      if maxDigit < xdigitValue ch then .error .parseError
      else parseDigits isDigit base maxDigit
        (val * BitVec.ofNat 128 base + BitVec.ofNat 128 (xdigitValue ch)) input
    else .ok (val, ch :: input)

def parseInt (input : List ℕ) : Lex (BitVec 128 × NumMode × List ℕ) := do
  let (ch, rest) ← getc stop input
  if ch = cp '0' then
    let (ch, rest') ← getcNum stop rest
    if ch = cp 'x' then
      let (val, rest) ← parseDigits stop isxdigit 16 15 0 rest'
      return (val, .hex, rest)
    else if ch = cp 'b' then
      let (val, rest) ← parseDigits stop isdigit 2 1 0 rest'
      return (val, .bin, rest)
    else if ch = cp 'o' then
      let (val, rest) ← parseDigits stop isdigit 8 7 0 rest'
      return (val, .oct, rest)
    else
      let (val, rest) ← parseDigits stop isdigit 10 9 0 rest
      return (val, .dec, rest)
  else if isdigit ch then
    let (val, rest) ← parseDigits stop isdigit 10 9 (BitVec.ofNat 128 (xdigitValue ch)) rest
    return (val, .dec, rest)
  else return (0, .dec, input)

/-- The digits that `getc_num` reads, as a text, and the character behind them. -/
def floatDigits : List ℕ → Lex (List UInt8 × ℕ × List ℕ)
  | [] => .error stop
  | ch :: input =>
    if ch = cp '_' then floatDigits input
    else if isdigit ch then do
      let (text, ch', rest) ← floatDigits input
      return (ch.toUInt8 :: text, ch', rest)
    else .ok ([], ch, input)

/-- `strtoull` of a decimal text. -/
def strtoull (text : List UInt8) : BitVec 128 :=
  BitVec.ofNat 128 (min (text.foldl (fun n b => n * 10 + (b.toNat - cp '0')) 0) (2 ^ 64 - 1))

/-- A float, or the tokens that its characters turn out to be. -/
inductive FloatOrTokens
  | float (text : List UInt8)
  | tokens (token : Token) (next : List Token)

/-- The optional sign of an exponent, and the character behind it. -/
def exponentSign (input : List ℕ) : Lex (List UInt8 × ℕ × List ℕ) := do
  let (ch, rest) ← getcNum stop input
  if ch = cp '-' ∨ ch = cp '+' then
    let (first, rest) ← getcNum stop rest
    return ([ch.toUInt8], first, rest)
  else return ([], ch, rest)

/-- `parseFloat`, after the decimal point or in front of the exponent. -/
def parseFloat (whole : BitVec 128) (input : List ℕ) : Lex (FloatOrTokens × List ℕ) := do
  let buf := ascii (Nat.toDigits 10 whole.toNat)
  let (frac, ch, rest) ← floatDigits stop input
  if ch = cp '.' then
    let (ch, rest') ← getc stop rest
    if ch = cp '.' then
      let float := Token.float (buf ++ ascii ['.'] ++ frac) .any
      let (ch, rest'') ← getc stop rest'
      if ch = cp '.' then return (.tokens float [.op .tripleDot], rest'')
      else if ch = cp '=' then return (.tokens float [.op .doubleDotEqual], rest'')
      else return (.tokens float [.op .doubleDot], rest')
    else
      return (.tokens (.integer (strtoull buf) .any)
        [.op .dot, .integer (strtoull frac) .any, .op .dot], rest)
  else if ch = cp 'e' ∨ ch = cp 'E' then
    let (sign, first, rest) ← exponentSign stop rest
    if isdigit first then
      let (exponent, ch', rest) ← floatDigits stop rest
      return (.float (buf ++ ascii ['.'] ++ frac ++ ch.toUInt8 :: sign ++
        first.toUInt8 :: exponent), ch' :: rest)
    else throw .parseError
  else return (.float (buf ++ ascii ['.'] ++ frac), ch :: rest)

end Number

section Text

/-- Characters up to the first that is not a symbol character, appended to `str`. -/
def takeSyms (str : List UInt8) : List ℕ → Lex (List UInt8 × List ℕ)
  | [] => .error stop
  | ch :: input =>
    if issym ch then
      match append str ch with
      | .error e => .error e
      | .ok str => takeSyms str input
    else .ok (str, ch :: input)

def integerSuffix (suffix : List UInt8) : Option CoreType :=
  [CoreType.i8, .i16, .i32, .i64, .i128, .int, .u8, .u16, .u32, .u64, .u128, .uint, .f32, .f64].find?
    fun type => suffix = ascii (coretypeName type).toList

def floatSuffix (suffix : List UInt8) : Option CoreType :=
  [CoreType.f32, .f64].find? fun type => suffix = ascii (coretypeName type).toList

def hexEscape (val : BitVec 32) : List ℕ → Lex (BitVec 32 × ℕ × List ℕ)
  | [] => .error stop
  | ch :: input =>
    if isxdigit ch then hexEscape (val * 16 + BitVec.ofNat 32 (xdigitValue ch)) input
    else .ok (val, ch, input)

/-- The two digits of a `\x` escape. -/
def byteEscape (input : List ℕ) : Lex (BitVec 32 × List ℕ) := do
  let (ch₁, input) ← getc stop input
  if isxdigit ch₁ then
    let (ch₂, input) ← getc stop input
    if isxdigit ch₂ then
      return (BitVec.ofNat 32 (xdigitValue ch₁ * 16 + xdigitValue ch₂), input)
    else throw .parseError
  else throw .parseError

/-- The digits of a `\u` escape, and the braces around them. -/
def unicodeEscape (input : List ℕ) : Lex (BitVec 32 × List ℕ) := do
  let (ch, input') ← getc stop input
  if ch = cp '\x7b' then
    let (ch₁, _) ← getc stop input'
    if isxdigit ch₁ then
      let (val, ch₂, input) ← hexEscape stop 0 input'
      if ch₂ = cp '\x7d' then return (val, input) else throw .parseError
    else throw .parseError
  else if isxdigit ch then
    let (val, ch₂, input) ← hexEscape stop 0 input
    return (val, ch₂ :: input)
  else throw .parseError

/-- `parseEscape`. While `skipping`, the white space behind an escaped newline is read; all ones
stand for an escape that adds nothing. -/
def parseEscape (enclosing : Char) : (skipping : Bool) → List ℕ → Lex (BitVec 32 × List ℕ)
  | _, [] => .error stop
  | true, ch :: input =>
    if isspace ch then parseEscape enclosing true input
    else if ch = cp '\\' then parseEscape enclosing false input
    else if ch = cp enclosing then .ok (BitVec.allOnes 32, ch :: input)
    else .ok (BitVec.ofNat 32 ch, input)
  | false, ch :: input =>
    if ch = cp 'x' then byteEscape stop input
    else if ch = cp 'u' then unicodeEscape stop input
    else if ch = cp '0' then .ok (0, input)
    else if ch = cp '\\' ∨ ch = cp '\'' ∨ ch = cp '"' then .ok (BitVec.ofNat 32 ch, input)
    else if ch = cp 'r' then .ok (BitVec.ofNat 32 (cp '\r'), input)
    else if ch = cp 'n' then .ok (BitVec.ofNat 32 (cp '\n'), input)
    else if ch = cp 't' then .ok (BitVec.ofNat 32 (cp '\t'), input)
    else if ch = cp '\r' ∨ ch = cp '\n' then parseEscape enclosing true input
    else .error .todo

theorem getc_eq_ok {input rest : List ℕ} {ch : ℕ} :
    getc stop input = .ok (ch, rest) ↔ input = ch :: rest := by
  cases input with
  | nil => simp [getc]
  | cons c cs => simp [getc]

/-- The value of some hexadecimal digits, in front of which `val` was read. -/
def xdigitsValue (val : BitVec 32) (digits : List ℕ) : BitVec 32 :=
  digits.foldl (fun val ch => val * 16 + BitVec.ofNat 32 (xdigitValue ch)) val

theorem hexEscape_eq_ok {val v : BitVec 32} {ch : ℕ} {input rest : List ℕ} :
    hexEscape stop val input = .ok (v, ch, rest) ↔ ∃ digits, input = digits ++ ch :: rest ∧
      (∀ d ∈ digits, isxdigit d = true) ∧ isxdigit ch = false ∧ v = xdigitsValue val digits := by
  induction input generalizing val with
  | nil => simp [hexEscape]
  | cons c cs ih =>
    rw [hexEscape]
    split
    · rename_i hc
      rw [ih]
      constructor
      · rintro ⟨digits, rfl, hd, hch, rfl⟩
        exact ⟨c :: digits, rfl, List.forall_mem_cons.mpr ⟨hc, hd⟩, hch, rfl⟩
      · rintro ⟨digits, he, hd, hch, rfl⟩
        cases digits with
        | nil =>
          cases he
          rw [hc] at hch
          contradiction
        | cons d digits =>
          cases he
          exact ⟨digits, rfl, (List.forall_mem_cons.mp hd).2, hch, rfl⟩
    · rename_i hc
      constructor
      · intro h
        cases h
        exact ⟨[], rfl, by simp, by simpa using hc, rfl⟩
      · rintro ⟨digits, he, hd, hch, rfl⟩
        cases digits with
        | nil =>
          cases he
          rfl
        | cons d digits =>
          cases he
          exact absurd (List.forall_mem_cons.mp hd).1 hc

theorem byteEscape_eq_ok {v : BitVec 32} {input rest : List ℕ} :
    byteEscape stop input = .ok (v, rest) ↔ ∃ ch₁ ch₂, input = ch₁ :: ch₂ :: rest ∧
      isxdigit ch₁ = true ∧ isxdigit ch₂ = true ∧
      v = BitVec.ofNat 32 (xdigitValue ch₁ * 16 + xdigitValue ch₂) := by
  constructor
  · intro h
    rw [byteEscape, Lex.bind_eq_ok] at h
    obtain ⟨⟨ch₁, input₁⟩, h₁, h⟩ := h
    obtain rfl := (getc_eq_ok stop).mp h₁
    dsimp only at h
    split_ifs at h with hx₁
    rw [Lex.bind_eq_ok] at h
    obtain ⟨⟨ch₂, input₂⟩, h₂, h⟩ := h
    obtain rfl := (getc_eq_ok stop).mp h₂
    dsimp only at h
    split_ifs at h with hx₂
    cases h
    exact ⟨ch₁, ch₂, rfl, hx₁, hx₂, rfl⟩
  · rintro ⟨ch₁, ch₂, rfl, h₁, h₂, rfl⟩
    simp [byteEscape, getc, h₁, h₂]

theorem unicodeEscape_eq_ok {v : BitVec 32} {input rest : List ℕ}
    (h : unicodeEscape stop input = .ok (v, rest)) : ∃ digits, digits ≠ [] ∧
      (∀ d ∈ digits, isxdigit d = true) ∧ v = xdigitsValue 0 digits ∧
      (input = cp '\x7b' :: digits ++ cp '\x7d' :: rest ∨ input = digits ++ rest) := by
  obtain ⟨⟨ch, input'⟩, h₁, h⟩ := Lex.bind_eq_ok.mp h
  obtain rfl := (getc_eq_ok stop).mp h₁
  dsimp only at h
  split_ifs at h with hb hx
  · obtain ⟨⟨ch₁, input₁⟩, h₁, h⟩ := Lex.bind_eq_ok.mp h
    obtain rfl := (getc_eq_ok stop).mp h₁
    dsimp only at h
    split_ifs at h with hx
    obtain ⟨⟨val, ch₂, input⟩, h₂, h⟩ := Lex.bind_eq_ok.mp h
    obtain ⟨digits, he, hd, -, rfl⟩ := (hexEscape_eq_ok stop).mp h₂
    dsimp only at h
    split_ifs at h with hc
    cases h
    refine ⟨digits, ?_, hd, rfl, Or.inl ?_⟩
    · rintro rfl
      cases he
      rw [hc] at hx
      exact absurd hx (by decide)
    · rw [hb, he, hc]
      rfl
  · obtain ⟨⟨val, ch₂, input⟩, h₂, h⟩ := Lex.bind_eq_ok.mp h
    obtain ⟨digits, he, hd, hc, rfl⟩ := (hexEscape_eq_ok stop).mp h₂
    cases h
    refine ⟨digits, ?_, hd, rfl, Or.inr he⟩
    rintro rfl
    cases he
    rw [hx] at hc
    contradiction

theorem unicodeEscape_braces {digits : List ℕ} (hne : digits ≠ [])
    (hd : ∀ d ∈ digits, isxdigit d = true) (rest : List ℕ) :
    unicodeEscape stop (cp '\x7b' :: digits ++ cp '\x7d' :: rest) =
      .ok (xdigitsValue 0 digits, rest) := by
  have h : hexEscape stop 0 (digits ++ cp '\x7d' :: rest) =
      .ok (xdigitsValue 0 digits, cp '\x7d', rest) :=
    (hexEscape_eq_ok stop).mpr ⟨digits, rfl, hd, by decide, rfl⟩
  obtain ⟨d, ds, rfl⟩ := List.exists_cons_of_ne_nil hne
  rw [List.cons_append] at h
  simp only [unicodeEscape, getc, List.cons_append, Lex.bind_ok, if_true,
    (List.forall_mem_cons.mp hd).1, h, Lex.pure_eq]

theorem parseEscape_suffix {enclosing : Char} {skipping : Bool} {v : BitVec 32}
    {input rest : List ℕ} (h : parseEscape stop enclosing skipping input = .ok (v, rest)) :
    rest <:+ input := by
  induction input generalizing skipping with
  | nil => cases skipping <;> cases h
  | cons ch input ih =>
    have hs := List.suffix_cons ch input
    cases skipping with
    | true =>
      rw [parseEscape] at h
      split_ifs at h
      · exact (ih h).trans hs
      · exact (ih h).trans hs
      · cases h
        exact List.suffix_rfl
      · cases h
        exact hs
    | false =>
      rw [parseEscape] at h
      split_ifs at h with hx hu
      · obtain ⟨ch₁, ch₂, rfl, -⟩ := (byteEscape_eq_ok stop).mp h
        exact ⟨[ch, ch₁, ch₂], rfl⟩
      · obtain ⟨digits, -, -, -, rfl | rfl⟩ := unicodeEscape_eq_ok stop h
        · exact ⟨ch :: cp '\x7b' :: digits ++ [cp '\x7d'], by simp⟩
        · exact ⟨ch :: digits, rfl⟩
      all_goals first
        | exact (ih h).trans hs
        | (cases h; exact hs)

/-- The body of a string literal, up to the quote that ends it. -/
def scanString (addEscape : List UInt8 → BitVec 32 → Lex (List UInt8)) :
    List UInt8 → List ℕ → Lex (List UInt8 × List ℕ)
  | _, [] => .error stop
  | str, ch :: input =>
    if ch = cp '"' then .ok (str, input)
    else if ch = cp '\\' then
      match h : parseEscape stop '"' false input with
      | .error e => .error e
      | .ok (v, rest) =>
        have : rest.length ≤ input.length := (parseEscape_suffix stop h).length_le
        if v = BitVec.allOnes 32 then scanString addEscape str rest
        else
          match addEscape str v with
          | .error e => .error e
          | .ok str => scanString addEscape str rest
    else
      match append str ch with
      | .error e => .error e
      | .ok str => scanString addEscape str input
  termination_by _ input => input.length

/-- An escape in a byte string is one byte. -/
def addByte (str : List UInt8) (v : BitVec 32) : Lex (List UInt8) :=
  if 256 < v.toNat then .error .parseError else .ok (str ++ [v.toNat.toUInt8])

def addCodepoint (str : List UInt8) (v : BitVec 32) : Lex (List UInt8) := append str v.toNat

def countHashes : (hashes : ℕ) → List ℕ → Lex (ℕ × ℕ × List ℕ)
  | _, [] => .error stop
  | hashes, ch :: input =>
    if ch = cp '#' then countHashes (hashes + 1) input else .ok (hashes, ch, input)

/-- The body of a raw string, with `terminating` hashes missing behind a quote. -/
def scanRaw (hashes : ℕ) : List UInt8 → (terminating : ℕ) → List ℕ → Lex (List UInt8 × List ℕ)
  | _, _, [] => .error (if stop = .endOfFile then .parseError else stop)
  | val, 0, ch :: input =>
    if ch = cp '"' then if hashes = 0 then .ok (val, input) else scanRaw hashes val hashes input
    else
      match append val ch with
      | .error e => .error e
      | .ok val => scanRaw hashes val 0 input
  | val, terminating + 1, ch :: input =>
    if ch = cp '#' then
      if terminating = 0 then .ok (val, input) else scanRaw hashes val terminating input
    else
      scanRaw hashes
        (val ++ ascii (['"'] ++ List.replicate (hashes - (terminating + 1)) '#')) 0 (ch :: input)
  termination_by _ terminating input => (input.length, terminating)

def scanLineComment : List UInt8 → List ℕ → Lex (List UInt8 × List ℕ)
  | _, [] => .error stop
  | str, ch :: input =>
    if ch = cp '\n' ∨ ch = cp '\r' then .ok (str, ch :: input)
    else
      match append str ch with
      | .error e => .error e
      | .ok str => scanLineComment str input

/-- The body of a block comment, with `level` comments open inside it. -/
def scanBlockComment : List UInt8 → (level : ℕ) → List ℕ → Lex (List UInt8 × List ℕ)
  | _, _, [] => .error stop
  | str, level, ch :: input =>
    if ch = cp '/' then
      match input with
      | [] => .error stop
      | ch' :: input =>
        match append (str ++ ascii ['/']) ch' with
        | .error e => .error e
        | .ok str => scanBlockComment str (if ch' = cp '*' then level + 1 else level) input
    else if ch = cp '*' then
      match input with
      | [] => .error stop
      | ch' :: input =>
        if ch' = cp '/' then
          if level = 0 then .ok (str, input)
          else scanBlockComment (str ++ ascii ['*', '/']) (level - 1) input
        else
          match append (str ++ ascii ['*']) ch' with
          | .error e => .error e
          | .ok str => scanBlockComment str level input
    else
      match append str ch with
      | .error e => .error e
      | .ok str => scanBlockComment str level input

end Text

/-- A token, the tokens queued behind it, and what is left of the input. -/
structure Scanned where
  token : Token
  next : List Token
  input : List ℕ

section Scan

variable (edition : Edition) (hygiene : Hygiene)

/-- `getTokenInt_Identifier`, behind `str`, on an input that starts with the leading character. -/
def scanIdentifier (str : List UInt8) (parseReservedWord : Bool) (input : List ℕ) :
    Lex Scanned := do
  let (str, rest) ← takeSyms stop str input
  if parseReservedWord then
    match lexFindReservedWord str edition with
    | some type => return ⟨.op type, [], rest⟩
    | none => return ⟨.ident str, [], rest⟩
  else return ⟨.ident str, [], rest⟩

/-- `getTokenInt_RawString`, behind the `r`. -/
def scanRawString (isByte : Bool) (input : List ℕ) : Lex Scanned := do
  let (hashes, ch, rest) ← countHashes stop 0 input
  if ch ≠ cp '"' then
    if hashes = 0 then
      scanIdentifier stop edition (if isByte then ascii ['b'] else []) true
        (cp 'r' :: ch :: rest)
    else if hashes = 1 then scanIdentifier stop edition [] false (ch :: rest)
    else throw .parseError
  else
    let (val, rest) ← scanRaw stop hashes [] 0 rest
    return ⟨if isByte then .byteString val else .string val hygiene, [], rest⟩

/-- A number with a decimal point or an exponent; the input starts with `ch`. -/
def scanFloat (val : BitVec 128) (mode : NumMode) (ch : ℕ) (input : List ℕ) : Lex Scanned := do
  if ch = cp '.' then
    let (ch₁, rest₁) ← getc stop input
    if ch₁ = cp '.' then
      let (ch₂, rest₂) ← getc stop rest₁
      if ch₂ = cp '.' then return ⟨.integer val .any, [.op .tripleDot], rest₂⟩
      else if ch₂ = cp '=' then return ⟨.integer val .any, [.op .doubleDotEqual], rest₂⟩
      else return ⟨.integer val .any, [.op .doubleDot], rest₁⟩
    else if !isdigit ch₁ then
      if issym ch₁ then return ⟨.integer val .any, [.op .dot], input⟩
      else return ⟨.float (ascii (Nat.toDigits 10 val.toNat)) .any, [], input⟩
    else digits input
  else digits (ch :: input)
where
  digits (input : List ℕ) : Lex Scanned := do
    if mode = .dec then
      let (out, rest) ← parseFloat stop val input
      match out with
      | .tokens token next => return ⟨token, next, rest⟩
      | .float text =>
        let (suffix, rest') ← takeSyms stop [] rest
        if suffix = [] then return ⟨.float text .any, [], rest⟩
        else
          match floatSuffix suffix with
          | some type => return ⟨.float text type, [], rest'⟩
          | none => throw .parseError
    else throw .todo

def scanNumber (input : List ℕ) : Lex Scanned := do
  let (val, mode, rest) ← parseInt stop input
  let (ch, rest') ← getc stop rest
  if ch = cp 'e' ∨ ch = cp 'E' ∨ ch = cp '.' then scanFloat stop val mode ch rest'
  else if issym ch then
    let (suffix, rest) ← takeSyms stop [] rest
    match integerSuffix suffix with
    | some type => return ⟨.integer val type, [], rest⟩
    | none => throw .parseError
  else return ⟨.integer val .any, [], rest⟩

/-- A byte string, a byte or a word that starts with `b`. -/
def scanByte (input : List ℕ) : Lex Scanned := do
  let (ch, rest) ← getc stop input
  if ch = cp 'r' then scanRawString stop edition hygiene true rest
  else if ch = cp '"' then
    let (str, rest) ← scanString stop addByte [] rest
    return ⟨.byteString str, [], rest⟩
  else if ch = cp '\'' then
    let (val, rest) ← byteValue rest
    let (ch, rest) ← getc stop rest
    if ch = cp '\'' then return ⟨.integer (val.setWidth 128) .u8, [], rest⟩
    else throw .parseError
  else scanIdentifier stop edition [] true (cp 'b' :: input)
where
  byteValue (input : List ℕ) : Lex (BitVec 32 × List ℕ) := do
    let (ch, rest) ← getc stop input
    if ch = cp '\\' then parseEscape stop '\'' false rest else return (BitVec.ofNat 32 ch, rest)

/-- A token that starts with no symbol. -/
def scanWord (input : List ℕ) : Lex Scanned := do
  let (ch, rest) ← getc stop input
  if isdigit ch then scanNumber stop input
  else if ch = cp 'b' then scanByte stop edition hygiene rest
  else if ch = cp 'r' then scanRawString stop edition hygiene false rest
  else if issym ch then scanIdentifier stop edition [] true input
  else throw (.badChar ch)

/-- A character literal or a lifetime, behind the quote. -/
def scanSingleQuote (input : List ℕ) : Lex Scanned := do
  let (first, rest) ← getc stop input
  if first = cp '\\' then
    let (val, rest) ← parseEscape stop '\'' false rest
    let (ch, rest) ← getc stop rest
    if ch = cp '\'' then return ⟨.integer (val.setWidth 128) .char, [], rest⟩ else throw .todo
  else if first = cp '\'' then throw .todo
  else
    let (ch, rest') ← getc stop rest
    if ch = cp '\'' then
      return ⟨.integer ((BitVec.ofNat 32 first).setWidth 128) .char, [], rest'⟩
    else if issym first then
      let str ← append [] first
      let (str, rest) ← takeSyms stop str rest
      return ⟨.lifetime str, [], rest⟩
    else throw .todo

/-- `#[doc = "…"]`, or with an exclamation mark for the enclosing item. -/
def docTokens (str : List UInt8) (isPdoc : Bool) (input : List ℕ) : Scanned :=
  ⟨.op .hash, (if isPdoc then [.op .exclam] else []) ++ [.op .squareOpen,
    .ident (ascii ['d', 'o', 'c']), .op .equal, .string str hygiene, .op .squareClose], input⟩

def scanLine (input : List ℕ) : Lex Scanned := do
  let (ch, rest) ← getc stop input
  if ch = cp '/' then
    let (ch, _) ← getc stop rest
    if ch = cp '/' then
      let (str, rest) ← scanLineComment stop (ascii ['/']) rest
      return ⟨.comment str, [], rest⟩
    else
      let (str, rest) ← scanLineComment stop [] rest
      return docTokens hygiene str false rest
  else if ch = cp '!' then
    let (str, rest) ← scanLineComment stop [] rest
    return docTokens hygiene str true rest
  else
    let (str, rest) ← scanLineComment stop [] input
    return ⟨.comment str, [], rest⟩

def scanBlock (input : List ℕ) : Lex Scanned := do
  let (ch, rest) ← getc stop input
  if ch = cp '*' then
    let (ch, rest') ← getc stop rest
    if ch = cp '*' then
      let (str, rest) ← scanBlockComment stop (ascii ['*']) 0 rest
      return ⟨.comment str, [], rest⟩
    else if ch = cp '/' then return ⟨.comment [], [], rest'⟩
    else
      let (str, rest) ← scanBlockComment stop [] 0 rest
      return docTokens hygiene str false rest
  else if ch = cp '!' then
    let (str, rest) ← scanBlockComment stop [] 0 rest
    return docTokens hygiene str true rest
  else
    let (str, rest) ← scanBlockComment stop [] 0 input
    return ⟨.comment str, [], rest⟩

def skipSpace : List ℕ → Lex (List ℕ)
  | [] => .error stop
  | ch :: input => if isspace ch && ch != cp '\n' then skipSpace input else .ok (ch :: input)

/-- A `#` as the first character: a shebang line, or an attribute. -/
def scanShebang (input : List ℕ) : Lex Scanned := do
  let (ch, rest) ← getc stop input
  if ch = cp '!' then
    let (ch, rest') ← getc stop rest
    if ch = cp '/' then return ⟨.newline, [], ← skipLine rest'⟩
    else if ch = cp '[' then return ⟨.op .hash, [.op .exclam], rest⟩
    else throw (.badChar ch)
  else if ch = cp '[' then return ⟨.op .hash, [], input⟩
  else throw (.badChar ch)
where
  skipLine : List ℕ → Lex (List ℕ)
    | [] => .error stop
    | ch :: input => if ch = cp '\n' then .ok input else skipLine input

/-- The part of `getTokenInt` that reads the input. The line is 1 and the offset in it is 1
for the first character only. -/
def scanToken (atStart : Bool) (input : List ℕ) : Lex Scanned := do
  let (ch, rest) ← getc stop input
  if atStart && ch == cp '#' then scanShebang stop rest
  else if ch = cp '\n' then return ⟨.newline, [], rest⟩
  else if isspace ch then return ⟨.whitespace, [], ← skipSpace stop rest⟩
  else
    let (sym, rest) ← getSymbol stop input
    match sym with
    | none => scanWord stop edition hygiene rest
    | some (.tok type) =>
      if type = .dot then
        let (ch, _) ← getc stop rest
        if isdigit ch then
          let (val, _, rest) ← parseInt stop rest
          return ⟨.op .dot, [.integer val .any], rest⟩
        else return ⟨.op .dot, [], rest⟩
      else return ⟨.op type, [], rest⟩
    | some .lineComment => scanLine stop hygiene rest
    | some .blockComment => scanBlock stop hygiene rest
    | some .singleQuote => scanSingleQuote stop rest
    | some .doubleQuote =>
      let (str, rest) ← scanString stop addCodepoint [] rest
      return ⟨.string str hygiene, [], rest⟩

end Scan

end Lexer

structure Lexer where
  edition : Edition
  hygiene : Hygiene
  stop : LexError
  atStart : Bool
  nextTokens : List Token
  input : List ℕ

/-- The lexer at the start of a source text. -/
def Lexer.ofSource (edition : Edition) (hygiene : Hygiene) (source : List UInt8) : Lexer :=
  let (input, invalid) := getcCp (getcByte source)
  ⟨edition, hygiene, if invalid then .parseError else .endOfFile, true, [], input⟩

def Lexer.getTokenInt (lex : Lexer) : Lex (Token × Lexer) :=
  match lex.nextTokens with
  | token :: next => .ok (token, { lex with nextTokens := next })
  | [] =>
    match scanToken lex.stop lex.edition lex.hygiene lex.atStart lex.input with
    | .ok out =>
      .ok (out.token, { lex with atStart := false, nextTokens := out.next, input := out.input })
    | .error .endOfFile => .ok (.eof, { lex with atStart := false, input := [] })
    | .error e => .error e

/-- The tokens that `realGetToken` drops. -/
def Token.isSkipped : Token → Bool
  | .newline | .whitespace | .comment _ => true
  | _ => false

/-- The tokens that `realGetToken` returns until the end of the file. -/
inductive Lexes : Lexer → List Token → Prop
  | eof {lex lex'} (h : lex.getTokenInt = .ok (.eof, lex')) : Lexes lex []
  | skip {lex lex' t ts} (h : lex.getTokenInt = .ok (t, lex')) (ht : t.isSkipped = true)
      (hts : Lexes lex' ts) : Lexes lex ts
  | token {lex lex' t ts} (h : lex.getTokenInt = .ok (t, lex')) (ht : t.isSkipped = false)
      (heof : t ≠ .eof) (hts : Lexes lex' ts) : Lexes lex (t :: ts)

end Mrustc.Parse
