import Mrustc.Parse.NumberRuns
import Mrustc.Parse.LookaheadTokens

/-! # Tokens that the end of the input cuts off

A rule that reads one character too far loses its token where there is none. The text that it loses is described by its
characters; a string or a character literal that is still open is not counted as one.
-/

namespace Mrustc.Parse
open Codepoint

/-- The characters of a line comment. -/
def LineChars (r : List ℕ) : Prop := ∀ c ∈ r, c ≠ cp '\n' ∧ c ≠ cp '\r' ∧ c < 0x200000

/-- A doc comment, behind its two slashes. -/
def DocComment (r : List ℕ) : Prop :=
  (∃ body, r = cp '/' :: body ∧ body.head? ≠ some (cp '/') ∧ LineChars body) ∨ ∃ body, r = cp '!' :: body ∧ LineChars body

/-- The prefixes of a raw string. -/
def RawPrefix (pre : List ℕ) : Prop := pre = [cp 'r'] ∨ pre = [cp 'b', cp 'r']

/-- Remaining input that is a token to its last character, and is lost there. -/
inductive Cut (atStart : Bool) : List ℕ → Prop
  | hash (h : atStart = true) : Cut atStart [cp '#']
  | shebang (h : atStart = true) : Cut atStart [cp '#', cp '!']
  | word {c : ℕ} {r : List ℕ} (hc : isdigit c = false) (h : ∀ d ∈ c :: r, IsSym d) : Cut atStart (c :: r)
  | rawWord {pre r : List ℕ} (hpre : RawPrefix pre) (h : ∀ d ∈ r, IsSym d) : Cut atStart (pre ++ cp '#' :: r)
  | rawHashes {pre r : List ℕ} (hpre : RawPrefix pre) (h : ∀ d ∈ r, d = cp '#') : Cut atStart (pre ++ r)
  | lifetime {c : ℕ} {r : List ℕ} (h : ∀ d ∈ c :: r, IsSym d) : Cut atStart (cp '\'' :: c :: r)
  | docComment {r : List ℕ} (h : DocComment r) : Cut atStart (cp '/' :: cp '/' :: r)
  | dot : Cut atStart [cp '.']
  | index {r : List ℕ} (h : NumberRuns NumState.IsInteger r) : Cut atStart (cp '.' :: r)
  | number {r : List ℕ} (h : NumberRuns (fun _ => True) r) : Cut atStart r

/-- Text behind a quote that the next such quote does not close, a backslash taking the character behind it along. -/
def OpenQuoted (quote : ℕ) : (escaped : Bool) → List ℕ → Prop
  | _, [] => True
  | true, _ :: r => OpenQuoted quote false r
  | false, c :: r => if c = cp '\\' then OpenQuoted quote true r else c ≠ quote ∧ OpenQuoted quote false r

/-- The end of the input is inside a string or a character literal that begins here. -/
inductive OpenLiteral : List ℕ → Prop
  | string {r : List ℕ} (h : OpenQuoted (cp '"') false r) : OpenLiteral (cp '"' :: r)
  | byteString {r : List ℕ} (h : OpenQuoted (cp '"') false r) : OpenLiteral (cp 'b' :: cp '"' :: r)
  | quote : OpenLiteral [cp '\'']
  | char {c : ℕ} (h : ¬ IsSym c) : OpenLiteral [cp '\'', c]
  | escape {r : List ℕ} (h : OpenQuoted (cp '\'') true r) : OpenLiteral (cp '\'' :: cp '\\' :: r)
  | byteQuote : OpenLiteral [cp 'b', cp '\'']
  | byte {c : ℕ} : OpenLiteral [cp 'b', cp '\'', c]
  | byteEscape {r : List ℕ} (h : OpenQuoted (cp '\'') true r) : OpenLiteral (cp 'b' :: cp '\'' :: cp '\\' :: r)

section Escapes

variable {quote : Char}

/-- Characters that neither close nor escape. -/
theorem openQuoted_cons {c : ℕ} {r : List ℕ} (hc : c ≠ cp '\\' ∧ c ≠ cp quote) :
    OpenQuoted (cp quote) false (c :: r) ↔ OpenQuoted (cp quote) false r := by
  rw [OpenQuoted, if_neg hc.1, and_iff_right hc.2]

theorem openQuoted_append {cs r : List ℕ} (hcs : ∀ c ∈ cs, c ≠ cp '\\' ∧ c ≠ cp quote)
    (h : OpenQuoted (cp quote) false r) : OpenQuoted (cp quote) false (cs ++ r) := by
  induction cs with
  | nil => exact h
  | cons c cs ih =>
    rw [List.forall_mem_cons] at hcs
    rw [List.cons_append, openQuoted_cons hcs.1]
    exact ih hcs.2

theorem xdigit_plain (hquote : quote = '"' ∨ quote = '\'') {c : ℕ} (hc : isxdigit c = true) :
    c ≠ cp '\\' ∧ c ≠ cp quote := by
  constructor
  · rintro rfl
    exact absurd hc (by decide)
  · rintro rfl
    rcases hquote with rfl | rfl <;> exact absurd hc (by decide)

theorem space_plain (hquote : quote = '"' ∨ quote = '\'') {c : ℕ} (hc : isspace c = true) :
    c ≠ cp '\\' ∧ c ≠ cp quote := by
  constructor
  · rintro rfl
    exact absurd hc (by decide)
  · rintro rfl
    rcases hquote with rfl | rfl <;> exact absurd hc (by decide)

/-- An escape that runs into the end, or behind which the text in the quotes stays open. -/
def OpensBehind (quote : Char) (x : Lex (BitVec 32 × List ℕ)) : Prop :=
  Hits x ∨ ∃ v rest, x = .ok (v, rest) ∧ OpenQuoted (cp quote) false rest

theorem opensBehind_ok {v : BitVec 32} {rest : List ℕ} (h : OpensBehind quote (.ok (v, rest))) :
    OpenQuoted (cp quote) false rest := by
  rcases h with h | ⟨v', rest', heq, h⟩
  · exact absurd h (hits_ok _).mp
  · cases heq
    exact h

theorem opensBehind_error {e : LexError} (he : e ≠ .endOfFile) : ¬ OpensBehind quote (.error e) := by
  rintro (h | ⟨v, rest, heq, -⟩)
  · exact he (hits_error.mp h)
  · cases heq

theorem byteEscape_open (hquote : quote = '"' ∨ quote = '\'') {r : List ℕ}
    (h : OpensBehind quote (byteEscape .endOfFile r)) : OpenQuoted (cp quote) false r := by
  rcases r with _ | ⟨c, r⟩
  · trivial
  · simp only [byteEscape, getc, Lex.bind_ok] at h
    split_ifs at h with hc
    · rw [openQuoted_cons (xdigit_plain hquote hc)]
      rcases r with _ | ⟨c', r⟩
      · trivial
      · simp only [Lex.bind_ok] at h
        split_ifs at h with hc'
        · rw [openQuoted_cons (xdigit_plain hquote hc')]
          exact opensBehind_ok h
        · exact absurd h (opensBehind_error (by simp))
    · exact absurd h (opensBehind_error (by simp))

theorem hexEscape_hits {val : BitVec 32} {r : List ℕ} (h : Hits (hexEscape .endOfFile val r)) :
    ∀ c ∈ r, isxdigit c = true := by
  induction r generalizing val with
  | nil => simp
  | cons c r ih =>
    rw [hexEscape] at h
    split_ifs at h with hc
    · exact List.forall_mem_cons.mpr ⟨hc, ih h⟩
    · exact absurd h (hits_ok _).mp

theorem unicodeEscape_open (hquote : quote = '"' ∨ quote = '\'') {r : List ℕ}
    (h : OpensBehind quote (unicodeEscape .endOfFile r)) : OpenQuoted (cp quote) false r := by
  have hopen {digits rest : List ℕ} (hd : ∀ d ∈ digits, isxdigit d = true)
      (hrest : OpenQuoted (cp quote) false rest) : OpenQuoted (cp quote) false (digits ++ rest) :=
    openQuoted_append (fun d hd' => xdigit_plain hquote (hd d hd')) hrest
  have hbrace : cp '\x7b' ≠ cp '\\' ∧ cp '\x7b' ≠ cp quote := by rcases hquote with rfl | rfl <;> decide
  have hbrace' : cp '\x7d' ≠ cp '\\' ∧ cp '\x7d' ≠ cp quote := by rcases hquote with rfl | rfl <;> decide
  rcases h with h | ⟨v, rest, hok, hrest⟩
  · have hhex {val : BitVec 32} {r : List ℕ} (h : Hits (hexEscape .endOfFile val r)) :
        OpenQuoted (cp quote) false r := by
      have : OpenQuoted (cp quote) false (r ++ []) := hopen (hexEscape_hits h) trivial
      rwa [List.append_nil] at this
    rcases r with _ | ⟨c, r⟩
    · trivial
    · simp only [unicodeEscape, getc, Lex.bind_ok] at h
      split_ifs at h with hc hx
      · rw [hc, openQuoted_cons hbrace]
        rcases r with _ | ⟨c', r⟩
        · trivial
        · simp only [Lex.bind_ok] at h
          split_ifs at h
          · rw [hits_bind] at h
            rcases h with h | ⟨⟨v, c'', r'⟩, -, h⟩
            · exact hhex h
            · dsimp only at h
              split_ifs at h
              · exact absurd h (hits_ok _).mp
              · exact absurd (hits_error.mp h) (by simp)
          · exact absurd (hits_error.mp h) (by simp)
      · rw [hits_bind] at h
        rcases h with h | ⟨out, -, h⟩
        · exact hhex h
        · exact absurd h (hits_ok _).mp
      · exact absurd (hits_error.mp h) (by simp)
  · rcases unicodeEscape_eq_ok _ hok with ⟨digits, -, hd, -, rfl | rfl⟩
    · rw [List.cons_append, openQuoted_cons hbrace]
      exact hopen hd ((openQuoted_cons hbrace').mpr hrest)
    · exact hopen hd hrest

theorem parseEscape_open (hquote : quote = '"' ∨ quote = '\'') {skipping : Bool} {r : List ℕ}
    (h : OpensBehind quote (parseEscape .endOfFile quote skipping r)) : OpenQuoted (cp quote) (!skipping) r := by
  induction r generalizing skipping with
  | nil => cases skipping <;> trivial
  | cons c r ih =>
    cases skipping with
    | true =>
      rw [parseEscape] at h
      split_ifs at h with hspace hback hclose
      · exact (openQuoted_cons (space_plain hquote hspace)).mpr (ih h)
      · have := ih h
        rw [Bool.not_true, OpenQuoted, if_pos hback]
        exact this
      · exact opensBehind_ok h
      · exact (openQuoted_cons ⟨hback, hclose⟩).mpr (opensBehind_ok h)
    | false =>
      rw [parseEscape] at h
      rw [Bool.not_false, OpenQuoted]
      split_ifs at h
      · exact byteEscape_open hquote h
      · exact unicodeEscape_open hquote h
      · exact opensBehind_ok h
      · exact opensBehind_ok h
      · exact opensBehind_ok h
      · exact opensBehind_ok h
      · exact opensBehind_ok h
      · exact ih h
      · exact absurd h (opensBehind_error (by simp))

theorem scanString_open {add : List UInt8 → BitVec 32 → Lex (List UInt8)} (hadd : ∀ str v, ¬ Hits (add str v))
    {str : List UInt8} {r : List ℕ} (h : Hits (scanString .endOfFile add str r)) : OpenQuoted (cp '"') false r := by
  induction hn : r.length using Nat.strong_induction_on generalizing str r with
  | _ n ih =>
    subst hn
    cases r with
    | nil => trivial
    | cons c r =>
      by_cases hquote : c = cp '"'
      · rw [hquote, scanString_quote] at h
        exact absurd h (hits_ok _).mp
      · by_cases hback : c = cp '\\'
        · rw [hback, scanString_backslash, scanEscaped, hits_bind] at h
          rw [OpenQuoted, if_pos hback]
          apply parseEscape_open (Or.inl rfl) (h.imp_right _)
          rintro ⟨⟨v, rest⟩, hparse, h⟩
          have hlen := (parseEscape_suffix _ hparse).length_le
          have hrest {str : List UInt8} (h : Hits (scanString .endOfFile add str rest)) :=
            ih rest.length (Nat.lt_succ_of_le hlen) h rfl
          refine ⟨v, rest, hparse, ?_⟩
          dsimp only at h
          split_ifs at h
          · exact hrest h
          · rcases hits_bind.mp h with h | ⟨str', -, h⟩
            · exact absurd h (hadd _ _)
            · exact hrest h
        · rw [openQuoted_cons ⟨hback, hquote⟩]
          rw [scanString.eq_def] at h
          simp only [if_neg hquote, if_neg hback] at h
          cases happ : append str c with
          | error e =>
            have he : ¬ Hits (append str c) := hits_append
            rw [happ] at h he
            exact absurd (hits_error.mpr (hits_error.mp h)) he
          | ok str' =>
            rw [happ] at h
            exact ih r.length (Nat.lt_succ_self _) h rfl

end Escapes

section Words

variable {edition : Edition} {hygiene : Hygiene}

theorem hits_scanIdentifier {str : List UInt8} {reserved : Bool} {r : List ℕ} :
    Hits (scanIdentifier .endOfFile edition str reserved r) ↔ ∀ c ∈ r, IsSym c := by
  rw [scanIdentifier, hits_bind, hits_takeSyms]
  apply or_iff_left
  rintro ⟨⟨str, rest⟩, -, h⟩
  dsimp only at h
  split_ifs at h
  · cases hword : lexFindReservedWord str edition <;>
    · rw [hword] at h
      exact absurd h (hits_ok _).mp
  · exact absurd h (hits_ok _).mp

theorem countHashes_cases (n : ℕ) (r : List ℕ) :
    (∀ c ∈ r, c = cp '#') ∧ countHashes .endOfFile n r = .error .endOfFile ∨ ∃ k c r',
      r = List.replicate k (cp '#') ++ c :: r' ∧ c ≠ cp '#' ∧ countHashes .endOfFile n r = .ok (n + k, c, r') := by
  induction r generalizing n with
  | nil => exact Or.inl ⟨by simp, rfl⟩
  | cons c r ih =>
    rw [countHashes]
    split_ifs with hc
    · rcases ih (n + 1) with ⟨hall, hend⟩ | ⟨k, c', r', rfl, hc', hok⟩
      · exact Or.inl ⟨List.forall_mem_cons.mpr ⟨hc, hall⟩, hend⟩
      · refine Or.inr ⟨k + 1, c', r', by rw [hc, List.replicate_succ, List.cons_append], hc', ?_⟩
        rw [hok, Nat.add_right_comm, Nat.add_assoc]
    · exact Or.inr ⟨0, c, r, rfl, hc, rfl⟩

theorem not_hits_scanRaw {hashes : ℕ} {val : List UInt8} {n : ℕ} {r : List ℕ} :
    ¬ Hits (scanRaw .endOfFile hashes val n r) := by
  induction r generalizing val n with
  | nil =>
    rw [scanRaw.eq_def]
    simp [hits_error]
  | cons c r ih =>
    have hzero (val : List UInt8) : ¬ Hits (scanRaw .endOfFile hashes val 0 (c :: r)) := by
      rw [scanRaw]
      split_ifs
      · exact (hits_ok _).mp
      · exact ih
      · cases happ : append val c with
        | error e =>
          have he : ¬ Hits (append val c) := hits_append
          rw [happ] at he
          exact fun h => he (hits_error.mpr (hits_error.mp h))
        | ok val => exact ih
    cases n with
    | zero => exact hzero val
    | succ n =>
      by_cases hhash : c = cp '#'
      · rw [hhash, scanRaw_hash]
        split_ifs
        · exact (hits_ok _).mp
        · exact ih
      · rw [scanRaw_other hhash]
        exact hzero _

/-- What an identifier or a raw string that begins with an `r` may run into the end with. -/
def RawCut (r : List ℕ) : Prop :=
  (∀ c ∈ r, c = cp '#') ∨ (∀ c ∈ r, IsSym c) ∨ ∃ word, r = cp '#' :: word ∧ ∀ c ∈ word, IsSym c

theorem hits_scanRawString {isByte : Bool} {r : List ℕ} :
    Hits (scanRawString .endOfFile edition hygiene isByte r) ↔ RawCut r := by
  have hhash : ¬ IsSym (cp '#') := by decide
  have hr : IsSym (cp 'r') := by decide
  rw [scanRawString]
  rcases countHashes_cases 0 r with ⟨hall, hend⟩ | ⟨k, c, r', rfl, hc, hok⟩
  · rw [hend]
    exact iff_of_true rfl (Or.inl hall)
  · rw [hok, Nat.zero_add]
    simp only [Lex.bind_ok]
    have hall : ¬ ∀ d ∈ List.replicate k (cp '#') ++ c :: r', d = cp '#' := fun h => hc (h c (by simp))
    by_cases hquote : c = cp '"'
    · have hsym : ¬ IsSym c := by
        rw [hquote]
        decide
      rw [if_neg (not_not.mpr hquote)]
      apply iff_of_false
      · rw [hits_bind]
        rintro (h | ⟨out, -, h⟩)
        · exact not_hits_scanRaw h
        · exact (hits_ok _).mp h
      · rintro (h | h | ⟨word, heq, h⟩)
        · exact hall h
        · exact hsym (h c (by simp))
        · have hmem : c ∈ cp '#' :: word := heq ▸ by simp
          rcases List.mem_cons.mp hmem with rfl | hmem
          · exact hc rfl
          · exact hsym (h c hmem)
    · rw [if_pos hquote]
      rcases k with _ | _ | k
      · rw [if_pos rfl, hits_scanIdentifier, List.forall_mem_cons, and_iff_right hr]
        constructor
        · exact fun h => Or.inr (Or.inl h)
        · rintro (h | h | ⟨word, heq, h⟩)
          · exact absurd h hall
          · exact h
          · cases heq
            exact absurd rfl hc
      · rw [if_neg (by decide), if_pos rfl, hits_scanIdentifier]
        constructor
        · exact fun h => Or.inr (Or.inr ⟨_, rfl, h⟩)
        · rintro (h | h | ⟨word, heq, h⟩)
          · exact absurd h hall
          · exact absurd (h _ List.mem_cons_self) hhash
          · cases heq
            exact h
      · rw [if_neg (by omega), if_neg (by omega)]
        apply iff_of_false (by simp [hits_error])
        rintro (h | h | ⟨word, heq, h⟩)
        · exact hall h
        · exact hhash (h _ List.mem_cons_self)
        · cases heq
          exact hhash (h _ List.mem_cons_self)

theorem not_hits_addByte (str : List UInt8) (v : BitVec 32) : ¬ Hits (addByte str v) := by
  rw [addByte]
  split_ifs <;> simp [hits_error]

theorem not_hits_addCodepoint (str : List UInt8) (v : BitVec 32) : ¬ Hits (addCodepoint str v) := hits_append

theorem hits_scanString {α : Type} {add : List UInt8 → BitVec 32 → Lex (List UInt8)}
    (hadd : ∀ str v, ¬ Hits (add str v)) {str : List UInt8} {r : List ℕ} {f : List UInt8 × List ℕ → α}
    (h : Hits (scanString .endOfFile add str r >>= fun out => pure (f out))) : OpenQuoted (cp '"') false r := by
  rcases hits_bind.mp h with h | ⟨out, -, h⟩
  · exact scanString_open hadd h
  · exact absurd h (hits_ok _).mp

/-- Behind an escaped character comes the quote, or nothing. -/
theorem closingQuote_open {x : Lex (BitVec 32 × List ℕ)} (token : BitVec 32 → Token) {e : LexError}
    (he : e ≠ .endOfFile) (h : Hits (x >>= fun out => getc .endOfFile out.2 >>= fun next =>
      if next.1 = cp '\'' then pure (⟨token out.1, [], next.2⟩ : Scanned) else throw e)) : OpensBehind '\'' x := by
  rcases hits_bind.mp h with h | ⟨⟨v, rest⟩, hx, h⟩
  · exact Or.inl h
  · cases rest with
    | nil => exact Or.inr ⟨v, [], hx, trivial⟩
    | cons c rest =>
      simp only [getc, Lex.bind_ok] at h
      split_ifs at h
      · exact absurd h (hits_ok _).mp
      · exact absurd (hits_error.mp h) he

variable {atStart : Bool}

theorem scanByte_shape {r : List ℕ} (h : Hits (scanByte .endOfFile edition hygiene r)) :
    Cut atStart (cp 'b' :: r) ∨ OpenLiteral (cp 'b' :: r) := by
  have hb : isdigit (cp 'b') = false ∧ IsSym (cp 'b') := by decide
  rcases r with _ | ⟨c, r⟩
  · exact Or.inl (.word hb.1 (by simpa using hb.2))
  · rw [scanByte, getc, Lex.bind_ok] at h
    dsimp only at h
    split_ifs at h with hr hstring hchar
    · subst hr
      rcases hits_scanRawString.mp h with hall | hsym | ⟨word, rfl, hsym⟩
      · exact Or.inl (.rawHashes (Or.inr rfl) hall)
      · exact Or.inl (.word hb.1 (List.forall_mem_cons.mpr ⟨hb.2, List.forall_mem_cons.mpr ⟨by decide, hsym⟩⟩))
      · exact Or.inl (.rawWord (Or.inr rfl) hsym)
    · subst hstring
      exact Or.inr (.byteString (hits_scanString not_hits_addByte h))
    · subst hchar
      right
      rcases r with _ | ⟨c, r⟩
      · exact .byteQuote
      · have hvalue : scanByte.byteValue .endOfFile (c :: r) =
            if c = cp '\\' then parseEscape .endOfFile '\'' false r else .ok (BitVec.ofNat 32 c, r) := rfl
        rw [hvalue] at h
        by_cases hback : c = cp '\\'
        · rw [if_pos hback] at h
          have hopen := closingQuote_open (fun v => .integer (v.setWidth 128) .u8) (by simp) h
          rw [hback]
          exact .byteEscape (parseEscape_open (Or.inr rfl) hopen)
        · rw [if_neg hback, Lex.bind_ok] at h
          cases r with
          | nil => exact .byte
          | cons c' r =>
            simp only [getc, Lex.bind_ok] at h
            split_ifs at h
            · exact absurd h (hits_ok _).mp
            · exact absurd (hits_error.mp h) (by simp)
    · exact Or.inl (.word hb.1 (hits_scanIdentifier.mp h))

theorem scanWord_shape {r : List ℕ} (h : Hits (scanWord .endOfFile edition hygiene r)) (hr : r ≠ []) :
    Cut atStart r ∨ OpenLiteral r := by
  rcases List.exists_cons_of_ne_nil hr with ⟨c, r, rfl⟩
  rw [scanWord] at h
  simp only [getc, Lex.bind_ok] at h
  split_ifs at h with hdigit hb hraw hsym
  · exact Or.inl (.number ⟨hdigit, (scanNumber_hits hdigit r).mp h⟩)
  · subst hb
    exact scanByte_shape h
  · subst hraw
    left
    rcases hits_scanRawString.mp h with hall | hsym | ⟨word, rfl, hsym⟩
    · exact .rawHashes (Or.inl rfl) hall
    · exact .word (by decide) (List.forall_mem_cons.mpr ⟨by decide, hsym⟩)
    · exact .rawWord (Or.inl rfl) hsym
  · exact Or.inl (.word (by simpa using hdigit) (hits_scanIdentifier.mp h))
  · exact absurd (hits_error.mp h) (by simp)

theorem scanSingleQuote_shape {r : List ℕ} (h : Hits (scanSingleQuote .endOfFile r)) :
    Cut atStart (cp '\'' :: r) ∨ OpenLiteral (cp '\'' :: r) := by
  rcases r with _ | ⟨c, r⟩
  · exact Or.inr .quote
  · rw [scanSingleQuote, getc, Lex.bind_ok] at h
    dsimp only at h
    by_cases hback : c = cp '\\'
    · rw [if_pos hback] at h
      have hopen := closingQuote_open (fun v => .integer (v.setWidth 128) .char) (by simp) h
      rw [hback]
      exact Or.inr (.escape (parseEscape_open (Or.inr rfl) hopen))
    · rw [if_neg hback] at h
      by_cases hquote : c = cp '\''
      · rw [if_pos hquote] at h
        exact absurd (hits_error.mp h) (by simp)
      · rw [if_neg hquote] at h
        rcases r with _ | ⟨c', r⟩
        · by_cases hsym : IsSym c
          · exact Or.inl (.lifetime (by simpa using hsym))
          · exact Or.inr (.char hsym)
        · left
          rw [getc, Lex.bind_ok] at h
          dsimp only at h
          by_cases hclose : c' = cp '\''
          · rw [if_pos hclose] at h
            exact absurd h (hits_ok _).mp
          · rw [if_neg hclose] at h
            by_cases hsym : issym c = true
            · rw [if_pos hsym] at h
              rcases hits_bind.mp h with h | ⟨str, happ, h⟩
              · exact absurd h hits_append
              · rcases hits_bind.mp h with h | ⟨out, -, h⟩
                · exact .lifetime (List.forall_mem_cons.mpr ⟨⟨hsym, (append_eq_ok.mp happ).1⟩, hits_takeSyms.mp h⟩)
                · exact absurd h (hits_ok _).mp
            · rw [if_neg hsym] at h
              exact absurd (hits_error.mp h) (by simp)

theorem hits_scanLineComment {str : List UInt8} {r : List ℕ} :
    Hits (scanLineComment .endOfFile str r) ↔ LineChars r := by
  induction r generalizing str with
  | nil => simp [scanLineComment, LineChars]
  | cons c r ih =>
    rw [scanLineComment, LineChars, List.forall_mem_cons]
    split_ifs with hend
    · exact iff_of_false (hits_ok _).mp fun h => hend.elim h.1.1 h.1.2.1
    · rw [not_or] at hend
      by_cases hlt : c < 0x200000
      · rw [append_eq_ok.mpr ⟨hlt, rfl⟩]
        exact ih.trans (and_iff_right ⟨hend.1, hend.2, hlt⟩).symm
      · apply iff_of_false _ fun h => hlt h.1.2.2
        have he : ¬ Hits (append str c) := hits_append
        cases happ : append str c with
        | ok str => exact absurd (append_eq_ok.mp happ).1 hlt
        | error e =>
          rw [happ] at he
          exact fun h => he (hits_error.mpr (hits_error.mp h))

theorem hits_commentBody {α : Type} {str : List UInt8} {r : List ℕ} {f : List UInt8 × List ℕ → α} :
    Hits (scanLineComment .endOfFile str r >>= fun out => pure (f out)) ↔ LineChars r := by
  rw [hits_bind, hits_scanLineComment]
  exact or_iff_left fun h => h.elim fun _ h => absurd h.2 (hits_ok _).mp

theorem hits_scanLine {r : List ℕ} : Hits (scanLine .endOfFile hygiene r) ↔ LineChars r := by
  rcases r with _ | ⟨c, r⟩
  · exact iff_of_true rfl (by simp [LineChars])
  · have hcons (hc : c = cp '/' ∨ c = cp '!') : LineChars (c :: r) ↔ LineChars r := by
      rw [LineChars, List.forall_mem_cons]
      apply and_iff_right
      rcases hc with rfl | rfl <;> decide
    rw [scanLine, getc, Lex.bind_ok]
    dsimp only
    by_cases hc : c = cp '/'
    · rw [if_pos hc, hcons (Or.inl hc)]
      rcases r with _ | ⟨c', r⟩
      · exact iff_of_true rfl (by simp [LineChars])
      · rw [getc, Lex.bind_ok]
        dsimp only
        split_ifs <;> exact hits_commentBody
    · rw [if_neg hc]
      split_ifs with hexcl
      · rw [hits_commentBody, hcons (Or.inr hexcl)]
      · exact hits_commentBody

theorem hits_scanShebang {r : List ℕ} :
    Hits (scanShebang .endOfFile r) ↔ r = [] ∨ r = [cp '!'] ∨ OnlyShebang r := by
  have hline (r : List ℕ) : Hits (scanShebang.skipLine .endOfFile r) ↔ cp '\n' ∉ r := by
    induction r with
    | nil => simp [scanShebang.skipLine]
    | cons c r ih =>
      rw [scanShebang.skipLine, List.mem_cons, not_or]
      split_ifs with hc
      · exact iff_of_false (hits_ok _).mp fun h => h.1 hc.symm
      · rw [ih]
        exact (and_iff_right fun h => hc h.symm).symm
  rcases r with _ | ⟨c, r⟩
  · exact iff_of_true rfl (Or.inl rfl)
  · have hshape : c :: r = [] ∨ c :: r = [cp '!'] ∨ OnlyShebang (c :: r) ↔
        c = cp '!' ∧ (r = [] ∨ ∃ line, r = cp '/' :: line ∧ cp '\n' ∉ line) := by
      constructor
      · rintro (h | h | ⟨line, h, hno⟩)
        · cases h
        · cases h
          exact ⟨rfl, Or.inl rfl⟩
        · cases h
          exact ⟨rfl, Or.inr ⟨line, rfl, hno⟩⟩
      · rintro ⟨rfl, rfl | ⟨line, rfl, hno⟩⟩
        · exact Or.inr (Or.inl rfl)
        · exact Or.inr (Or.inr ⟨line, rfl, hno⟩)
    rw [hshape, scanShebang, getc, Lex.bind_ok]
    dsimp only
    by_cases hc : c = cp '!'
    · rw [if_pos hc, and_iff_right hc]
      rcases r with _ | ⟨c', r⟩
      · exact iff_of_true rfl (Or.inl rfl)
      · rw [getc, Lex.bind_ok]
        dsimp only
        split_ifs with hslash
        · rw [hits_bind, hline, or_iff_left fun h => h.elim fun _ h => absurd h.2 (hits_ok _).mp]
          constructor
          · exact fun h => Or.inr ⟨r, by rw [hslash], h⟩
          · rintro (h | ⟨line, h, hno⟩)
            · cases h
            · cases h
              exact hno
        · apply iff_of_false (hits_ok _).mp
          rintro (h | ⟨line, h, hno⟩)
          · cases h
          · cases h
            exact hslash rfl
        · apply iff_of_false (fun h => absurd (hits_error.mp h) (by simp))
          rintro (h | ⟨line, h, hno⟩)
          · cases h
          · cases h
            exact hslash rfl
    · rw [if_neg hc]
      apply iff_of_false _ fun h => hc h.1
      split_ifs <;> simp [hits_error]

theorem hits_skipSpace {r : List ℕ} : Hits (skipSpace .endOfFile r) ↔ OnlySpace r := by
  induction r with
  | nil => simp [skipSpace, OnlySpace]
  | cons c r ih =>
    rw [skipSpace, OnlySpace, List.forall_mem_cons]
    split_ifs with hc
    · rw [Bool.and_eq_true, bne_iff_ne] at hc
      exact ih.trans (and_iff_right hc).symm
    · rw [Bool.and_eq_true, bne_iff_ne] at hc
      exact iff_of_false (hits_ok _).mp fun h => hc h.1

/-- A line comment that is no doc comment, behind its slashes. -/
def PlainComment (r : List ℕ) : Prop := LineChars r ∧ ¬ DocComment r

/-- The texts with which a token runs into the end of the input. -/
inductive EndShape (hygiene : Hygiene) (atStart : Bool) (r : List ℕ) : Prop
  | trailing (h : Trailing atStart r)
  | cut (h : Cut atStart r)
  | openLiteral (h : OpenLiteral r)
  | lineComment {body : List ℕ} (hr : r = cp '/' :: cp '/' :: body) (h : PlainComment body)
  | blockComment {body : List ℕ} (hr : r = cp '/' :: cp '*' :: body) (h : Hits (scanBlock .endOfFile hygiene body))

/-- The characters of the symbols that are more than a token. -/
theorem symbol_chars {chars : List Char} {type : SymType} (h : (chars, type) ∈ tokenmap) :
    (type = .tok .dot → chars = ['.']) ∧ (type = .lineComment → chars = ['/', '/']) ∧
      (type = .blockComment → chars = ['/', '*']) ∧ (type = .singleQuote → chars = ['\'']) ∧
      (type = .doubleQuote → chars = ['"']) := by
  have hall : tokenmap.all (fun entry => (entry.2 = .tok .dot → entry.1 = ['.']) ∧
      (entry.2 = .lineComment → entry.1 = ['/', '/']) ∧ (entry.2 = .blockComment → entry.1 = ['/', '*']) ∧
      (entry.2 = .singleQuote → entry.1 = ['\'']) ∧ (entry.2 = .doubleQuote → entry.1 = ['"'])) = true := by decide
  exact of_decide_eq_true (List.all_eq_true.mp hall _ h)

theorem scanToken_shape {r : List ℕ} (h : Hits (scanToken .endOfFile edition hygiene atStart r)) :
    EndShape hygiene atStart r := by
  rcases r with _ | ⟨c, r⟩
  · exact .trailing (Or.inl (by simp [OnlySpace]))
  · have hgetc : getc .endOfFile (c :: r) = .ok (c, r) := rfl
    rw [scanToken, hgetc, Lex.bind_ok] at h
    dsimp only at h
    split_ifs at h with hstart hline hspace
    · rw [Bool.and_eq_true, beq_iff_eq] at hstart
      rw [hstart.2]
      rcases hits_scanShebang.mp h with rfl | rfl | h
      · exact .cut (.hash hstart.1)
      · exact .cut (.shebang hstart.1)
      · exact .trailing (Or.inr ⟨hstart.1, r, rfl, h⟩)
    · exact absurd h (hits_ok _).mp
    · rw [hits_bind, hits_skipSpace, or_iff_left fun h => h.elim fun _ h => absurd h.2 (hits_ok _).mp] at h
      exact .trailing (Or.inl (List.forall_mem_cons.mpr ⟨⟨hspace, hline⟩, h⟩))
    · rcases getSymbol_endOfFile (List.cons_ne_nil c r) with ⟨⟨best, rest⟩, hsym⟩
      have hlongest := getSymbol_longest hsym
      rw [hsym, Lex.bind_ok] at h
      dsimp only at h
      cases best with
      | none =>
        rw [hlongest.1] at h
        rcases scanWord_shape h (List.cons_ne_nil c r) with h | h
        · exact .cut h
        · exact .openLiteral h
      | some type =>
        rcases hlongest with ⟨chars, hmem, heq, -⟩
        rw [heq]
        have hchars := symbol_chars hmem
        rcases type with type | _ | _ | _ | _
        · dsimp only at h
          split_ifs at h with hdot
          · rw [hchars.1 (by rw [hdot])]
            rcases rest with _ | ⟨d, rest⟩
            · exact .cut .dot
            · rw [getc, Lex.bind_ok] at h
              dsimp only at h
              split_ifs at h with hdigit
              · rw [hits_bind, or_iff_left fun h => h.elim fun _ h => absurd h.2 (hits_ok _).mp] at h
                exact .cut (.index ⟨hdigit, (parseInt_hits hdigit rest).mp h⟩)
              · exact absurd h (hits_ok _).mp
          · exact absurd h (hits_ok _).mp
        · rw [hchars.2.1 rfl]
          by_cases hdoc : DocComment rest
          · exact .cut (.docComment hdoc)
          · exact .lineComment rfl ⟨hits_scanLine.mp h, hdoc⟩
        · rw [hchars.2.2.1 rfl]
          exact .blockComment rfl h
        · rw [hchars.2.2.2.1 rfl]
          rcases scanSingleQuote_shape h with h | h
          · exact .cut h
          · exact .openLiteral h
        · rw [hchars.2.2.2.2 rfl]
          exact .openLiteral (.string (hits_scanString not_hits_addCodepoint h))

end Words

end Mrustc.Parse
