import Mrustc.Parse.CutTokens

/-! # A newline brings a cut token back -/

namespace Mrustc.Parse
open Codepoint

variable {edition : Edition} {hygiene : Hygiene} {atStart : Bool}

theorem scanToken_lineComment (ch : ℕ) (input : List ℕ) :
    scanToken .endOfFile edition hygiene atStart (cp '/' :: cp '/' :: ch :: input) =
      scanLine .endOfFile hygiene (ch :: input) := by
  cases atStart <;> rfl

theorem DocComment.lineChars {r : List ℕ} (h : DocComment r) : LineChars r := by
  have hmark {c : ℕ} (hc : c = cp '/' ∨ c = cp '!') : c ≠ cp '\n' ∧ c ≠ cp '\r' ∧ c < 0x200000 := by
    rcases hc with rfl | rfl <;> decide
  rcases h with ⟨body, rfl, -, h⟩ | ⟨body, rfl, h⟩
  · exact List.forall_mem_cons.mpr ⟨hmark (Or.inl rfl), h⟩
  · exact List.forall_mem_cons.mpr ⟨hmark (Or.inr rfl), h⟩

theorem DocComment.exists_cons {r : List ℕ} (h : DocComment r) : ∃ c r', r = c :: r' := by
  rcases h with ⟨body, rfl, -⟩ | ⟨body, rfl, -⟩
  · exact ⟨_, body, rfl⟩
  · exact ⟨_, body, rfl⟩

theorem isSym_quotes {c : ℕ} (h : IsSym c) : c ≠ cp '"' ∧ c ≠ cp '\'' ∧ c ≠ cp '\\' ∧ c ≠ cp '#' ∧ c ≠ cp '\n' := by
  have hne {d : ℕ} (hd : ¬ IsSym d) : c ≠ d := fun heq => hd (heq ▸ h)
  exact ⟨hne (by decide), hne (by decide), hne (by decide), hne (by decide), hne (by decide)⟩

/-- A text that begins like a raw string runs into the end if its hashes and its word do. -/
theorem hits_rawPrefix {pre r : List ℕ} (hpre : RawPrefix pre) (h : RawCut r) :
    Hits (scanToken .endOfFile edition hygiene atStart (pre ++ r)) := by
  rcases hpre with rfl | rfl
  · rw [List.singleton_append, scanToken_sym (by decide), scanWord, getc, Lex.bind_ok]
    exact hits_scanRawString.mpr h
  · rw [List.cons_append, List.singleton_append, scanToken_sym (by decide), scanWord, getc, Lex.bind_ok]
    exact hits_scanRawString.mpr h

theorem hits_word {c : ℕ} {r : List ℕ} (hc : isdigit c = false) (h : ∀ d ∈ c :: r, IsSym d) :
    Hits (scanToken .endOfFile edition hygiene atStart (c :: r)) := by
  rcases List.forall_mem_cons.mp h with ⟨hsym, hr⟩
  by_cases hraw : c = cp 'r'
  · subst hraw
    exact hits_rawPrefix (Or.inl rfl) (Or.inr (Or.inl hr))
  · rw [scanToken_sym hsym.1, scanWord, getc, Lex.bind_ok]
    dsimp only
    rw [hc, if_neg Bool.false_ne_true, if_neg hraw, if_pos hsym.1]
    split_ifs with hb
    · rcases r with _ | ⟨c', r⟩
      · rfl
      · rcases List.forall_mem_cons.mp hr with ⟨hsym', hr'⟩
        have hquotes := isSym_quotes hsym'
        rw [scanByte, getc, Lex.bind_ok]
        dsimp only
        rw [if_neg hquotes.1, if_neg hquotes.2.1]
        split_ifs
        · exact hits_scanRawString.mpr (Or.inr (Or.inl hr'))
        · exact hits_scanIdentifier.mpr (hb ▸ h)
    · exact hits_scanIdentifier.mpr h

theorem hits_lifetime {c : ℕ} {r : List ℕ} (h : ∀ d ∈ c :: r, IsSym d) :
    Hits (scanToken .endOfFile edition hygiene atStart (cp '\'' :: c :: r)) := by
  rcases List.forall_mem_cons.mp h with ⟨hsym, hr⟩
  have hquotes := isSym_quotes hsym
  rw [scanToken_singleQuote, scanSingleQuote, getc, Lex.bind_ok]
  dsimp only
  rw [if_neg hquotes.2.2.1, if_neg hquotes.2.1]
  rcases r with _ | ⟨c', r⟩
  · rfl
  · rw [getc, Lex.bind_ok]
    dsimp only
    rw [if_neg (isSym_quotes (hr c' List.mem_cons_self)).2.1, if_pos hsym.1, append_eq_ok.mpr ⟨hsym.2, rfl⟩,
      Lex.bind_ok, hits_bind, hits_takeSyms]
    exact Or.inl hr

theorem cut_hits {r : List ℕ} (h : Cut atStart r) : Hits (scanToken .endOfFile edition hygiene atStart r) := by
  cases h with
  | hash h =>
    rw [h]
    rfl
  | shebang h =>
    rw [h]
    rfl
  | word hc h => exact hits_word hc h
  | rawWord hpre h => exact hits_rawPrefix hpre (Or.inr (Or.inr ⟨_, rfl, h⟩))
  | rawHashes hpre h => exact hits_rawPrefix hpre (Or.inl h)
  | lifetime h => exact hits_lifetime h
  | docComment h =>
    rcases h.exists_cons with ⟨c, r', rfl⟩
    rw [scanToken_lineComment]
    exact hits_scanLine.mpr h.lineChars
  | dot => cases atStart <;> rfl
  | @index r h =>
    rcases r with _ | ⟨c, r⟩
    · exact h.elim
    · rw [scanToken_index edition hygiene atStart h.1, hits_bind]
      exact Or.inl ((parseInt_hits h.1 r).mpr h.2)
  | number h =>
    rcases r with _ | ⟨c, r⟩
    · exact h.elim
    · rw [scanToken_digit h.1]
      exact (scanNumber_hits h.1 r).mpr h.2

/-- The first characters of an open literal. -/
theorem OpenLiteral.head {r : List ℕ} (h : OpenLiteral r) : r.head? = some (cp '"') ∨ r = [cp '\''] ∨
    (∃ c r', r = cp '\'' :: c :: r' ∧ ¬ IsSym c) ∨ ∃ c r', r = cp 'b' :: c :: r' ∧ (c = cp '"' ∨ c = cp '\'') := by
  cases h with
  | string => exact Or.inl rfl
  | quote => exact Or.inr (Or.inl rfl)
  | char h => exact Or.inr (Or.inr (Or.inl ⟨_, _, rfl, h⟩))
  | escape => exact Or.inr (Or.inr (Or.inl ⟨_, _, rfl, by decide⟩))
  | byteString => exact Or.inr (Or.inr (Or.inr ⟨_, _, rfl, Or.inl rfl⟩))
  | byteQuote => exact Or.inr (Or.inr (Or.inr ⟨_, _, rfl, Or.inr rfl⟩))
  | byte => exact Or.inr (Or.inr (Or.inr ⟨_, _, rfl, Or.inr rfl⟩))
  | byteEscape => exact Or.inr (Or.inr (Or.inr ⟨_, _, rfl, Or.inr rfl⟩))

theorem next_newline (state : NumState) : state.next (cp '\n') = none := by
  cases state with
  | digits mode => cases mode <;> rfl
  | _ => rfl

theorem Runs.no_newline {keep : NumState → Prop} {state : NumState} {r : List ℕ} (h : state.Runs keep r) :
    cp '\n' ∉ r := by
  induction r generalizing state with
  | nil => exact List.not_mem_nil
  | cons c r ih =>
    rcases h with ⟨state', hnext, -, h⟩
    rw [List.mem_cons, not_or]
    refine ⟨?_, ih h⟩
    rintro rfl
    rw [next_newline] at hnext
    cases hnext

theorem NumberRuns.exists_cons {keep : NumState → Prop} {r : List ℕ} (h : NumberRuns keep r) :
    ∃ c r', r = c :: r' ∧ isdigit c = true ∧ cp '\n' ∉ r := by
  rcases r with _ | ⟨c, r⟩
  · exact h.elim
  · refine ⟨c, r, rfl, h.1, ?_⟩
    rw [List.mem_cons, not_or]
    refine ⟨?_, Runs.no_newline h.2⟩
    rintro rfl
    exact absurd h.1 (by decide)

theorem RawPrefix.no_newline {pre : List ℕ} (h : RawPrefix pre) : cp '\n' ∉ pre := by
  rcases h with rfl | rfl <;> decide

theorem Cut.no_newline {r : List ℕ} (h : Cut atStart r) : cp '\n' ∉ r := by
  have hsyms {r : List ℕ} (h : ∀ d ∈ r, IsSym d) : cp '\n' ∉ r := fun hmem => absurd (h _ hmem) (by decide)
  have hchars {r : List ℕ} (h : LineChars r) : cp '\n' ∉ r := fun hmem => (h _ hmem).1 rfl
  have hcons {c : ℕ} {r : List ℕ} (hc : c ≠ cp '\n') (hr : cp '\n' ∉ r) : cp '\n' ∉ c :: r :=
    List.not_mem_cons_of_ne_of_not_mem hc.symm hr
  cases h with
  | hash | shebang | dot => decide
  | word _ h => exact hsyms h
  | rawWord hpre h =>
    rw [List.mem_append, not_or]
    exact ⟨hpre.no_newline, hcons (by decide) (hsyms h)⟩
  | rawHashes hpre h =>
    rw [List.mem_append, not_or]
    exact ⟨hpre.no_newline, fun hmem => absurd (h _ hmem) (by decide)⟩
  | lifetime h => exact hcons (by decide) (hsyms h)
  | docComment h => exact hcons (by decide) (hcons (by decide) (hchars h.lineChars))
  | index h =>
    rcases h.exists_cons with ⟨_, _, -, -, h⟩
    exact hcons (by decide) h
  | number h =>
    rcases h.exists_cons with ⟨_, _, -, -, h⟩
    exact h

theorem ne_of_isdigit {c d : ℕ} (hc : isdigit c = true) (hd : isdigit d = false) : c ≠ d := by
  rintro rfl
  rw [hc] at hd
  cases hd

/-- A cut token begins neither a literal that stays open nor a block comment. -/
theorem Cut.head {r : List ℕ} (h : Cut atStart r) :
    ¬ OpenLiteral (r ++ [cp '\n']) ∧ ∀ body, r ++ [cp '\n'] ≠ cp '/' :: cp '*' :: body := by
  have hfirst {c : ℕ} {r : List ℕ} (hc : c ≠ cp '"' ∧ c ≠ cp '\'' ∧ c ≠ cp 'b' ∧ c ≠ cp '/') :
      ¬ OpenLiteral (c :: r) ∧ ∀ body, c :: r ≠ cp '/' :: cp '*' :: body := by
    constructor
    · intro hopen
      rcases hopen.head with h | h | ⟨_, _, h, -⟩ | ⟨_, _, h, -⟩ <;> cases h
      · exact hc.1 rfl
      · exact hc.2.1 rfl
      · exact hc.2.1 rfl
      · exact hc.2.2.1 rfl
    · intro body h
      cases h
      exact hc.2.2.2 rfl
  have hbyte {c : ℕ} {r : List ℕ} (hc : c ≠ cp '"' ∧ c ≠ cp '\'') :
      ¬ OpenLiteral (cp 'b' :: c :: r) ∧ ∀ body, cp 'b' :: c :: r ≠ cp '/' :: cp '*' :: body := by
    constructor
    · intro hopen
      rcases hopen.head with h | h | ⟨_, _, h, -⟩ | ⟨_, _, h, hquote⟩ <;> cases h
      exact hquote.elim hc.1 hc.2
    · intro body h
      cases h
  have hraw {pre r : List ℕ} (hpre : RawPrefix pre) :
      ¬ OpenLiteral (pre ++ r) ∧ ∀ body, pre ++ r ≠ cp '/' :: cp '*' :: body := by
    rcases hpre with rfl | rfl
    · exact hfirst (by decide)
    · exact hbyte (by decide)
  cases h with
  | hash | shebang | dot | index => exact hfirst (by decide)
  | @word c r _ h =>
    have hsym := isSym_quotes (h c List.mem_cons_self)
    by_cases hb : c = cp 'b'
    · subst hb
      rcases r with _ | ⟨c', r⟩
      · exact hbyte (by decide)
      · have hsym' := isSym_quotes (h c' (by simp))
        exact hbyte ⟨hsym'.1, hsym'.2.1⟩
    · have hslash : c ≠ cp '/' := by
        rintro rfl
        exact absurd (h _ List.mem_cons_self) (by decide)
      exact hfirst ⟨hsym.1, hsym.2.1, hb, hslash⟩
  | rawWord hpre _ =>
    rw [List.append_assoc]
    exact hraw hpre
  | rawHashes hpre _ =>
    rw [List.append_assoc]
    exact hraw hpre
  | @lifetime c r h =>
    constructor
    · intro hopen
      rcases hopen.head with h' | h' | ⟨_, _, h', hc⟩ | ⟨_, _, h', -⟩ <;> cases h'
      exact hc (h c List.mem_cons_self)
    · intro body h'
      cases h'
  | docComment h =>
    constructor
    · intro hopen
      rcases hopen.head with h' | h' | ⟨_, _, h', -⟩ | ⟨_, _, h', -⟩ <;> cases h'
    · intro body h'
      cases h'
  | number h =>
    rcases h.exists_cons with ⟨c, r', rfl, hc, -⟩
    exact hfirst ⟨ne_of_isdigit hc rfl, ne_of_isdigit hc rfl, ne_of_isdigit hc rfl, ne_of_isdigit hc rfl⟩

/-- With a newline behind it, a cut token is no longer lost. -/
theorem cut_not_hits {r : List ℕ} (h : Cut atStart r) :
    ¬ Hits (scanToken .endOfFile edition hygiene atStart (r ++ [cp '\n'])) := by
  have hmem : cp '\n' ∈ r ++ [cp '\n'] := by simp
  have hbehind {pre body : List ℕ} (heq : r ++ [cp '\n'] = pre ++ body) (hpre : cp '\n' ∉ pre) : cp '\n' ∈ body := by
    rw [heq, List.mem_append] at hmem
    exact hmem.resolve_left hpre
  intro hits
  rcases scanToken_shape hits with h' | h' | h' | ⟨hr, h'⟩ | ⟨hr, -⟩
  · rcases h' with h' | ⟨-, r', heq, line, rfl, hline⟩
    · exact (h' _ hmem).2 rfl
    · have hpre : cp '\n' ∉ [cp '#', cp '!', cp '/'] := by decide
      exact hline (hbehind heq hpre)
  · exact h'.no_newline hmem
  · exact h.head.1 h'
  · have hpre : cp '\n' ∉ [cp '/', cp '/'] := by decide
    exact (h'.1 _ (hbehind hr hpre)).1 rfl
  · exact h.head.2 _ hr

/-- A token that the parser gets to see. -/
def Scanned.Kept (out : Scanned) : Prop := out.token.isSkipped = false ∧ out.token ≠ .eof

theorem scanIdentifier_kept (str : List UInt8) (reserved : Bool) (input : List ℕ) :
    Lex.Yields (scanIdentifier .endOfFile edition str reserved input) Scanned.Kept := by
  apply yields_bind
  rintro ⟨name, rest⟩ -
  dsimp only
  split_ifs
  · cases lexFindReservedWord name edition <;> exact yields_ok ⟨rfl, by simp⟩
  · exact yields_ok ⟨rfl, by simp⟩

theorem scanRawString_kept (isByte : Bool) (input : List ℕ) :
    Lex.Yields (scanRawString .endOfFile edition hygiene isByte input) Scanned.Kept := by
  apply yields_bind
  rintro ⟨hashes, ch, rest⟩ -
  have hvalue (token : List UInt8 → Token) (htoken : ∀ val, (token val).isSkipped = false ∧ token val ≠ .eof) :
      Lex.Yields (scanRaw .endOfFile hashes [] 0 rest >>= fun out => pure (⟨token out.1, [], out.2⟩ : Scanned))
        Scanned.Kept := yields_bind fun out _ => yields_ok (htoken out.1)
  dsimp only
  split_ifs
  · exact scanIdentifier_kept _ true _
  · exact scanIdentifier_kept _ true _
  · exact scanIdentifier_kept _ false _
  · exact yields_error _
  · exact hvalue Token.byteString fun val => ⟨rfl, by simp⟩
  · exact hvalue (Token.string · hygiene) fun val => ⟨rfl, by simp⟩

theorem Token.IsNumber.kept {out : Scanned} (h : out.token.IsNumber) : out.Kept := by
  rcases out with ⟨token, next, input⟩
  cases token with
  | integer | float => exact ⟨rfl, by simp⟩
  | _ => exact h.elim

theorem scanByte_kept (input : List ℕ) : Lex.Yields (scanByte .endOfFile edition hygiene input) Scanned.Kept := by
  apply yields_bind
  rintro ⟨ch, rest⟩ -
  dsimp only
  split_ifs
  · exact scanRawString_kept true rest
  · exact yields_bind fun out _ => yields_ok ⟨rfl, by simp⟩
  · apply yields_bind
    rintro ⟨val, rest⟩ -
    apply yields_bind
    rintro ⟨ch, rest⟩ -
    dsimp only
    split_ifs
    · exact yields_ok ⟨rfl, by simp⟩
    · exact yields_error _
  · exact scanIdentifier_kept _ true _

theorem scanWord_kept (input : List ℕ) : Lex.Yields (scanWord .endOfFile edition hygiene input) Scanned.Kept := by
  apply yields_bind
  rintro ⟨ch, rest⟩ -
  dsimp only
  split_ifs
  · exact fun out hout => (@scanNumber_isNumber _ edition input out hout).1.kept
  · exact scanByte_kept rest
  · exact scanRawString_kept false rest
  · exact scanIdentifier_kept _ true input
  · exact yields_error _

theorem scanSingleQuote_kept (input : List ℕ) : Lex.Yields (scanSingleQuote .endOfFile input) Scanned.Kept := by
  apply yields_bind
  rintro ⟨first, rest⟩ -
  dsimp only
  split_ifs
  · apply yields_bind
    rintro ⟨val, rest⟩ -
    apply yields_bind
    rintro ⟨ch, rest⟩ -
    dsimp only
    split_ifs
    · exact yields_ok ⟨rfl, by simp⟩
    · exact yields_error _
  · exact yields_error _
  · apply yields_bind
    rintro ⟨ch, rest'⟩ -
    dsimp only
    split_ifs
    · exact yields_ok ⟨rfl, by simp⟩
    · apply yields_bind
      intro str _
      exact yields_bind fun out _ => yields_ok ⟨rfl, by simp⟩
  · apply yields_bind
    rintro ⟨ch, rest'⟩ -
    dsimp only
    split_ifs
    · exact yields_ok ⟨rfl, by simp⟩
    · exact yields_error _

theorem docComment_kept {r : List ℕ} (h : DocComment r) :
    Lex.Yields (scanLine .endOfFile hygiene (r ++ [cp '\n'])) Scanned.Kept := by
  have hdoc {str : List UInt8} {isPdoc : Bool} {input : List ℕ} :
      Lex.Yields (scanLineComment .endOfFile str input >>= fun out => pure (docTokens hygiene out.1 isPdoc out.2))
        Scanned.Kept := yields_bind fun out _ => yields_ok ⟨rfl, by simp [docTokens]⟩
  rcases h with ⟨body, rfl, hhead, -⟩ | ⟨body, rfl, -⟩
  · have hnext : ∃ c rest, body ++ [cp '\n'] = c :: rest ∧ c ≠ cp '/' := by
      cases body with
      | nil => exact ⟨_, [], rfl, by decide⟩
      | cons c body => exact ⟨c, body ++ [cp '\n'], rfl, fun hc => hhead (by rw [hc]; rfl)⟩
    rcases hnext with ⟨c, rest, heq, hc⟩
    rw [scanLine, List.cons_append, getc, Lex.bind_ok, heq]
    dsimp only
    rw [if_pos rfl, getc, Lex.bind_ok]
    dsimp only
    rw [if_neg hc]
    exact hdoc
  · rw [scanLine, List.cons_append, getc, Lex.bind_ok]
    dsimp only
    rw [if_neg (by decide), if_pos rfl]
    exact hdoc

theorem scanToken_word_kept {c : ℕ} (hc : issym c = true) (input : List ℕ) :
    Lex.Yields (scanToken .endOfFile edition hygiene atStart (c :: input)) Scanned.Kept := by
  rw [scanToken_sym hc]
  exact scanWord_kept _

theorem cut_kept {r : List ℕ} (h : Cut atStart r) :
    Lex.Yields (scanToken .endOfFile edition hygiene atStart (r ++ [cp '\n'])) Scanned.Kept := by
  have hraw {pre r : List ℕ} (hpre : RawPrefix pre) :
      Lex.Yields (scanToken .endOfFile edition hygiene atStart (pre ++ r)) Scanned.Kept := by
    rcases hpre with rfl | rfl
    · exact scanToken_word_kept (by decide) _
    · exact scanToken_word_kept (by decide) _
  cases h with
  | hash h =>
    rw [h]
    exact yields_error (.badChar (cp '\n'))
  | shebang h =>
    rw [h]
    exact yields_error (.badChar (cp '\n'))
  | word _ h => exact scanToken_word_kept (h _ List.mem_cons_self).1 _
  | rawWord hpre _ =>
    rw [List.append_assoc]
    exact hraw hpre
  | rawHashes hpre _ =>
    rw [List.append_assoc]
    exact hraw hpre
  | lifetime h =>
    rw [List.cons_append, List.cons_append, scanToken_singleQuote]
    exact scanSingleQuote_kept _
  | @docComment r h =>
    have hkept : Lex.Yields (scanLine .endOfFile hygiene (r ++ [cp '\n'])) Scanned.Kept := docComment_kept h
    rcases h.exists_cons with ⟨c, r', rfl⟩
    exact (scanToken_lineComment c _).symm ▸ hkept
  | dot =>
    rw [List.singleton_append, scanToken_field (by decide) (by decide)]
    exact yields_ok ⟨rfl, by simp⟩
  | index h =>
    rcases h.exists_cons with ⟨c, r', rfl, hc, -⟩
    rw [List.cons_append, List.cons_append, scanToken_index edition hygiene atStart hc]
    exact yields_bind fun out _ => yields_ok ⟨rfl, by simp⟩
  | number h =>
    rcases h.exists_cons with ⟨c, r', rfl, hc, -⟩
    have hsym : issym c = true := by rw [issym, hc, Bool.true_or, Bool.true_or, Bool.true_or]
    exact scanToken_word_kept hsym _

end Mrustc.Parse
