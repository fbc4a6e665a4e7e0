import Mathlib.Data.List.TakeWhile
import Mrustc.Parse.RoundTrip

/-! # `stringify!` and the lexer

A printed token lexes to itself exactly when it prints back, and the text that `stringify!`
makes of tokens that print back lexes to those tokens.
-/

namespace Mrustc.Parse
open Codec Codepoint

variable {edition : Edition} {hygiene : Hygiene} {fmtDouble : List UInt8 → List UInt8}

section Runs

/-- A run is determined by its lexer. -/
theorem Lexes.unique {lex : Lexer} {ts us : List Token} (h : Lexes lex ts) (h' : Lexes lex us) :
    ts = us := by
  induction h generalizing us with
  | eof h =>
    cases h' with
    | eof => rfl
    | skip h₁ ht =>
      rw [h] at h₁
      cases h₁
      contradiction
    | token h₁ _ heof =>
      rw [h] at h₁
      cases h₁
      contradiction
  | skip h ht _ ih =>
    cases h' with
    | eof h₁ =>
      rw [h] at h₁
      cases h₁
      contradiction
    | skip h₁ _ hts =>
      rw [h] at h₁
      cases h₁
      exact ih hts
    | token h₁ ht₁ =>
      rw [h] at h₁
      cases h₁
      exact absurd (ht.symm.trans ht₁) (by decide)
  | token h ht heof _ ih =>
    cases h' with
    | eof h₁ =>
      rw [h] at h₁
      cases h₁
      contradiction
    | skip h₁ ht₁ =>
      rw [h] at h₁
      cases h₁
      exact absurd (ht.symm.trans ht₁) (by decide)
    | token h₁ _ _ hts =>
      rw [h] at h₁
      cases h₁
      rw [ih hts]

/-- Only tokens that are kept come out of a run. -/
theorem Lexes.kept {lex : Lexer} {ts : List Token} (h : Lexes lex ts) :
    ∀ t ∈ ts, t.isSkipped = false ∧ t ≠ .eof := by
  induction h with
  | eof => simp
  | skip _ _ _ ih => exact ih
  | token _ ht heof _ ih => exact List.forall_mem_cons.mpr ⟨⟨ht, heof⟩, ih⟩

/-- A space at the end of the input is nothing. -/
theorem lexes_space (atStart : Bool) : Lexes (.ofInput edition hygiene atStart [cp ' ']) [] := by
  have h : (Lexer.ofInput edition hygiene atStart [cp ' ']).getTokenInt =
      .ok (.eof, .ofInput edition hygiene false []) := by
    cases atStart <;> rfl
  exact .eof h

theorem lexes_skip_space {c : ℕ} (hc : isspace c = false) {cs : List ℕ} {ts : List Token}
    (h : Lexes (.ofInput edition hygiene false (c :: cs)) ts) :
    Lexes (.ofInput edition hygiene false (cp ' ' :: c :: cs)) ts := by
  have hscan : scanToken .endOfFile edition hygiene false (cp ' ' :: c :: cs) =
      .ok ⟨.whitespace, [], c :: cs⟩ := by
    have hspace : isspace (cp ' ') = true := by decide
    simp [scanToken, getc, hspace, skipSpace, hc]
    decide
  exact .skip (getTokenInt_ofInput hscan) rfl h

/-- The first token of a run is what the first scan returns. -/
theorem Lexes.head {lex : Lexer} (hqueue : lex.nextTokens = []) {t : Token} {ts : List Token}
    (h : Lexes lex (t :: ts))
    (hskip : ∀ out, scanToken lex.stop lex.edition lex.hygiene lex.atStart lex.input = .ok out →
      out.token.isSkipped = false) :
    ∃ out, scanToken lex.stop lex.edition lex.hygiene lex.atStart lex.input = .ok out ∧
      out.token = t := by
  have hstep : ∀ {t' lex'}, lex.getTokenInt = .ok (t', lex') → t' ≠ .eof →
      ∃ out, scanToken lex.stop lex.edition lex.hygiene lex.atStart lex.input = .ok out ∧
        out.token = t' := by
    intro t' lex' h heof
    rw [Lexer.getTokenInt, hqueue] at h
    dsimp only at h
    split at h
    · rename_i out hout
      cases h
      exact ⟨out, hout, rfl⟩
    · cases h
      contradiction
    · cases h
  cases h with
  | @skip _ _ t' _ h ht =>
    obtain ⟨out, hout, rfl⟩ := hstep h (by rintro rfl; contradiction)
    exact absurd (ht.symm.trans (hskip out hout)) (by decide)
  | token h _ heof => exact hstep h heof

end Runs

section Stringify

/-- A `const char*` into a string: what is in front of the first NUL. -/
def cStr (s : List UInt8) : List UInt8 := s.takeWhile (· ≠ 0)

/-- The text of a token without hygiene in braces in front of it; an assertion fails if the
braces do not close. -/
def stringifyToken (fmtDouble : List UInt8 → List UInt8) (tok : Token) : Option (List UInt8) :=
  match tok with
  | .ident name => some (cStr name)
  | tok =>
    let s := cStr (tok.toStr fmtDouble)
    if s.head? = some '\x7b'.toUInt8 ∧ s.tail ≠ [] then
      match s.dropWhile (· ≠ '\x7d'.toUInt8) with
      | [] => none
      | _ :: s => some s
    else some s

/-- `stringify!`, behind `rv`. -/
def stringify (fmtDouble : List UInt8 → List UInt8) : (rv : List UInt8) → List Token →
    Option (List UInt8)
  | rv, [] => some rv
  | rv, tok :: toks =>
    match stringifyToken fmtDouble tok with
    | none => none
    | some s => stringify fmtDouble ((if rv = [] then rv else rv ++ [32]) ++ s) toks

/-- The tokens that read back from among others: no byte string has a NUL. -/
def Token.StringifiesBack (t : Token) : Prop :=
  t.PrintsBack false ∧ ∀ s, t = .byteString s → 0 ∉ s

theorem cStr_eq {s : List UInt8} (h : 0 ∉ s) : cStr s = s := by
  apply List.takeWhile_eq_self_iff.mpr
  intro b hb
  simp only [decide_eq_true_eq]
  rintro rfl
  exact h hb

variable {atStart : Bool} {t : Token} {c : ℕ} {cs : List ℕ}

/-- Only a brace alone starts with a brace. -/
theorem ReadsBack.brace {text : List UInt8} (h : ReadsBack edition hygiene atStart text t c cs)
    (hhead : text.head? = some '\x7b'.toUInt8) : text.tail = [] := by
  have hvalid := h.valid c List.mem_cons_self
  rw [h.eq, encode_cons] at hhead ⊢
  by_cases hlt : c < 128
  · have hn : c.toUInt8.toNat = c := UInt8.toNat_ofNat_of_lt (by unfold UInt8.size; omega)
    rw [utf8_ascii hlt, List.singleton_append, List.head?_cons, Option.some_inj] at hhead
    have hc : c = cp '\x7b' := by rw [← hn, hhead]; rfl
    rw [utf8_ascii hlt, h.notBrace hc]
    rfl
  · obtain ⟨b, bs, hb⟩ := List.exists_cons_of_ne_nil (utf8_ne_nil hvalid)
    have hhigh := utf8_high (not_lt.mp hlt) b (by rw [hb]; exact List.mem_cons_self)
    rw [hb, List.cons_append, List.head?_cons, Option.some_inj] at hhead
    exact absurd (by rw [hhead]; decide) hhigh

theorem stringifyToken_eq (h : ReadsBack edition hygiene atStart (t.toStr fmtDouble) t c cs)
    (hnul : 0 ∉ t.toStr fmtDouble) : stringifyToken fmtDouble t = some (t.toStr fmtDouble) := by
  have hother : (if (t.toStr fmtDouble).head? = some '\x7b'.toUInt8 ∧ (t.toStr fmtDouble).tail ≠ []
      then match (t.toStr fmtDouble).dropWhile (· ≠ '\x7d'.toUInt8) with
        | [] => none
        | _ :: s => some s
      else some (t.toStr fmtDouble)) = some (t.toStr fmtDouble) := by
    rw [if_neg]
    rintro ⟨hhead, htail⟩
    exact htail (h.brace hhead)
  have hstr := cStr_eq hnul
  cases t with
  | ident name => exact congrArg some hstr
  | _ =>
    rw [stringifyToken, hstr]
    · exact hother
    · intro name hname
      cases hname

/-- The codepoints behind the first token, which the lexer reads as the other tokens. -/
structure ReadsTail (edition : Edition) (hygiene : Hygiene) (ts : List Token) (rest : List ℕ) :
    Prop where
  valid : ∀ d ∈ rest, d < 0x200000
  crlf : getcByte (encode (cp ' ' :: rest)) = encode (cp ' ' :: rest)
  reads : ∃ ts', Lexes (.ofInput edition hygiene false (cp ' ' :: rest)) ts' ∧
    ts'.map Token.stripHygiene = ts.map Token.stripHygiene

theorem encode_space (cs rest : List ℕ) :
    encode (cs ++ cp ' ' :: rest) = encode cs ++ 32 :: encode rest := by
  rw [encode_append, encode_cons, utf8_ascii (by decide)]
  rfl

theorem ReadsTail.crlf_append {ts : List Token} {rest : List ℕ} (h : ReadsTail edition hygiene ts rest)
    (hcs : getcByte (encode cs) = encode cs) :
    getcByte (encode (cs ++ cp ' ' :: rest)) = encode (cs ++ cp ' ' :: rest) := by
  have hspace := encode_space [] rest
  have hrest := h.crlf
  rw [List.nil_append, encode_nil, List.nil_append] at hspace
  rw [hspace] at hrest
  rw [encode_space, getcByte_append (by decide), hcs, hrest]

theorem readsTail_nil : ReadsTail edition hygiene [] [] :=
  ⟨by simp, by rfl, [], lexes_space false, rfl⟩

theorem ReadsBack.valid_append {text : List UInt8} {ts : List Token} {rest : List ℕ}
    (h : ReadsBack edition hygiene atStart text t c cs) (hts : ReadsTail edition hygiene ts rest) :
    ∀ d ∈ c :: cs ++ cp ' ' :: rest, d < 0x200000 := by
  intro d hd
  rcases List.mem_append.mp hd with hd | hd
  · exact h.valid d hd
  · rcases List.mem_cons.mp hd with rfl | hd
    · decide
    · exact hts.valid d hd

theorem readsTail_cons {text : List UInt8} {ts : List Token} {rest : List ℕ}
    (h : ReadsBack edition hygiene false text t c cs) (hts : ReadsTail edition hygiene ts rest) :
    ReadsTail edition hygiene (t :: ts) (c :: cs ++ cp ' ' :: rest) := by
  obtain ⟨t', hstrip, hreads⟩ := h.reads
  obtain ⟨ts', hlexes, hstrips⟩ := hts.reads
  refine ⟨h.valid_append hts, ?_, t' :: ts', lexes_skip_space h.notSpace (hreads rest ts' hlexes), ?_⟩
  · rw [encode_cons, utf8_ascii (by decide), List.singleton_append, getcByte_cons (by decide),
      hts.crlf_append h.crlf]
  · rw [List.map_cons, List.map_cons, hstrip, hstrips]

/-- A first token and the tokens behind it read back from the start of a source text. -/
theorem lexesBack_cons {text : List UInt8} {ts : List Token} {rest : List ℕ}
    (h : ReadsBack edition hygiene true text t c cs) (hts : ReadsTail edition hygiene ts rest)
    {out : List UInt8} (hout : out ++ [32] = text ++ 32 :: encode rest) :
    LexesBack edition hygiene out (t :: ts) := by
  obtain ⟨t', hstrip, hreads⟩ := h.reads
  obtain ⟨ts', hlexes, hstrips⟩ := hts.reads
  refine ⟨t' :: ts', ?_, by rw [List.map_cons, List.map_cons, hstrip, hstrips]⟩
  rw [hout, h.eq, ← encode_space, ofSource_encode (h.valid_append hts) (hts.crlf_append h.crlf)]
  exact hreads rest ts' hlexes

end Stringify

section Tokens

variable {t : Token} {atStart : Bool}

/-- A token of the lexer that prints back has a text that reads as the token. -/
theorem Token.Covered.readsBack (ht : t.Covered edition) (hygiene : Hygiene)
    (fmtDouble : List UInt8 → List UInt8) (h : t.PrintsBack atStart) : ∃ c cs, ReadsBack edition hygiene atStart (t.toStr fmtDouble) t c cs := by
  obtain ⟨⟨hyg, source, ts, hlexes, hmem⟩, hcovered⟩ := ht
  have hlexed := hlexes.lexed (by intro u hu; cases hu) t hmem
  obtain ⟨hskip, heof⟩ := hlexes.kept t hmem
  cases t with
  | eof => exact absurd rfl heof
  | newline => cases hskip
  | whitespace => cases hskip
  | comment => cases hskip
  | op type => exact readsBack_op hlexed h
  | ident name => exact readsBack_ident hlexed hcovered h
  | lifetime name => exact readsBack_lifetime hlexed
  | integer v type => exact readsBack_integer hlexed
  | float => exact hcovered.elim
  | string s contexts => exact readsBack_string h contexts
  | byteString s => exact readsBack_byteString h

theorem LexesBack.single {text : List UInt8} (h : LexesBack edition hygiene text [t]) :
    ∃ t', Lexes (.ofSource edition hygiene (text ++ [32])) [t'] ∧
      t'.stripHygiene = t.stripHygiene := by
  obtain ⟨ts', hlexes, hstrip⟩ := h
  obtain ⟨t', rfl⟩ : ∃ t', ts' = [t'] := by
    apply List.length_eq_one_iff.mp
    simpa using congrArg List.length hstrip
  exact ⟨t', hlexes, List.head_eq_of_cons_eq hstrip⟩

/-- A text is that of one token only. -/
theorem LexesBack.unique {u : Token} {text : List UInt8} (ht : LexesBack edition hygiene text [t])
    (hu : LexesBack edition hygiene text [u]) : t.stripHygiene = u.stripHygiene := by
  obtain ⟨t', hlexes, ht'⟩ := ht.single
  obtain ⟨u', hlexes', hu'⟩ := hu.single
  obtain rfl : t' = u' := List.head_eq_of_cons_eq (hlexes.unique hlexes')
  exact ht'.symm.trans hu'

theorem ReadsBack.lexesBack {text : List UInt8} {c : ℕ} {cs : List ℕ}
    (h : ReadsBack edition hygiene true text t c cs) : LexesBack edition hygiene text [t] :=
  lexesBack_cons h readsTail_nil rfl

theorem lexesBack_op {type : TokenType} (htype : type ∈ symbolTypes)
    (h : (Token.op type).PrintsBack true) :
    LexesBack edition hygiene (ascii type.text.toList) [.op type] := by
  obtain ⟨c, cs, hreads⟩ : ∃ c cs, ReadsBack edition hygiene true ((Token.op type).toStr id) _ c cs :=
    readsBack_op (lexed_op htype) h
  exact hreads.lexesBack

theorem symName_yeild : SymName (ascii TokenType.rwordYield.text.toList) :=
  symName_ascii (by decide +kernel)

theorem lexesBack_yeild : LexesBack edition hygiene (ascii TokenType.rwordYield.text.toList)
    [.ident (ascii TokenType.rwordYield.text.toList)] := by
  have hword : lexFindReservedWord (ascii TokenType.rwordYield.text.toList) edition = none := by
    cases edition <;> decide +kernel
  obtain ⟨c, cs, hreads⟩ : ∃ c cs, ReadsBack edition hygiene true _ _ c cs :=
    readsBack_ident symName_yeild hword ⟨by decide +kernel, by decide +kernel⟩
  exact hreads.lexesBack

/-- At the start of the input a hash alone is an error. -/
theorem not_lexes_hash {ts : List Token} :
    ¬ Lexes (.ofInput edition hygiene true [cp '#', cp ' ']) (t :: ts) := by
  intro h
  have hscan : scanToken .endOfFile edition hygiene true [cp '#', cp ' '] =
      .error (.badChar (cp ' ')) := rfl
  have hhead := h.head rfl (by
    intro out hout
    rw [Lexer.ofInput, hscan] at hout
    cases hout)
  obtain ⟨out, hout, -⟩ := hhead
  rw [Lexer.ofInput, hscan] at hout
  cases hout

theorem op_printsBack {type : TokenType}
    (h : LexesBack edition hygiene (ascii type.text.toList) [.op type]) :
    (Token.op type).PrintsBack true := by
  have hop : ∀ type ∈ symbolTypes, type ∉ [TokenType.rwordYield, .dashEqual, .doubleLtEqual,
      .doubleGtEqual] ∧ type ≠ .hash →
        LexesBack edition hygiene (ascii type.text.toList) [.op type] :=
    fun type hmem hprints => lexesBack_op hmem ⟨hprints.1, fun _ => hprints.2⟩
  constructor
  · intro hmem
    simp only [List.mem_cons, List.not_mem_nil, or_false] at hmem
    rcases hmem with rfl | rfl | rfl | rfl
    · cases h.unique lexesBack_yeild
    · cases h.unique (hop .dash (by decide) (by decide))
    · cases h.unique (hop .lte (by decide) (by decide))
    · cases h.unique (hop .gte (by decide) (by decide))
  · rintro - rfl
    obtain ⟨t', hlexes, -⟩ := h.single
    exact not_lexes_hash hlexes

theorem ident_printsBack {name : List UInt8} (hname : SymName name)
    (h : LexesBack edition hygiene name [.ident name]) : (Token.ident name).PrintsBack true := by
  obtain ⟨cs, rfl, hcs⟩ := hname
  obtain ⟨t', hlexes, hstrip⟩ := h.single
  have hprint := sym_printable hcs
  have hspace : Printable [cp ' '] := by simp [Printable, cp]
  have htext : encode cs ++ [32] = encode (cs ++ [cp ' ']) := (encode_space cs []).symm
  rw [htext, ofSource_encode (hprint.append hspace).lt (hprint.append hspace).getcByte] at hlexes
  cases cs with
  | nil => cases hlexes.unique (lexes_space true)
  | cons c cs =>
    refine ⟨?_, ?_⟩
    · rw [encode_cons]
      simp [utf8_ne_nil (hcs c List.mem_cons_self).2]
    · rw [isdigit_head (hcs c List.mem_cons_self).2, ← Bool.not_eq_true]
      intro hdigit
      have hscan : scanToken .endOfFile edition hygiene true (c :: cs ++ [cp ' ']) =
          scanNumber .endOfFile (c :: cs ++ [cp ' ']) := by
        rw [List.cons_append, scanToken_sym (isdigit_not_sym_start hdigit), scanWord_digit hdigit]
      have hnumber : ∀ out, scanToken .endOfFile edition hygiene true (c :: cs ++ [cp ' ']) =
          .ok out → out.token.IsNumber := by
        intro out hout
        rw [hscan] at hout
        exact (@scanNumber_isNumber _ edition _ out hout).1
      have hhead := hlexes.head rfl (by
        intro out hout
        have := hnumber out hout
        cases htok : out.token <;> rw [htok] at this <;> first | rfl | exact this.elim)
      obtain ⟨out, hout, rfl⟩ := hhead
      have := hnumber out hout
      cases htok : out.token <;> rw [htok] at this hstrip <;> first | exact this.elim | cases hstrip

theorem string_printsBack {s : List UInt8} {contexts : Hygiene}
    (h : LexesBack edition hygiene (ascii (stringText s contexts)) [.string s contexts]) :
    (Token.string s contexts).PrintsBack true := by
  obtain ⟨t', hlexes, hstrip⟩ := h.single
  obtain ⟨hprint, htext⟩ := printable_ascii (all_stringText s contexts)
  have hspace : Printable [cp ' '] := by simp [Printable, cp]
  rw [htext, ← encode_nil, ← encode_space, ofSource_encode (hprint.append hspace).lt
    (hprint.append hspace).getcByte] at hlexes
  have hout : ∀ out, scanToken .endOfFile edition hygiene true
      ((stringText s contexts).map cp ++ [cp ' ']) = .ok out →
        out.token = .string (s.filter (· < 0x80)) hygiene := by
    intro out hout
    rw [scanToken_stringText, Lex.bind_eq_ok] at hout
    obtain ⟨⟨str, rest⟩, hscan, hout⟩ := hout
    obtain ⟨rfl, -⟩ := scanString_printed hscan
    cases hout
    rfl
  have hhead := hlexes.head rfl (by
    intro out h
    rw [hout out h]
    rfl)
  obtain ⟨out, h, rfl⟩ := hhead
  rw [hout out h] at hstrip
  have hfilter : s.filter (· < 0x80) = s := by
    injection hstrip
  intro b hb
  simpa using List.filter_eq_self.mp hfilter b hb

/-- The lexer in front of a printed byte string, with whatever its bytes decode to. -/
theorem ofSource_byteString (s : List UInt8) : ∃ stop,
    Lexer.ofSource edition hygiene ((Token.byteString s).toStr fmtDouble ++ [32]) =
      ⟨edition, hygiene, stop, true, [],
        cp 'b' :: cp '"' :: (getcCp (getcByte (s ++ [34, 32]))).1⟩ := by
  have hb : ∀ bs, getcCp (98 :: bs) = getcCp.push 98 (getcCp bs) :=
    getcCp_utf8 (c := 98) (by decide)
  have hquote : ∀ bs, getcCp (34 :: bs) = getcCp.push 34 (getcCp bs) :=
    getcCp_utf8 (c := 34) (by decide)
  have htext : (Token.byteString s).toStr fmtDouble ++ [32] = 98 :: 34 :: (s ++ [34, 32]) := by
    rw [byteString_text]
    simp
  rw [Lexer.ofSource, htext, getcByte_cons (by decide), getcByte_cons (by decide), hb, hquote]
  exact ⟨_, rfl⟩

theorem byteString_weight (s : List UInt8) :
    cpsWeight (getcCp (getcByte (s ++ [34, 32]))).1 ≤ bytesWeight s + 1 ∧
      ([13, 10] <:+: s → cpsWeight (getcCp (getcByte (s ++ [34, 32]))).1 < bytesWeight s + 1) := by
  have hcps := getcCp_weight_le (getcByte (s ++ [34, 32]))
  obtain ⟨hle, hlt⟩ := getcByte_weight_le (s ++ [34, 32])
  have hend : bytesWeight [34, 32] = 1 := by decide
  rw [bytesWeight_append, hend] at hle hlt
  refine ⟨hcps.trans hle, fun hi => lt_of_le_of_lt hcps (hlt ?_)⟩
  exact hi.trans (List.prefix_append s [34, 32]).isInfix

theorem byteString_printsBack {s : List UInt8}
    (h : LexesBack edition hygiene ((Token.byteString s).toStr fmtDouble) [.byteString s]) :
    (Token.byteString s).PrintsBack true := by
  obtain ⟨t', hlexes, hstrip⟩ := h.single
  obtain ⟨stop, hsource⟩ := @ofSource_byteString edition hygiene fmtDouble s
  rw [hsource] at hlexes
  have hscan : ∀ out, scanToken stop edition hygiene true
      (cp 'b' :: cp '"' :: (getcCp (getcByte (s ++ [34, 32]))).1) = .ok out → ∃ str,
        out.token = .byteString str ∧ scanString stop addByte []
          (getcCp (getcByte (s ++ [34, 32]))).1 = .ok (str, out.input) := by
    intro out hout
    rw [scanToken_byteString, Lex.bind_eq_ok] at hout
    obtain ⟨⟨str, rest⟩, hstr, hout⟩ := hout
    cases hout
    exact ⟨str, rfl, hstr⟩
  have hhead := hlexes.head rfl (by
    intro out hout
    obtain ⟨str, htok, -⟩ := hscan out hout
    rw [htok]
    rfl)
  obtain ⟨out, hout, rfl⟩ := hhead
  obtain ⟨str, htok, hstr⟩ := hscan out hout
  rw [htok] at hstrip
  cases hstrip
  obtain ⟨s', hs', hle, hplain⟩ := scanString_weight (getcCp_lt _) hstr
  obtain rfl : s = s' := hs'
  obtain ⟨hweight, hcrlf⟩ := byteString_weight s
  refine ⟨hplain (by omega), fun hi => ?_⟩
  have := hcrlf hi
  omega

/-- A token of the lexer that reads back alone is one of those that print back. -/
theorem Token.Covered.printsBack (ht : t.Covered edition)
    (h : LexesBack edition hygiene (t.toStr fmtDouble) [t]) : t.PrintsBack true := by
  obtain ⟨⟨hyg, source, ts, hlexes, hmem⟩, hcovered⟩ := ht
  have hlexed := hlexes.lexed (by intro u hu; cases hu) t hmem
  cases t with
  | op type => exact op_printsBack h
  | ident name => exact ident_printsBack hlexed h
  | string s contexts => exact string_printsBack h
  | byteString s => exact byteString_printsBack h
  | _ => trivial

/-- The texts behind the first read back as the other tokens. -/
theorem stringify_readsTail {ts : List Token}
    (hts : ∀ t ∈ ts, t.Covered edition ∧ t.StringifiesBack) (rv : List UInt8) (hrv : rv ≠ []) :
    ∃ out rest, stringify fmtDouble rv ts = some out ∧ out ++ [32] = rv ++ 32 :: encode rest ∧
      ReadsTail edition hygiene ts rest := by
  induction ts generalizing rv with
  | nil => exact ⟨rv, [], rfl, rfl, readsTail_nil⟩
  | cons t ts ih =>
    obtain ⟨⟨ht, hprints, hnul⟩, hts⟩ := List.forall_mem_cons.mp hts
    obtain ⟨c, cs, hreads⟩ := ht.readsBack hygiene fmtDouble hprints
    obtain ⟨out, rest, hout, htext, htail⟩ := ih hts (rv ++ [32] ++ t.toStr fmtDouble) (by simp)
    refine ⟨out, c :: cs ++ cp ' ' :: rest, ?_, ?_, readsTail_cons hreads htail⟩
    · rw [stringify, stringifyToken_eq hreads (hreads.nul hnul), if_neg hrv]
      exact hout
    · rw [htext, encode_space, ← hreads.eq]
      simp

/-- What `stringify!` makes of tokens that print back lexes to them. -/
theorem stringify_lexesBack {ts : List Token}
    (hts : ∀ t ∈ ts, t.Covered edition ∧ t.StringifiesBack)
    (hhash : ts.head? ≠ some (.op .hash)) :
    ∃ out, stringify fmtDouble [] ts = some out ∧ LexesBack edition hygiene out ts := by
  cases ts with
  | nil => exact ⟨[], rfl, [], lexes_space true, rfl⟩
  | cons t ts =>
    obtain ⟨⟨ht, hprints, hnul⟩, hts⟩ := List.forall_mem_cons.mp hts
    have hstart : t.PrintsBack true := by
      cases t with
      | op type =>
        refine ⟨hprints.1, ?_⟩
        rintro - rfl
        exact hhash rfl
      | _ => exact hprints
    obtain ⟨c, cs, hreads⟩ := ht.readsBack hygiene fmtDouble hstart
    have hne : t.toStr fmtDouble ≠ [] := by
      rw [hreads.eq, encode_cons]
      simp [utf8_ne_nil (hreads.valid c List.mem_cons_self)]
    obtain ⟨out, rest, hout, htext, htail⟩ :=
      stringify_readsTail hts (t.toStr fmtDouble) hne
    refine ⟨out, ?_, lexesBack_cons hreads htail htext⟩
    rw [stringify, stringifyToken_eq hreads (hreads.nul hnul), if_pos rfl]
    exact hout

/-- Which tokens the lexer reads back from their text, and that lists of them survive
`stringify!`. -/
theorem toStr_lexesBack_iff (fmtDouble : List UInt8 → List UInt8) (edition : Edition)
    (hygiene : Hygiene) :
    (∀ t : Token, t.Covered edition →
      (LexesBack edition hygiene (t.toStr fmtDouble) [t] ↔ t.PrintsBack true)) ∧
    ∀ ts : List Token, (∀ t ∈ ts, t.Covered edition ∧ t.StringifiesBack) →
      ts.head? ≠ some (.op .hash) →
        ∃ out, stringify fmtDouble [] ts = some out ∧ LexesBack edition hygiene out ts := by
  refine ⟨fun t ht => ⟨ht.printsBack, fun h => ?_⟩, fun ts => stringify_lexesBack⟩
  obtain ⟨c, cs, hreads⟩ := ht.readsBack hygiene fmtDouble h
  exact hreads.lexesBack

theorem LexesBack.covered_op {text : List UInt8} {type : TokenType}
    (h : LexesBack edition hygiene text [.op type]) : (Token.op type).Covered edition := by
  obtain ⟨t', hlexes, hstrip⟩ := h.single
  obtain rfl : t' = .op type := by
    cases t' <;> first | exact hstrip | cases hstrip
  exact ⟨⟨hygiene, _, _, hlexes, List.mem_singleton_self _⟩, trivial⟩

theorem plus_semicolon_lexesBack :
    LexesBack .rust2021 [] (ascii ['+']) [.op .plus] ∧
      ∃ out, stringify id [] [.op .plus, .op .semicolon] = some out ∧
        LexesBack .rust2021 [] out [.op .plus, .op .semicolon] := by
  have hplus : (Token.op .plus).PrintsBack true := ⟨by decide, by decide⟩
  have hsemi : (Token.op .semicolon).PrintsBack true := ⟨by decide, by decide⟩
  have hcplus : (Token.op .plus).Covered .rust2021 :=
    (lexesBack_op (by decide) hplus : LexesBack _ [] _ _).covered_op
  have hcsemi : (Token.op .semicolon).Covered .rust2021 :=
    (lexesBack_op (by decide) hsemi : LexesBack _ [] _ _).covered_op
  obtain ⟨hone, hlist⟩ := toStr_lexesBack_iff id .rust2021 []
  refine ⟨(hone _ hcplus).mpr hplus, hlist _ ?_ (by decide)⟩
  intro t ht
  rcases List.mem_cons.mp ht with rfl | ht
  · exact ⟨hcplus, ⟨by decide, by decide⟩, by rintro s ⟨⟩⟩
  · obtain rfl := List.mem_singleton.mp ht
    exact ⟨hcsemi, ⟨by decide, by decide⟩, by rintro s ⟨⟩⟩

/-- The reserved word `yield` prints as the identifier `yeild`. -/
theorem yield_not_lexesBack : (Token.op .rwordYield).Covered .rust2021 ∧
    ¬ LexesBack .rust2021 [] ((Token.op .rwordYield).toStr id) [.op .rwordYield] := by
  have hsyms : ∀ d ∈ ['y', 'i', 'e', 'l', 'd'].map cp, issym d = true ∧ d < 0x200000 := by decide
  have hread : Lexes (.ofInput .rust2021 [] _ _) _ := reads_word hsyms (by decide) true [] []
    (lexes_space false)
  have hfind : wordToken .rust2021 (encode (['y', 'i', 'e', 'l', 'd'].map cp)) =
      .op .rwordYield := by decide
  rw [← ofSource_encode (by decide) (by decide)] at hread
  refine ⟨⟨⟨_, _, _, hread, ?_⟩, trivial⟩, fun h => ?_⟩
  · rw [← hfind]
    exact List.mem_cons_self
  · cases h.unique lexesBack_yeild

end Tokens

end Mrustc.Parse
