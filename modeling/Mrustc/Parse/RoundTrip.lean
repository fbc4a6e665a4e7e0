import Mrustc.Parse.ByteWeight

/-! # Printing a token and lexing it back

Which tokens read back from their own text, and that `stringify!` of a list of such tokens
reads back as the list.
-/

namespace Mrustc.Parse
open Codec Codepoint

/-- The token is one that the lexer made of some source text. -/
def Token.Produced (edition : Edition) (t : Token) : Prop :=
  ∃ hygiene source ts, Lexes (.ofSource edition hygiene source) ts ∧ t ∈ ts

/-- Identifiers that are reserved words come from raw identifiers; floats are left out. -/
def Token.Covered (edition : Edition) (t : Token) : Prop :=
  t.Produced edition ∧ match t with
    | .ident name => lexFindReservedWord name edition = none
    | .float _ _ => False
    | _ => True

/-- With a space behind it, the text lexes to the tokens, up to hygiene. -/
def LexesBack (edition : Edition) (hygiene : Hygiene) (text : List UInt8) (ts : List Token) :
    Prop :=
  ∃ ts', Lexes (.ofSource edition hygiene (text ++ [32])) ts' ∧
    ts'.map Token.stripHygiene = ts.map Token.stripHygiene

/-- Well-formed UTF-8 without quotes, backslashes and CR LF pairs. -/
def PlainBytes (s : List UInt8) : Prop :=
  (∃ cs, s = encode cs ∧ ∀ c ∈ cs, c ≠ cp '"' ∧ c ≠ cp '\\' ∧ c < 0x200000) ∧ ¬ [13, 10] <:+: s

/-- The tokens that read back, at the start of the input or behind something else. -/
def Token.PrintsBack (atStart : Bool) : Token → Prop
  | .op type => type ∉ [.rwordYield, .dashEqual, .doubleLtEqual, .doubleGtEqual] ∧
      (atStart = true → type ≠ .hash)
  | .ident name => name ≠ [] ∧ isdigit (name.headD 0).toNat = false
  | .string s _ => ∀ b ∈ s, b < 0x80
  | .byteString s => PlainBytes s
  | _ => True

section Source

variable {edition : Edition} {hygiene : Hygiene}

theorem getcByte_append {b : UInt8} (hb : b ≠ 10) (bs ds : List UInt8) :
    getcByte (bs ++ b :: ds) = getcByte bs ++ getcByte (b :: ds) := by
  fun_induction getcByte bs with
  | case1 bs ih => rw [List.cons_append, List.cons_append, getcByte, ih, List.cons_append]
  | case2 c bs hne ih =>
    rw [List.cons_append, List.cons_append, getcByte, ih]
    intro tail hc ht
    cases bs with
    | nil =>
      cases ht
      exact hb rfl
    | cons d bs =>
      cases ht
      exact hne bs hc rfl
  | case3 => rfl

theorem ofSource_encode {cs : List ℕ} (hcs : ∀ c ∈ cs, c < 0x200000)
    (hcrlf : getcByte (encode cs) = encode cs) :
    Lexer.ofSource edition hygiene (encode cs) = .ofInput edition hygiene true cs := by
  have h := getcCp_encode hcs []
  rw [List.append_nil] at h
  simp [Lexer.ofSource, Lexer.ofInput, hcrlf, h, getcCp]

theorem utf8_high {c : ℕ} (hc : 128 ≤ c) : ∀ b ∈ utf8 c, ¬ b < 128 := by
  have h0 : c &&& 0x3F = c % 64 := Nat.and_two_pow_sub_one_eq_mod c 6
  have h6 : c >>> 6 &&& 0x3F = c / 64 % 64 := shiftRight_and_mask c 6 6
  have h12 : c >>> 12 &&& 0x3F = c / 4096 % 64 := shiftRight_and_mask c 12 6
  have hl : ∀ y < 64, ¬ (0x80 ||| y).toUInt8 < 128 := by decide
  have t0 := hl (c % 64) (by omega)
  have t6 := hl (c / 64 % 64) (by omega)
  have t12 := hl (c / 4096 % 64) (by omega)
  have l₂ := (lead_two (c / 64 % 32) (by omega)).1
  have l₃ := (lead_three (c / 4096 % 16) (by omega)).1
  have l₄ := (lead_four (c / 262144 % 8) (by omega)).1
  unfold utf8 appendCp
  rw [show c >>> 6 &&& 0x1F = c / 64 % 32 from shiftRight_and_mask c 6 5,
    show c >>> 12 &&& 0x0F = c / 4096 % 16 from shiftRight_and_mask c 12 4,
    show c >>> 18 &&& 0x07 = c / 262144 % 8 from shiftRight_and_mask c 18 3, h0, h6, h12]
  split_ifs with h
  · omega
  all_goals simp_all

/-- Text without carriage returns reads as it is. -/
theorem getcByte_encode {cs : List ℕ} (hcs : ∀ c ∈ cs, c ≠ 13) :
    getcByte (encode cs) = encode cs := by
  apply getcByte_eq_self
  intro hi
  have hmem : (13 : UInt8) ∈ encode cs := hi.subset List.mem_cons_self
  obtain ⟨c, hc, hb⟩ := List.mem_flatMap.mp hmem
  by_cases hlt : c < 128
  · rw [utf8_ascii hlt, List.mem_singleton] at hb
    apply hcs c hc
    have hn : c.toUInt8.toNat = c := UInt8.toNat_ofNat_of_lt (by unfold UInt8.size; omega)
    rw [← hn, ← hb]
    rfl
  · exact utf8_high (not_lt.mp hlt) 13 hb (by decide)

end Source

section Texts

variable {edition : Edition} {hygiene : Hygiene} {atStart : Bool} {fmtDouble : List UInt8 → List UInt8}

/-- No control characters, and nothing that the encoder refuses. -/
def Printable (cs : List ℕ) : Prop := ∀ c ∈ cs, 32 ≤ c ∧ c < 0x200000

theorem Printable.append {cs ds : List ℕ} (hcs : Printable cs) (hds : Printable ds) :
    Printable (cs ++ ds) := by
  intro c hc
  rcases List.mem_append.mp hc with hc | hc
  · exact hcs c hc
  · exact hds c hc

theorem Printable.lt {cs : List ℕ} (h : Printable cs) : ∀ c ∈ cs, c < 0x200000 := fun c hc =>
  (h c hc).2

theorem Printable.getcByte {cs : List ℕ} (h : Printable cs) :
    getcByte (encode cs) = encode cs := by
  apply getcByte_encode
  rintro c hc rfl
  exact absurd (h 13 hc).1 (by decide)

theorem mem_ascii_encode {b : UInt8} (hb : b < 128) {cs : List ℕ} (h : b ∈ encode cs) :
    b.toNat ∈ cs := by
  obtain ⟨c, hc, hbc⟩ := List.mem_flatMap.mp h
  by_cases hlt : c < 128
  · rw [utf8_ascii hlt, List.mem_singleton] at hbc
    have hn : c.toUInt8.toNat = c := UInt8.toNat_ofNat_of_lt (by unfold UInt8.size; omega)
    rwa [hbc, hn]
  · exact absurd hb (utf8_high (not_lt.mp hlt) b hbc)

theorem Printable.nul {cs : List ℕ} (h : Printable cs) : (0 : UInt8) ∉ encode cs := by
  intro h0
  exact absurd (h 0 (mem_ascii_encode (by decide) h0)).1 (by decide)

/-- The printed text of a token, whose codepoints the lexer reads as the token. -/
structure ReadsBack (edition : Edition) (hygiene : Hygiene) (atStart : Bool)
    (text : List UInt8) (t : Token) (c : ℕ) (cs : List ℕ) : Prop where
  eq : text = encode (c :: cs)
  notSpace : isspace c = false
  notBrace : c = cp '\x7b' → cs = []
  valid : ∀ d ∈ c :: cs, d < 0x200000
  crlf : getcByte (encode (c :: cs)) = encode (c :: cs)
  nul : (∀ s, t = .byteString s → 0 ∉ s) → 0 ∉ text
  reads : ∃ t', t'.stripHygiene = t.stripHygiene ∧ Reads edition hygiene atStart (c :: cs) t'

theorem readsBack_printable {c : ℕ} {cs : List ℕ} {t t' : Token} (hcs : Printable (c :: cs))
    (hc : isspace c = false) (hbrace : c = cp '\x7b' → cs = [])
    (hstrip : t'.stripHygiene = t.stripHygiene)
    (h : Reads edition hygiene atStart (c :: cs) t') :
    ReadsBack edition hygiene atStart (encode (c :: cs)) t c cs :=
  ⟨rfl, hc, hbrace, hcs.lt, hcs.getcByte, fun _ => hcs.nul, t', hstrip, h⟩

theorem printable_ascii {s : List Char} (hs : s.all fun c => 32 ≤ cp c && cp c < 128) :
    Printable (s.map cp) ∧ ascii s = encode (s.map cp) := by
  have h : ∀ c ∈ s, 32 ≤ cp c ∧ cp c < 128 := fun c hc => by
    simpa using List.all_eq_true.mp hs c hc
  refine ⟨fun d hd => ?_, ascii_eq_encode fun c hc => (h c hc).2⟩
  obtain ⟨c, hc, rfl⟩ := List.mem_map.mp hd
  have := h c hc
  omega

/-- The text of a token made of ASCII characters. -/
theorem readsBack_ascii {c : Char} {s : List Char} {t t' : Token}
    (hs : (c :: s).all fun c => 32 ≤ cp c && cp c < 128) (hc : isspace (cp c) = false)
    (hbrace : c = '\x7b' → s = []) (hstrip : t'.stripHygiene = t.stripHygiene)
    (h : Reads edition hygiene atStart ((c :: s).map cp) t') :
    ReadsBack edition hygiene atStart (ascii (c :: s)) t (cp c) (s.map cp) := by
  obtain ⟨hprint, htext⟩ := printable_ascii hs
  rw [htext]
  refine readsBack_printable hprint hc (fun he => ?_) hstrip h
  rw [hbrace (Char.toNat_inj.mp he), List.map_nil]

theorem all_toDigits {base : ℕ} (hbase : base = 10 ∨ base = 16) (n : ℕ) :
    (Nat.toDigits base n).all fun c => 32 ≤ cp c && cp c < 128 := by
  have hchar : ∀ d < 16, 32 ≤ cp (Nat.digitChar d) && cp (Nat.digitChar d) < 128 := by decide
  apply List.all_eq_true.mpr
  intro c hc
  obtain ⟨d, hd, rfl⟩ := mem_toDigits (by omega) hc
  exact hchar d (by omega)

theorem all_escapedByte (b : UInt8) :
    (escapedByte b).all fun c => 32 ≤ cp c && cp c < 128 := by
  unfold escapedByte
  split_ifs with h₁ h₂ h₃ h₄
  · rfl
  · rfl
  · rfl
  · have hlt : b.toNat < 127 := UInt8.lt_iff_toNat_lt.mp h₄.2
    have hle : 32 ≤ b.toNat := UInt8.le_iff_toNat_le.mp h₄.1
    simp [cp_ofNat b.toNat (by omega)]
    omega
  all_goals
    simp only [List.all_append, all_toDigits (Or.inr rfl)]
    rfl

theorem all_hygieneText {base : ℕ} (hbase : base = 10 ∨ base = 16) (contexts : Hygiene) :
    (hygieneText base contexts).all fun c => 32 ≤ cp c && cp c < 128 := by
  have hcontexts : (contextsText base contexts).all fun c => 32 ≤ cp c && cp c < 128 := by
    apply List.all_eq_true.mpr
    intro c hc
    rcases mem_intercalate hc with hc | ⟨ds, hds, hc⟩
    · exact List.all_eq_true.mp (by decide : [',', ' '].all fun c => 32 ≤ cp c && cp c < 128) c hc
    · obtain ⟨n, -, rfl⟩ := List.mem_map.mp hds
      exact List.all_eq_true.mp (all_toDigits hbase n) c hc
  rw [hygieneText, List.all_append, List.all_append, hcontexts]
  rfl

theorem all_stringText (s : List UInt8) (contexts : Hygiene) :
    (stringText s contexts).all fun c => 32 ≤ cp c && cp c < 128 := by
  have hbody : (s.flatMap escapedByte).all fun c => 32 ≤ cp c && cp c < 128 := by
    rw [List.all_flatMap]
    exact List.all_eq_true.mpr fun b _ => all_escapedByte b
  rw [stringText, List.all_append, List.all_append, List.all_append, hbody,
    all_hygieneText (printsHex_base s)]
  rfl

theorem all_charText (v : BitVec 128) :
    (charText v).all fun c => 32 ≤ cp c && cp c < 128 := by
  unfold charText
  split_ifs with h₁ h₂ h₃
  · rfl
  · rfl
  · simp only [List.all_cons, cp_ofNat v.toNat h₁.2, h₁]
    rfl
  · simp only [List.all_append, all_toDigits (Or.inr rfl)]
    rfl

theorem sym_printable {cs : List ℕ} (hcs : ∀ c ∈ cs, issym c = true ∧ c < 0x200000) :
    Printable cs := by
  intro c hc
  obtain ⟨hsym, hlt⟩ := hcs c hc
  refine ⟨?_, hlt⟩
  simp only [issym, isdigit, isalpha, cp, Bool.or_eq_true, Bool.and_eq_true, decide_eq_true_eq,
    beq_iff_eq, Char.reduceToNat] at hsym
  omega

theorem text_printable (type : TokenType) : ∃ c s, type.text.toList = c :: s ∧
    (c :: s).all (fun c => 32 ≤ cp c && cp c < 128) ∧ isspace (cp c) = false ∧
      (c = '\x7b' → s = []) := by
  cases type <;> exact ⟨_, _, String.toList_ofList, by decide +kernel⟩

theorem readsBack_op {type : TokenType} (hlexed : (Token.op type).Lexed edition)
    (h : (Token.op type).PrintsBack atStart) : ∃ c cs,
      ReadsBack edition hygiene atStart ((Token.op type).toStr fmtDouble) (.op type) c cs := by
  obtain ⟨hnot, hstart⟩ := h
  simp only [List.mem_cons, List.not_mem_nil, or_false, not_or] at hnot
  obtain ⟨c, s, htext, hall, hspace, hbrace⟩ := text_printable type
  have hreads : Reads edition hygiene atStart (type.text.toList.map cp) (.op type) := by
    rcases List.mem_append.mp hlexed with hsym | hword
    · exact reads_op (List.mem_filter.mpr ⟨hsym, by simp [hnot]⟩) hstart
    · exact reads_rword hword hnot.1 atStart
  rw [htext] at hreads
  refine ⟨cp c, s.map cp, ?_⟩
  rw [Token.toStr, htext]
  exact readsBack_ascii hall hspace hbrace rfl hreads

/-- The first byte of a name is a digit when its first codepoint is one. -/
theorem isdigit_head {c : ℕ} (hc : c < 0x200000) (cs : List ℕ) :
    isdigit ((encode (c :: cs)).headD 0).toNat = isdigit c := by
  rw [encode_cons]
  by_cases hlt : c < 128
  · have hn : c.toUInt8.toNat = c := UInt8.toNat_ofNat_of_lt (by unfold UInt8.size; omega)
    rw [utf8_ascii hlt, List.singleton_append, List.headD_cons, hn]
  · obtain ⟨b, bs, hb⟩ := List.exists_cons_of_ne_nil (utf8_ne_nil hc)
    have hhigh := utf8_high (not_lt.mp hlt) b (by rw [hb]; exact List.mem_cons_self)
    rw [UInt8.lt_iff_toNat_lt] at hhigh
    have h₁ : isdigit c = false := by simp [isdigit, cp]; omega
    have h₂ : isdigit b.toNat = false := by
      simp only [isdigit, cp, Bool.and_eq_false_iff, decide_eq_false_iff_not]
      exact Or.inr fun hle => hhigh (lt_of_le_of_lt hle (by decide))
    rw [hb, List.cons_append, List.headD_cons, h₁, h₂]

theorem readsBack_sym {c : ℕ} {cs : List ℕ} {t : Token}
    (hcs : ∀ d ∈ c :: cs, issym d = true ∧ d < 0x200000)
    (h : Reads edition hygiene atStart (c :: cs) t) :
    ReadsBack edition hygiene atStart (encode (c :: cs)) t c cs := by
  have hc := (hcs c List.mem_cons_self).1
  refine readsBack_printable (sym_printable hcs) (issym_facts hc).2.2.2.2 ?_ rfl h
  rintro rfl
  exact absurd hc (by decide)

theorem readsBack_ident {name : List UInt8} (hlexed : SymName name)
    (hword : lexFindReservedWord name edition = none)
    (h : (Token.ident name).PrintsBack atStart) : ∃ c cs,
      ReadsBack edition hygiene atStart name (.ident name) c cs := by
  obtain ⟨cs, rfl, hcs⟩ := hlexed
  obtain ⟨hne, hdigit⟩ := h
  cases cs with
  | nil => exact absurd rfl hne
  | cons c cs =>
    rw [isdigit_head (hcs c List.mem_cons_self).2] at hdigit
    have hreads : Reads edition hygiene _ _ _ := reads_word hcs hdigit atStart
    rw [wordToken, hword] at hreads
    exact ⟨c, cs, readsBack_sym hcs hreads⟩

theorem readsBack_lifetime {name : List UInt8} (hlexed : (Token.lifetime name).Lexed edition) :
    ∃ c cs, ReadsBack edition hygiene atStart ((Token.lifetime name).toStr fmtDouble)
      (.lifetime name) c cs := by
  obtain ⟨⟨cs, rfl, hcs⟩, hne⟩ := hlexed
  have hne' : cs ≠ [] := by
    rintro rfl
    exact hne rfl
  have hprint : Printable (cp '\'' :: cs) :=
    List.forall_mem_cons.mpr ⟨by decide, sym_printable hcs⟩
  exact ⟨cp '\'', cs, readsBack_printable hprint (by decide)
    (fun h => absurd h (by decide)) rfl (reads_lifetime hne' hcs atStart)⟩

theorem toDigits_head_facts {c : Char} (hc : c.isDigit = true) :
    isspace (cp c) = false ∧ c ≠ '\x7b' := by
  constructor
  · exact (issym_facts (isdigit_not_sym_start (isdigit_cp hc))).2.2.2.2
  · rintro rfl
    exact absurd hc (by decide)

theorem readsBack_integer {v : BitVec 128} {type : CoreType}
    (hlexed : (Token.integer v type).Lexed edition) : ∃ c cs,
      ReadsBack edition hygiene atStart ((Token.integer v type).toStr fmtDouble)
        (.integer v type) c cs := by
  obtain ⟨c, s, hdigits, hc⟩ := toDigits_head (n := v.toNat)
  obtain ⟨hspace, hbrace⟩ := toDigits_head_facts hc
  have hall := all_toDigits (Or.inl rfl) v.toNat
  by_cases hchar : type = .char
  · subst hchar
    obtain ⟨s, hs⟩ : ∃ s, charText v = '\'' :: s := by
      unfold charText
      split_ifs <;> exact ⟨_, rfl⟩
    have hreads : Reads edition hygiene _ _ _ := reads_char hlexed atStart
    have hall := all_charText v
    rw [hs] at hreads hall
    refine ⟨cp '\'', s.map cp, ?_⟩
    rw [Token.toStr, hs]
    exact readsBack_ascii hall (by decide) (fun h => absurd h (by decide)) rfl hreads
  · by_cases hany : type = .any
    · subst hany
      have hreads : Reads edition hygiene _ _ _ := reads_number v atStart
      rw [hdigits] at hreads hall
      refine ⟨cp c, s.map cp, ?_⟩
      rw [Token.toStr, hdigits]
      exact readsBack_ascii hall hspace (fun h => absurd h hbrace) rfl hreads
    · have hreads : Reads edition hygiene _ _ _ := reads_suffixed v ⟨hany, hchar⟩
        atStart
      have hname : ('_' :: (coretypeName type).toList).all fun c => 32 ≤ cp c && cp c < 128 := by
        cases type <;> decide
      have hall' : (Nat.toDigits 10 v.toNat ++ '_' :: (coretypeName type).toList).all
          fun c => 32 ≤ cp c && cp c < 128 := by
        rw [List.all_append, hall, hname]
        rfl
      have hstr : (Token.integer v type).toStr fmtDouble =
          ascii (Nat.toDigits 10 v.toNat ++ '_' :: (coretypeName type).toList) := by
        cases type <;> first | exact absurd rfl hany | exact absurd rfl hchar | rfl
      rw [hdigits, List.cons_append] at hreads hall' hstr
      refine ⟨cp c, (s ++ '_' :: (coretypeName type).toList).map cp, ?_⟩
      rw [hstr]
      exact readsBack_ascii hall' hspace (fun h => absurd h hbrace) rfl hreads

theorem readsBack_string {s : List UInt8} (hs : ∀ b ∈ s, b < 0x80) (contexts : Hygiene) :
    ∃ c cs, ReadsBack edition hygiene atStart ((Token.string s contexts).toStr fmtDouble)
      (.string s contexts) c cs := by
  obtain ⟨text, htext⟩ : ∃ text, stringText s contexts = '"' :: text := ⟨_, rfl⟩
  have hreads : Reads edition hygiene _ _ _ := reads_string hs contexts atStart
  have hall := all_stringText s contexts
  rw [htext] at hreads hall
  refine ⟨cp '"', text.map cp, ?_⟩
  have hstrip : (Token.string s hygiene).stripHygiene = (Token.string s contexts).stripHygiene :=
    rfl
  rw [Token.toStr, htext]
  exact readsBack_ascii hall (by decide) (fun h => absurd h (by decide)) hstrip hreads

theorem byteString_text (s : List UInt8) :
    (Token.byteString s).toStr fmtDouble = 98 :: 34 :: (s ++ [34]) := rfl

theorem readsBack_byteString {s : List UInt8} (hs : PlainBytes s) :
    ∃ c cs, ReadsBack edition hygiene atStart ((Token.byteString s).toStr fmtDouble)
      (.byteString s) c cs := by
  obtain ⟨⟨cs, rfl, hcs⟩, hcrlf⟩ := hs
  have htext : encode (cp 'b' :: cp '"' :: cs ++ [cp '"']) = 98 :: 34 :: (encode cs ++ [34]) := by
    rw [encode_append, encode_cons, encode_cons, utf8_ascii (by decide), utf8_ascii (by decide)]
    rfl
  refine ⟨cp 'b', cp '"' :: cs ++ [cp '"'], htext.symm ▸ rfl, by decide,
    fun h => absurd h (by decide), ?_, ?_, fun hnul => ?_, .byteString (encode cs), rfl,
    reads_byteString hcs atStart⟩
  · intro d hd
    simp only [List.cons_append, List.mem_cons, List.mem_append, List.not_mem_nil, or_false] at hd
    rcases hd with rfl | rfl | hd | rfl
    · decide
    · decide
    · exact (hcs d hd).2.2
    · decide
  · rw [← List.cons_append, htext, getcByte_cons (by decide), getcByte_cons (by decide),
      getcByte_append (by decide), getcByte_eq_self hcrlf]
    rfl
  · rw [byteString_text]
    simp [hnul (encode cs) rfl]

end Texts

end Mrustc.Parse
