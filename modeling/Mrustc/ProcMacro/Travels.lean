import Mrustc.ProcMacro.Streams

/-! # The tokens that travel to a macro and back

For each token, what the library reads of what the compiler sends, and what the compiler reads of
what the library sends back.
-/

namespace Mrustc.ProcMacro
open Codec
open Parse hiding utf8
open Protocol (utf8 fromUtf8 readEnt writeEnt getb getU128v getI128v getByteVec getString getF64 getChar
  putU128v putI128v putBytes)

/-- Left out are the entries of `visit_token` with a wrong text, the last character, signed integers
other than zero, and what is too long for the reader. -/
def Token.survives (edition : Edition) : Token → Bool
  | .op type => type ∉ [.dashEqual, .doubleLtEqual, .doubleGtEqual, .rwordYield]
  | .ident name => (identText edition name).length < 2 ^ 30
  | .lifetime name => name.length < 2 ^ 30
  | .integer v .char => v.toNat ≠ 0x10FFFF
  | .integer v ct => (intClass ct).map (·.1) ≠ some 8 ∨ v = 0
  | .float _ _ => true
  | .string s | .byteString s => s.length < 2 ^ 30

def Token.bytes (edition : Edition) (t : Token) : List UInt8 := (visitToken edition t).getD []

variable {edition : Edition} {t : Token} {e : Protocol.Token} {rest bs : List UInt8}
variable {trees s : List TokenTree} {type : TokenType}

section Symbols

/-- The call that the tables of the lexer ask for. -/
def expectedCall (edition : Edition) (type : TokenType) : Option SendCall :=
  match operatorText type with
  | some text => some (.symbol (.ofList text))
  | none => (reservedText edition type).map .rword

def SendCall.token : SendCall → Protocol.Token
  | .symbol val => .symbol val
  | .rword val => .ident val

theorem operatorTrees_eq (hb : isBracket type = false) :
    operatorTrees edition type = (expectedCall edition type).map fun call => tokenTrees call.token := by
  simp only [operatorTrees, expectedCall, hb, Bool.false_eq_true, if_false]
  cases operatorText type with
  | none => cases reservedText edition type <;> rfl
  | some text => simp [SendCall.token, tokenTrees]

theorem isBracket_of_trees (h : operatorTrees edition type = some trees) : isBracket type = false := by
  cases hb : isBracket type with
  | false => rfl
  | true => simp [operatorTrees, hb] at h

/-- What holds of the types by their numbers. -/
theorem forall_ofNat {p : TokenType → Prop} (h : ∀ n < 105, p (.ofNat n)) (type : TokenType) : p type := by
  have hlt : type.ctorIdx < 105 := by cases type <;> decide
  simpa only [TokenType.ofNat_ctorIdx] using h _ hlt

/-- All other entries of `visit_token` are what the lexer's tables say. -/
theorem sendCall_eq (h : (Token.op type).survives edition = true) :
    expectedCall edition type = none ∨ expectedCall edition type = some (sendCall type) := by
  revert type
  apply forall_ofNat
  have hall : ∀ edition ∈ [Edition.rust2015, .rust2018], ∀ n < 105,
      (Token.op (.ofNat n)).survives edition = true → expectedCall edition (.ofNat n) = none ∨
        expectedCall edition (.ofNat n) = some (sendCall (.ofNat n)) := by
    decide +kernel
  cases edition with
  | rust2015 => exact hall .rust2015 (.head _)
  | rust2018 => exact hall .rust2018 (.tail _ (.head _))
  | rust2021 => exact hall .rust2018 (.tail _ (.head _))

/-- The symbols that open or close something, the empty one included. -/
def isDelimiter (sym : String) : Bool :=
  sym = "" || (openedGroup sym).isSome || sym = "\x7d" || sym = "]" || sym = ")"

/-- The tokens that only add trees. -/
def isPlain : Protocol.Token → Bool
  | .symbol sym => !isDelimiter sym
  | .endOfStream | .spanRef _ | .spanDef _ => false
  | _ => true

theorem sendCall_plain (hb : isBracket type = false) : isPlain (sendCall type).token = true := by
  revert hb
  cases type <;> decide

/-- Whether the type is read back, with a text that is short and in ASCII. -/
def SendCall.readsAs (edition : Edition) (type : TokenType) : SendCall → Bool
  | .symbol val => (lexFindOperator (utf8 val) = some type) && (utf8 val).length ≤ 4 &&
      val.toList.all fun c => c.toNat < 128 && c ≠ '\''
  | .rword val => (lexFindReservedWord (utf8 val) edition = some type) && (utf8 val).length < 2 ^ 30

theorem utf8EncodeChar_ascii {c : Char} (h : c.toNat < 128) :
    String.utf8EncodeChar c = [UInt8.ofNat c.toNat] := by
  simp only [String.utf8EncodeChar]
  rw [if_pos (show c.val.toNat ≤ 127 from Nat.le_of_lt_succ h)]
  rfl

theorem utf8_ofList (l : List Char) : utf8 (.ofList l) = l.flatMap String.utf8EncodeChar := by
  simp [utf8, List.utf8Encode]

theorem utf8_ascii {l : List Char} (h : ∀ c ∈ l, c.toNat < 128) : utf8 (.ofList l) = ascii l := by
  rw [utf8_ofList, ascii]
  induction l with
  | nil => rfl
  | cons c l ih =>
    rcases List.forall_mem_cons.mp h with ⟨hc, hl⟩
    rw [List.flatMap_cons, utf8EncodeChar_ascii hc, ih hl]
    rfl

/-- A word of a sorted table is found in it. -/
theorem lexFindReservedWord_go {word : String} {words : List (String × TokenType)}
    (hs : words.Pairwise fun a b => ascii a.1.toList < ascii b.1.toList) (h : (word, type) ∈ words) :
    lexFindReservedWord.go (ascii word.toList) words = some type := by
  induction words with
  | nil => cases h
  | cons entry words ih =>
    rcases List.pairwise_cons.mp hs with ⟨hentry, hwords⟩
    rw [lexFindReservedWord.go]
    rcases List.mem_cons.mp h with rfl | h
    · rw [if_neg (List.lt_irrefl _), if_pos rfl]
    · have hlt : ascii entry.1.toList < ascii word.toList := hentry _ h
      have hne : ascii word.toList ≠ ascii entry.1.toList := fun heq => List.lt_irrefl _ (heq ▸ hlt)
      rw [if_neg (List.lt_asymm hlt), if_neg hne, ih hwords h]

/-- A symbol of a sorted table is found in it. -/
theorem lexFindOperator_go {text : List Char} {symbols : List (List Char × SymType)}
    (hs : symbols.Pairwise fun a b => ascii a.1 < ascii b.1) (h : (text, .tok type) ∈ symbols) :
    lexFindOperator.go (ascii text) symbols = some type := by
  induction symbols with
  | nil => cases h
  | cons entry symbols ih =>
    rcases List.pairwise_cons.mp hs with ⟨hentry, hsymbols⟩
    rcases entry with ⟨chars, symType⟩
    rcases List.mem_cons.mp h with heq | h
    · cases heq
      rw [lexFindOperator.go, if_neg (List.lt_irrefl _), if_pos rfl]
    · have hlt : ascii chars < ascii text := hentry _ h
      have hne : ascii text ≠ ascii chars := fun heq => List.lt_irrefl _ (heq ▸ hlt)
      have htail := ih hsymbols h
      cases symType <;> simp [lexFindOperator.go, List.lt_asymm hlt, hne, htail]

/-- The tables are sorted and in ASCII. No word looks like a raw identifier, and of the symbols only the quotes have a
quote. -/
theorem tables : (∀ words ∈ [rwords2015, rwords2018],
    (words.IsChain fun a b => ascii a.1.toList < ascii b.1.toList) ∧ (words.all fun e =>
      e.1.toList.length < 16 && e.1.toList.all fun c => c.toNat < 128) = true ∧
      ((words.map (·.1)).all fun word => !(utf8 "r#").isPrefixOf (ascii word.toList)) = true) ∧
    (tokenmap.IsChain fun a b => ascii a.1 < ascii b.1) ∧
    (tokenmap.all fun e => e.1.length ≤ 4 && ascii e.1 ≠ ascii ['_'] &&
      e.1.all fun c => c.toNat < 128 && (e.2 = .singleQuote || c ≠ '\'')) = true ∧
    (sendCall .underscore).readsAs .rust2015 .underscore = true := by
  decide +kernel

theorem rwords_mem (edition : Edition) : rwords edition ∈ [rwords2015, rwords2018] := by
  cases edition with
  | rust2015 => exact .head _
  | rust2018 => exact .tail _ (.head _)
  | rust2021 => exact .tail _ (.head _)

theorem rwords_sorted (edition : Edition) :
    (rwords edition).Pairwise fun a b => ascii a.1.toList < ascii b.1.toList := by
  rw [← List.isChain_iff_pairwise]
  exact (tables.1 _ (rwords_mem edition)).1

theorem tokenmap_sorted : tokenmap.Pairwise fun a b => ascii a.1 < ascii b.1 := by
  rw [← List.isChain_iff_pairwise]
  exact tables.2.1

theorem readsAs_symbol {e : List Char × SymType} (he : e ∈ tokenmap) (htype : e.2 = .tok type) :
    (SendCall.symbol (.ofList e.1)).readsAs edition type = true := by
  have hall := List.all_eq_true.mp tables.2.2.1 e he
  simp only [Bool.and_eq_true, decide_eq_true_eq, List.all_eq_true, htype, reduceCtorEq, decide_false,
    Bool.false_or, ne_eq] at hall
  rcases hall with ⟨⟨hlength, hne⟩, hchars⟩
  have hutf8 : utf8 (.ofList e.1) = ascii e.1 := utf8_ascii fun c hc => (hchars c hc).1
  have hmem : (e.1, .tok type) ∈ tokenmap := htype ▸ he
  rw [SendCall.readsAs, hutf8, lexFindOperator, if_neg hne, lexFindOperator_go tokenmap_sorted hmem]
  simp only [decide_true, Bool.true_and, ascii, List.length_map, hlength, String.toList_ofList, List.all_eq_true,
    Bool.and_eq_true, decide_eq_true_eq]
  exact hchars

theorem readsAs_rword {e : String × TokenType} (he : e ∈ rwords edition) (htype : e.2 = type) :
    (SendCall.rword e.1).readsAs edition type = true := by
  have hall := List.all_eq_true.mp (tables.1 _ (rwords_mem edition)).2.1 e he
  simp only [Bool.and_eq_true, decide_eq_true_eq, List.all_eq_true] at hall
  have hutf8 : utf8 e.1 = ascii e.1.toList := by
    rw [← utf8_ascii hall.2, String.ofList_toList]
  have hmem : (e.1, type) ∈ rwords edition := htype ▸ he
  rw [SendCall.readsAs, hutf8, lexFindReservedWord, lexFindReservedWord_go (rwords_sorted edition) hmem]
  simp [ascii]
  omega

theorem sendCall_readsAs (h : expectedCall edition type = some (sendCall type)) :
    (sendCall type).readsAs edition type = true := by
  rw [expectedCall] at h
  cases hop : operatorText type with
  | some text =>
    rw [hop] at h
    rw [← Option.some.inj h]
    rw [operatorText] at hop
    split_ifs at hop with hunder
    · cases hop
      subst hunder
      exact tables.2.2.2
    · rcases Option.map_eq_some_iff.mp hop with ⟨e, hfind, rfl⟩
      have htype : e.2 = .tok type := by simpa using List.find?_some hfind
      exact readsAs_symbol (List.mem_of_find?_eq_some hfind) htype
  | none =>
    rw [hop] at h
    rcases Option.map_eq_some_iff.mp h with ⟨word, hword, hcall⟩
    rcases Option.map_eq_some_iff.mp hword with ⟨e, hfind, rfl⟩
    rw [← hcall]
    exact readsAs_rword (List.mem_of_find?_eq_some hfind) (by simpa using List.find?_some hfind)

end Symbols

section Library

theorem putBytes_singleton (b : UInt8) : putBytes [b] = [1, b] := by
  have hone : putU128v (BitVec.ofNat 128 [b].length) = varint 1 := rfl
  rw [putBytes, hone, varint]
  rfl

/-- The puncts of a symbol are gathered into it again. -/
theorem sendInner_symbol {buf : List UInt8} {cs : List Char} (hne : cs ≠ [])
    (hlen : (buf ++ cs.flatMap String.utf8EncodeChar).length ≤ 4) :
    sendInner (.symbol buf) (puncts cs ++ s) = (sendInner .none s).map
      (Protocol.writeSym (buf ++ cs.flatMap String.utf8EncodeChar) ++ ·) := by
  induction cs generalizing buf with
  | nil => exact absurd rfl hne
  | cons c cs ih =>
    have hc : (buf ++ String.utf8EncodeChar c).length ≤ 4 := by
      simp only [List.flatMap_cons, List.length_append] at hlen ⊢
      omega
    cases cs with
    | nil =>
      simp only [puncts, List.cons_append, List.nil_append, sendInner, hc, if_true, List.flatMap_cons,
        List.flatMap_nil, List.append_nil]
      cases sendInner .none s <;> rfl
    | cons c' cs =>
      simp only [puncts, List.cons_append, sendInner, hc, if_true]
      rw [ih (by simp) (by simpa using hlen)]
      simp

theorem sendInner_puncts {c : Char} {cs : List Char} (hascii : c.toNat < 128) (hquote : c ≠ '\'')
    (hlen : ((c :: cs).flatMap String.utf8EncodeChar).length ≤ 4) :
    sendInner .none (puncts (c :: cs) ++ s) = (sendInner .none s).map
      (writeEnt (.symbol (.ofList (c :: cs))) ++ ·) := by
  cases cs with
  | nil =>
    have hsym : writeEnt (.symbol (.ofList [c])) = Protocol.writeSym1 c := by
      rw [writeEnt, utf8_ofList, List.flatMap_cons, List.flatMap_nil, List.append_nil,
        utf8EncodeChar_ascii hascii, putBytes_singleton]
      rfl
    simp only [puncts, List.cons_append, List.nil_append, sendInner, hquote, if_false, hsym]
    cases sendInner .none s <;> rfl
  | cons c' cs =>
    simp only [puncts, List.cons_append, sendInner, hquote, if_false]
    rw [sendInner_symbol (by simp) hlen, writeEnt, utf8_ofList, List.flatMap_cons]
    rfl

end Library

section Compiler

theorem sendBytes_eq {v : List UInt8} (h : v.length < 2 ^ 64) : sendBytes v = putBytes v := by
  rw [sendBytes, putBytes, sendV128u, putU128v, BitVec.toNat_ofNat, BitVec.toNat_ofNat,
    Nat.mod_eq_of_lt h, Nat.mod_eq_of_lt (by omega)]

theorem recvV128u_varint {n : ℕ} (h : n < 2 ^ 64) :
    recvV128u (varint n ++ rest) = some (BitVec.ofNat 64 n, rest) := by
  rw [recvV128u, readVarint_append (by norm_num) (by simpa using h) (fun _ _ => rfl)]
  simp

theorem recvV128uU128_put (v : BitVec 128) : recvV128uU128 (putU128v v ++ rest) = some (v, rest) := by
  rw [recvV128uU128, putU128v, readVarint_append (by norm_num) (by simpa using v.isLt) (fun _ _ => rfl)]
  simp

theorem recvBytes_put {v : List UInt8} (h : v.length < 2 ^ 64 - 1) :
    recvBytes (putBytes v ++ rest) = some (v, rest) := by
  have hlen : (BitVec.ofNat 128 v.length).toNat = v.length := by
    rw [BitVec.toNat_ofNat]
    exact Nat.mod_eq_of_lt (by omega)
  have hlen' : (BitVec.ofNat 64 v.length).toNat = v.length := by
    rw [BitVec.toNat_ofNat]
    exact Nat.mod_eq_of_lt (by omega)
  rw [recvBytes, putBytes, List.append_assoc, putU128v, hlen, recvV128u_varint (by omega)]
  simp only [Option.bind_eq_bind, Option.bind_some, hlen']
  rw [if_pos ⟨h, by simp⟩, List.take_left, List.drop_left]

end Compiler

section Tokens

/-- The token is sent as `e`, which becomes its trees, is sent back from them and read as the token. -/
structure Travels (edition : Edition) (t : Token) (trees : List TokenTree) (e : Protocol.Token) : Prop where
  sent : t.bytes edition = writeEnt e
  plain : isPlain e = true
  short : e.readsBack = true
  trees : tokenTrees e = trees
  back (s : List TokenTree) : sendInner .none (tokenTrees e ++ s) = (sendInner .none s).map (writeEnt e ++ ·)
  received (rest : List UInt8) :
    realGetToken edition ⟨false, writeEnt e ++ rest⟩ = some (some t, ⟨false, rest⟩)

theorem SendCall.bytes_eq (call : SendCall) (h : call.token.readsBack = true) :
    call.bytes = writeEnt call.token := by
  cases call with
  | symbol val | rword val =>
    simp only [token, Protocol.Token.readsBack, decide_eq_true_eq] at h
    simp only [bytes, sendSymbol, sendRword, token, writeEnt]
    rw [sendBytes_eq (by omega)]

theorem lexFindOperator_nil : lexFindOperator [] = none := by decide

theorem symbolToken_utf8 {val : String} (h : lexFindOperator (utf8 val) = some type) :
    symbolToken (utf8 val) = some (some (.op type)) := by
  rw [symbolToken, if_neg, h]
  · rfl
  · intro hnil
    rw [hnil, lexFindOperator_nil] at h
    cases h

theorem realGetToken_of_recvToken {cls : UInt8} (h : recvToken edition cls bs = some (some t, rest)) :
    realGetToken edition ⟨false, cls :: bs⟩ = some (some t, ⟨false, rest⟩) := by
  rw [realGetToken, if_neg (by simp)]
  simp [recvU8, h]

theorem recvToken_symbol {val : List UInt8} {tok : Option Token} (hlen : val.length < 2 ^ 30)
    (h : symbolToken val = some tok) : recvToken edition 1 (putBytes val ++ rest) = some (tok, rest) := by
  change ((recvBytes (putBytes val ++ rest)).bind fun x => (symbolToken x.1).bind fun tok =>
    some (tok, x.2)) = _
  rw [recvBytes_put (by omega), Option.bind_some, h, Option.bind_some]

theorem recvToken_ident {val : List UInt8} (hlen : val.length < 2 ^ 30) :
    recvToken edition 2 (putBytes val ++ rest) = some (some (identToken edition val), rest) := by
  change ((recvBytes (putBytes val ++ rest)).bind fun x => some (some (identToken edition x.1), x.2)) = _
  rw [recvBytes_put (by omega), Option.bind_some]

theorem recvToken_bytes {cls : UInt8} {make : List UInt8 → Token}
    (hcls : (cls, make) ∈ [(3, Token.lifetime), (4, Token.string), (5, Token.byteString)])
    {val : List UInt8} (hlen : val.length < 2 ^ 30) :
    recvToken edition cls (putBytes val ++ rest) = some (some (make val), rest) := by
  have hbind : recvToken edition cls (putBytes val ++ rest) =
      (recvBytes (putBytes val ++ rest)).bind fun x => some (some (make x.1), x.2) := by
    simp only [List.mem_cons, Prod.mk.injEq, List.not_mem_nil, or_false] at hcls
    obtain ⟨rfl, rfl⟩ | ⟨rfl, rfl⟩ | ⟨rfl, rfl⟩ := hcls <;> rfl
  rw [hbind, recvBytes_put (by omega), Option.bind_some]

theorem travels_symbol {val : String} (hread : (SendCall.symbol val).readsAs edition type = true)
    (hc : sendCall type = .symbol val) (hplain : isPlain (.symbol val) = true) :
    Travels edition (.op type) (puncts val.toList) (.symbol val) := by
  simp only [SendCall.readsAs, Bool.and_eq_true, decide_eq_true_eq, List.all_eq_true] at hread
  obtain ⟨⟨hfind, hlen⟩, hascii⟩ := hread
  have hshort : (SendCall.symbol val).token.readsBack = true := by
    simp only [SendCall.token, Protocol.Token.readsBack, decide_eq_true_eq]
    omega
  exact {
    sent := by
      rw [← SendCall.token, ← SendCall.bytes_eq _ hshort, ← hc]
      rfl
    plain := hplain
    short := hshort
    trees := rfl
    back := fun s => by
      obtain ⟨c, cs, hcs⟩ : ∃ c cs, val.toList = c :: cs := by
        refine List.exists_cons_of_ne_nil fun hnil => ?_
        have hempty : val = "" := String.toList_eq_nil_iff.mp hnil
        rw [hempty] at hplain
        exact absurd hplain (by decide)
      have hval : val = .ofList (c :: cs) := by rw [← hcs, String.ofList_toList]
      obtain ⟨hc, hquote⟩ := hascii c (by simp [hcs])
      rw [tokenTrees, hcs, hval]
      rw [hval, utf8_ofList] at hlen
      exact sendInner_puncts hc hquote hlen
    received := fun rest =>
      realGetToken_of_recvToken (recvToken_symbol (by omega) (symbolToken_utf8 hfind)) }

theorem travels_rword {val : String} (hread : (SendCall.rword val).readsAs edition type = true)
    (hc : sendCall type = .rword val) : Travels edition (.op type) [.ident false val] (.ident val) := by
  simp only [SendCall.readsAs, Bool.and_eq_true, decide_eq_true_eq] at hread
  obtain ⟨hfind, hlen⟩ := hread
  have hshort : (SendCall.rword val).token.readsBack = true := by
    simpa [SendCall.token, Protocol.Token.readsBack] using hlen
  exact {
    sent := by
      rw [← SendCall.token, ← SendCall.bytes_eq _ hshort, ← hc]
      rfl
    plain := rfl
    short := hshort
    trees := rfl
    back := fun s => by
      simp only [tokenTrees, List.cons_append, List.nil_append, sendInner]
      cases sendInner .none s <;> rfl
    received := fun rest => by
      have htok : identToken edition (utf8 val) = .op type := by rw [identToken, hfind]
      rw [← htok]
      exact realGetToken_of_recvToken (recvToken_ident hlen) }

theorem travels_op (ht : operatorTrees edition type = some trees)
    (hs : (Token.op type).survives edition = true) :
    Travels edition (.op type) trees (sendCall type).token := by
  have hb := isBracket_of_trees ht
  have hcall : expectedCall edition type = some (sendCall type) := by
    obtain hnone | hsome := sendCall_eq hs
    · rw [operatorTrees_eq hb, hnone] at ht
      cases ht
    · exact hsome
  have hread := sendCall_readsAs hcall
  have hplain := sendCall_plain hb
  rw [operatorTrees_eq hb, hcall] at ht
  cases Option.some.inj ht
  cases hc : sendCall type with
  | symbol val =>
    rw [hc] at hread hplain
    exact travels_symbol hread hc hplain
  | rword val =>
    rw [hc] at hread
    exact travels_rword hread hc

theorem mem_rwords_of_find {name : List UInt8} (h : lexFindReservedWord name edition = some type) :
    ∃ word ∈ (rwords edition).map (·.1), name = ascii word.toList := by
  rw [lexFindReservedWord] at h
  generalize rwords edition = words at h ⊢
  induction words with
  | nil => cases h
  | cons e words ih =>
    obtain ⟨word, type'⟩ := e
    rw [lexFindReservedWord.go] at h
    split_ifs at h with hlt heq
    · exact ⟨word, List.mem_cons_self, heq⟩
    · obtain ⟨word', hmem, hname⟩ := ih h
      exact ⟨word', List.mem_cons_of_mem _ hmem, hname⟩

/-- No reserved word looks like a raw identifier. -/
theorem lexFindReservedWord_raw (name : List UInt8) :
    lexFindReservedWord (utf8 "r#" ++ name) edition = none := by
  cases h : lexFindReservedWord (utf8 "r#" ++ name) edition with
  | none => rfl
  | some type =>
    obtain ⟨word, hmem, hname⟩ := mem_rwords_of_find h
    have := List.all_eq_true.mp (tables.1 _ (rwords_mem edition)).2.2 word hmem
    rw [← hname, List.isPrefixOf_iff_prefix.mpr (List.prefix_append _ _)] at this
    cases this

theorem identToken_identText {name : List UInt8} (hc : cStr name = name) (hraw : name.take 2 ≠ utf8 "r#") :
    identToken edition (identText edition name) = .ident name := by
  cases h : lexFindReservedWord name edition with
  | none => simp [identText, identToken, h, hraw]
  | some type =>
    have hlen : (utf8 "r#").length = 2 := by decide
    have htake : (utf8 "r#" ++ name).take 2 = utf8 "r#" := List.take_left' hlen
    have hdrop : (utf8 "r#" ++ name).drop 2 = name := List.drop_left' hlen
    simp [identText, identToken, h, lexFindReservedWord_raw, htake, hdrop, hc]

theorem sendIdent_eq {name : List UInt8} (h : name.length < 2 ^ 63) :
    sendIdent edition name = 2 :: putBytes (identText edition name) := by
  have hlen : (utf8 "r#").length = 2 := by decide
  rw [sendIdent, identText]
  split
  · rw [← sendBytes_eq (by simp [hlen]; omega), sendBytes, List.length_append, hlen, List.append_assoc]
  · rw [sendBytes_eq (by omega)]

theorem travels_ident {name : List UInt8} (ht : (Token.ident name).trees edition = some trees)
    (hw : (Token.ident name).WellFormed) (hs : (Token.ident name).survives edition = true) :
    ∃ e, Travels edition (.ident name) trees e := by
  obtain ⟨val, hval, rfl⟩ := Option.map_eq_some_iff.mp ht
  obtain ⟨hc, hraw, hlen⟩ := hw
  have htext := Protocol.utf8_of_fromUtf8 hval
  have hshort : (utf8 val).length < 2 ^ 30 := by simpa [Token.survives, htext] using hs
  refine ⟨.ident val, ?_, rfl, by simpa [Protocol.Token.readsBack] using hshort, rfl, fun s => ?_,
    fun rest => ?_⟩
  · rw [writeEnt, htext, ← sendIdent_eq hlen]
    simp only [Token.bytes, visitToken, hc]
    rfl
  · simp only [tokenTrees, List.cons_append, List.nil_append, sendInner]
    cases sendInner .none s <;> rfl
  · refine realGetToken_of_recvToken ((recvToken_ident hshort).trans ?_)
    rw [htext, identToken_identText hc hraw]

theorem travels_lifetime {name : List UInt8} (ht : (Token.lifetime name).trees edition = some trees)
    (hw : (Token.lifetime name).WellFormed) (hs : (Token.lifetime name).survives edition = true) :
    ∃ e, Travels edition (.lifetime name) trees e := by
  obtain ⟨val, hval, rfl⟩ := Option.map_eq_some_iff.mp ht
  obtain ⟨hc, hlen⟩ := hw
  have htext := Protocol.utf8_of_fromUtf8 hval
  have hshort : (utf8 val).length < 2 ^ 30 := by simpa [Token.survives, htext] using hs
  refine ⟨.lifetime val, ?_, rfl, by simpa [Protocol.Token.readsBack] using hshort, rfl, fun s => ?_,
    fun rest => ?_⟩
  · simp only [Token.bytes, visitToken, hc, sendLifetime, writeEnt, htext]
    rw [sendBytes_eq (by omega)]
    rfl
  · simp only [tokenTrees, List.cons_append, List.nil_append, sendInner, if_true]
    cases sendInner .none s <;> rfl
  · rw [← htext]
    exact realGetToken_of_recvToken (recvToken_bytes (by simp) hshort)

theorem travels_string {str : List UInt8} (ht : (Token.string str).trees edition = some trees)
    (hw : (Token.string str).WellFormed) (hs : (Token.string str).survives edition = true) :
    ∃ e, Travels edition (.string str) trees e := by
  obtain ⟨val, hval, rfl⟩ := Option.map_eq_some_iff.mp ht
  have hlen : str.length < 2 ^ 63 := hw
  have htext := Protocol.utf8_of_fromUtf8 hval
  have hshort : (utf8 val).length < 2 ^ 30 := by simpa [Token.survives, htext] using hs
  refine ⟨.string val, ?_, rfl, by simpa [Protocol.Token.readsBack] using hshort, rfl, fun s => ?_,
    fun rest => ?_⟩
  · simp only [Token.bytes, visitToken, sendString, writeEnt, htext]
    rw [sendBytes_eq (by omega)]
    rfl
  · simp only [tokenTrees, List.cons_append, List.nil_append, sendInner, literalToken]
    cases sendInner .none s <;> rfl
  · rw [← htext]
    exact realGetToken_of_recvToken (recvToken_bytes (by simp) hshort)

theorem travels_byteString {str : List UInt8} (hw : (Token.byteString str).WellFormed)
    (hs : (Token.byteString str).survives edition = true) :
    Travels edition (.byteString str) [.literal (.byteString str)] (.byteString str) := by
  have hlen : str.length < 2 ^ 63 := hw
  have hshort : str.length < 2 ^ 30 := by simpa [Token.survives] using hs
  refine ⟨?_, rfl, by simpa [Protocol.Token.readsBack] using hshort, rfl, fun s => ?_, fun rest => ?_⟩
  · simp only [Token.bytes, visitToken, sendByteString, writeEnt]
    rw [sendBytes_eq (by omega)]
    rfl
  · simp only [tokenTrees, List.cons_append, List.nil_append, sendInner, literalToken]
    cases sendInner .none s <;> rfl
  · exact realGetToken_of_recvToken (recvToken_bytes (by simp) hshort)

theorem charTrees_eq (edition : Edition) {v : BitVec 128} (ht : charTrees v = some trees) :
    ∃ c : Char, c.toNat = v.toNat ∧ trees = [.literal (.charLit c)] ∧
      (Token.integer v .char).bytes edition = writeEnt (.char c) := by
  rw [charTrees] at ht
  split at ht
  · rename_i hvalid
    cases ht
    have hlt : v.toNat < 0x110000 := by
      obtain h | h := hvalid <;> omega
    have hc : (Char.ofNatAux v.toNat hvalid).toNat = v.toNat := rfl
    have hv : (BitVec.ofNat 128 v.toNat).toNat = v.toNat := by simp
    have hv' : (v.setWidth 32).toNat = v.toNat := by
      rw [BitVec.toNat_setWidth]
      exact Nat.mod_eq_of_lt (by omega)
    refine ⟨Char.ofNatAux v.toNat hvalid, rfl, rfl, ?_⟩
    simp only [Token.bytes, visitToken, sendChar, sendV128u, writeEnt, hc, putU128v, hv, hv']
    rfl
  · cases ht

theorem travels_char {v : BitVec 128} (ht : charTrees v = some trees)
    (hs : (Token.integer v .char).survives edition = true) :
    ∃ e, Travels edition (.integer v .char) trees e := by
  obtain ⟨c, hc, rfl, hsent⟩ := charTrees_eq edition ht
  have hlt : v.toNat < 2 ^ 64 := by
    rw [← hc]
    exact c.val.toNat_lt.trans (by norm_num)
  refine ⟨.char c, hsent, rfl, ?_, rfl, fun s => ?_, fun rest => ?_⟩
  · simpa [Protocol.Token.readsBack, hc, Token.survives] using hs
  · simp only [tokenTrees, List.cons_append, List.nil_append, sendInner, literalToken]
    cases sendInner .none s <;> rfl
  · have hv : (BitVec.ofNat 128 v.toNat).toNat = v.toNat := by simp
    have hv' : (BitVec.ofNat 64 v.toNat).setWidth 128 = v := by
      apply BitVec.eq_of_toNat_eq
      rw [BitVec.toNat_setWidth, BitVec.toNat_ofNat]
      omega
    refine realGetToken_of_recvToken ?_
    change ((recvV128u (putU128v (BitVec.ofNat 128 c.toNat) ++ rest)).bind fun x =>
      some (some (Token.integer (x.1.setWidth 128) .char), x.2)) = _
    rw [putU128v, hc, hv, recvV128u_varint hlt, Option.bind_some, hv']

theorem intClass_unsigned {ct : CoreType} {size : UInt8} (h : intClass ct = some (7, size)) :
    unsignedType size = some ct := by
  cases ct <;> cases h <;> rfl

theorem intClass_signed {ct : CoreType} {size : UInt8} (h : intClass ct = some (8, size)) :
    signedType size = some ct := by
  cases ct <;> cases h <;> rfl

theorem floatType_floatSize {ct : CoreType} {size : UInt8} (h : floatSize ct = some size) :
    floatType size = some ct := by
  cases ct <;> cases h <;> rfl

theorem intClass_cases {ct : CoreType} {cls size : UInt8} (h : intClass ct = some (cls, size)) :
    cls = 7 ∨ cls = 8 := by
  cases ct <;> cases h <;> simp

theorem visitToken_integer {v : BitVec 128} {ct : CoreType} (h : ct ≠ .char) :
    visitToken edition (.integer v ct) = sendInt ct v := by
  cases ct <;> first | rfl | exact absurd rfl h

theorem trees_integer {v : BitVec 128} {ct : CoreType} (h : ct ≠ .char) :
    (Token.integer v ct).trees edition = integerTrees v ct := by
  cases ct <;> first | rfl | exact absurd rfl h

theorem survives_integer {v : BitVec 128} {ct : CoreType} (h : ct ≠ .char) :
    (Token.integer v ct).survives edition = decide ((intClass ct).map (·.1) ≠ some 8 ∨ v = 0) := by
  cases ct <;> first | rfl | exact absurd rfl h

theorem zero_readsBack (size : UInt8) : (Protocol.Token.signed 0 size).readsBack = true := rfl

theorem putI128v_zero : putI128v 0 = varint 0 := rfl

theorem travels_integer {v : BitVec 128} {ct : CoreType} (hchar : ct ≠ .char)
    (ht : integerTrees v ct = some trees) (hs : (Token.integer v ct).survives edition = true) :
    ∃ e, Travels edition (.integer v ct) trees e := by
  obtain ⟨⟨cls, size⟩, hcls, htrees⟩ := Option.bind_eq_some_iff.mp ht
  have hsent : visitToken edition (.integer v ct) = some (cls :: size :: sendV128u v) := by
    rw [visitToken_integer hchar, sendInt, hcls]
    rfl
  obtain rfl | rfl := intClass_cases hcls
  · cases htrees
    refine ⟨.unsigned v size, ?_, rfl, rfl, rfl, fun s => ?_, fun rest => ?_⟩
    · rw [Token.bytes, hsent]
      rfl
    · simp only [tokenTrees, List.cons_append, List.nil_append, sendInner, literalToken]
      cases sendInner .none s <;> rfl
    · refine realGetToken_of_recvToken ?_
      change ((unsignedType size).bind fun ty => (recvV128uU128 (putU128v v ++ rest)).bind fun x =>
        some (some (Token.integer x.1 ty), x.2)) = _
      rw [intClass_unsigned hcls, Option.bind_some, recvV128uU128_put, Option.bind_some]
  · cases htrees
    have hzero : v = 0 := by
      rw [survives_integer hchar, decide_eq_true_eq, hcls] at hs
      simpa using hs
    subst hzero
    refine ⟨.signed 0 size, ?_, rfl, zero_readsBack size, rfl, fun s => ?_, fun rest => ?_⟩
    · rw [Token.bytes, hsent, writeEnt, putI128v_zero]
      rfl
    · simp only [tokenTrees, List.cons_append, List.nil_append, sendInner, literalToken]
      cases sendInner .none s <;> rfl
    · refine realGetToken_of_recvToken ?_
      change ((signedType size).bind fun ty => (recvSigned (putU128v 0 ++ rest)).bind fun x =>
        some (some (Token.integer x.1 ty), x.2)) = _
      rw [intClass_signed hcls, Option.bind_some, recvSigned, recvV128uU128_put]
      rfl

theorem travels_float {v : Vector UInt8 8} {ct : CoreType}
    (ht : (Token.float v ct).trees edition = some trees) : ∃ e, Travels edition (.float v ct) trees e := by
  obtain ⟨size, hsize, rfl⟩ := Option.map_eq_some_iff.mp ht
  refine ⟨.float v size, ?_, rfl, rfl, rfl, fun s => ?_, fun rest => ?_⟩
  · simp [Token.bytes, visitToken, sendFloat, hsize, writeEnt]
  · simp only [tokenTrees, List.cons_append, List.nil_append, sendInner, literalToken]
    cases sendInner .none s <;> rfl
  · refine realGetToken_of_recvToken ?_
    change ((floatType size).bind fun ty => (getF64 (v.toList ++ rest)).bind fun x =>
      some (some (Token.float x.1 ty), x.2)) = _
    rw [floatType_floatSize hsize, Option.bind_some, Protocol.getF64_put, Option.bind_some]

/-- A well-formed token that survives travels to the macro and back. -/
theorem exists_travels (ht : t.trees edition = some trees) (hw : t.WellFormed)
    (hs : t.survives edition = true) : ∃ e, Travels edition t trees e := by
  cases t with
  | op type => exact ⟨_, travels_op ht hs⟩
  | ident name => exact travels_ident ht hw hs
  | lifetime name => exact travels_lifetime ht hw hs
  | integer v ct =>
    by_cases hct : ct = .char
    · subst hct
      exact travels_char ht hs
    · rw [trees_integer hct] at ht
      exact travels_integer hct ht hs
  | float v ct => exact travels_float ht
  | string str => exact travels_string ht hw hs
  | byteString str =>
    cases Option.some.inj ht
    exact ⟨_, travels_byteString hw hs⟩

end Tokens

end Mrustc.ProcMacro
