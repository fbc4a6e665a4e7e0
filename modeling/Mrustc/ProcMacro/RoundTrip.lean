import Mrustc.ProcMacro.Travels

/-! # The round trip of a token tree through a macro

The library makes the corresponding stream of what it is sent, and the stream sent back is read as
the tokens again, exactly if every token survives.
-/

namespace Mrustc.ProcMacro
open Codec
open Parse hiding utf8
open Protocol (utf8 fromUtf8 readEnt writeEnt getb getU128v getI128v getByteVec getString getF64 getChar
  putU128v putI128v putBytes)

variable {edition : Edition} {t : Token} {e : Protocol.Token} {rest bs : List UInt8}
variable {trees s toks : List TokenTree} {type : TokenType} {ts : List Token}

section Reading

theorem getByteVec_put_eq {v : List UInt8} (hlen : v.length < 2 ^ 128) {r : List UInt8 × List UInt8}
    (h : getByteVec (putBytes v ++ rest) = some r) : r = (v, rest) := by
  have hv : (BitVec.ofNat 128 v.length).toNat = v.length := by
    rw [BitVec.toNat_ofNat]
    exact Nat.mod_eq_of_lt hlen
  rw [getByteVec, putBytes, List.append_assoc, Protocol.getU128v_put] at h
  simp only [Option.bind_eq_bind, Option.bind_some, hv] at h
  split_ifs at h
  rw [List.take_left, List.drop_left] at h
  exact (Option.some.inj h).symm

theorem getString_put_eq {v : String} (hlen : (utf8 v).length < 2 ^ 128) {r : String × List UInt8}
    (h : getString (putBytes (utf8 v) ++ rest) = some r) : r = (v, rest) := by
  obtain ⟨x, hx, h⟩ := Option.bind_eq_some_iff.mp h
  cases getByteVec_put_eq hlen hx
  simp only [Protocol.fromUtf8_utf8, Option.bind_eq_bind, Option.bind_some] at h
  exact (Option.some.inj h).symm

theorem getChar_put_eq {c : Char} {r : Char × List UInt8}
    (h : getChar (putU128v (BitVec.ofNat 128 c.toNat) ++ rest) = some r) : r = (c, rest) := by
  have hlt : c.toNat < 0x110000 := by
    obtain h | h := c.valid
    · exact h.trans (by norm_num)
    · exact h.2
  have hc : (BitVec.ofNat 128 c.toNat).toNat = c.toNat := by
    rw [BitVec.toNat_ofNat]
    exact Nat.mod_eq_of_lt (by omega)
  simp only [getChar, Protocol.getU128v_put, Option.bind_eq_bind, Option.bind_some, hc] at h
  split_ifs at h
  exact (Option.some.inj h).symm

/-- The tokens that are read as they were written, if they are read. -/
def isExact : Protocol.Token → Bool
  | .symbol v | .ident v | .lifetime v | .string v => (utf8 v).length < 2 ^ 128
  | .byteString v => v.length < 2 ^ 128
  | .char _ | .unsigned _ _ | .float _ _ => true
  | _ => false

theorem read_map_eq {α : Type} {f : α → Protocol.Token} {x : Option (α × List UInt8)} {v : α}
    (hx : ∀ r, x = some r → r = (v, rest))
    (h : ((x.map fun (v, bs) => (f v, bs)).bind fun (t, bs) => some (some t, bs)) = some (some e, bs)) :
    e = f v ∧ bs = rest := by
  cases x with
  | none => cases h
  | some r =>
    cases hx r rfl
    cases h
    exact ⟨rfl, rfl⟩

theorem readEnt_writeEnt_eq {e' : Protocol.Token} (hexact : isExact e = true)
    (h : readEnt (writeEnt e ++ rest) = some (some e', bs)) : e' = e ∧ bs = rest := by
  cases e with
  | symbol v | ident v | lifetime v | string v =>
    exact read_map_eq (fun _ => getString_put_eq (by simpa [isExact] using hexact)) h
  | byteString v => exact read_map_eq (fun _ => getByteVec_put_eq (by simpa [isExact] using hexact)) h
  | char v => exact read_map_eq (fun _ => getChar_put_eq) h
  | unsigned v sz | float v sz =>
    rw [(Protocol.readEnt_writeEnt_iff _).mpr rfl] at h
    cases h
    exact ⟨rfl, rfl⟩
  | endOfStream | spanRef _ | spanDef _ | signed _ _ => cases hexact

/-- What the library reads of a token, which is right only if the token survives. -/
structure ReadAs (edition : Edition) (t : Token) (trees : List TokenTree) (e : Protocol.Token) : Prop where
  plain : isPlain e = true
  survives : tokenTrees e = trees → t.survives edition = true

theorem sendCall_short (type : TokenType) : (sendCall type).token.readsBack = true := by
  cases type <;> decide

theorem readAs_op (ht : operatorTrees edition type = some trees)
    (h : readEnt ((Token.op type).bytes edition ++ rest) = some (some e, bs)) :
    bs = rest ∧ ReadAs edition (.op type) trees e := by
  have hbytes : (Token.op type).bytes edition = writeEnt (sendCall type).token := by
    rw [← SendCall.bytes_eq _ (sendCall_short type)]
    rfl
  rw [hbytes, (Protocol.readEnt_writeEnt_iff _).mpr (sendCall_short type)] at h
  cases h
  refine ⟨rfl, sendCall_plain (isBracket_of_trees ht), fun he => ?_⟩
  by_contra hs
  simp only [Token.survives, decide_eq_true_eq, not_not, List.mem_cons, List.not_mem_nil, or_false] at hs
  have htrees := @operatorTrees_eq edition type (isBracket_of_trees ht)
  rw [ht, ← he] at htrees
  obtain rfl | rfl | rfl | rfl := hs
  · simp [expectedCall, operatorText, tokenmap, SendCall.token, sendCall, tokenTrees, puncts] at htrees
  · simp [expectedCall, operatorText, tokenmap, SendCall.token, sendCall, tokenTrees, puncts] at htrees
  · simp [expectedCall, operatorText, tokenmap, SendCall.token, sendCall, tokenTrees, puncts] at htrees
  · cases edition <;> simp [expectedCall, operatorText, tokenmap, reservedText, rwords, rwords2015, rwords2018,
      SendCall.token, sendCall, tokenTrees] at htrees

/-- A token whose bytes are those of `e` is read as `e`, if it is read. -/
theorem readAs_exact {e' : Protocol.Token} (hbytes : t.bytes edition = writeEnt e) (hexact : isExact e = true)
    (hplain : isPlain e = true) (hs : e.readsBack = true → t.survives edition = true)
    (h : readEnt (t.bytes edition ++ rest) = some (some e', bs)) :
    bs = rest ∧ ReadAs edition t trees e' := by
  rw [hbytes] at h
  obtain ⟨rfl, rfl⟩ := readEnt_writeEnt_eq hexact h
  exact ⟨rfl, hplain, fun _ => hs ((Protocol.readEnt_writeEnt_iff _).mp h)⟩

/-- What the zig-zag code makes of a number. -/
def unzigzag (v : BitVec 128) : BitVec 128 := if v &&& 1 ≠ 0 then -((v >>> 1) + 1) else v >>> 1

/-- A signed integer is read in the zig-zag code, in which it was not sent. -/
theorem getI128v_sent (v : BitVec 128) : getI128v (sendV128u v ++ rest) = some (unzigzag v, rest) := by
  have hput : sendV128u v = putU128v v := rfl
  rw [hput, getI128v, Protocol.getU128v_put, unzigzag]
  simp only [Option.bind_eq_bind, Option.bind_some]
  split <;> rfl

/-- Three times half of the number would be two short of a power of two. -/
theorem unzigzag_odd {k n : ℕ} {q : Prop} (hk : n = 2 * k + 1) (hlt : n < 2 ^ 128)
    (h : (2 ^ 128 - (k + 1) % 2 ^ 128) % 2 ^ 128 = n) : q := by
  have hsmall : k + 1 < 2 ^ 128 := by clear h; omega
  have hpos : 0 < (k + 1) % 2 ^ 128 := by rw [Nat.mod_eq_of_lt hsmall]; omega
  rw [Nat.mod_eq_of_lt (Nat.sub_lt (by norm_num) hpos), Nat.mod_eq_of_lt hsmall] at h
  clear hlt hpos
  have hthree : 3 * k + 2 = 2 ^ 128 := by omega
  have hmod := congrArg (· % 3) hthree
  norm_num at hmod

theorem unzigzag_fixed {v : BitVec 128} (h : unzigzag v = v) : v = 0 := by
  have hlt := v.isLt
  apply BitVec.eq_of_toNat_eq
  change v.toNat = 0
  have hv := congrArg BitVec.toNat h
  rw [unzigzag] at hv
  split at hv
  · rename_i hne
    have hodd : v.toNat % 2 ≠ 0 := by
      intro heven
      refine hne (BitVec.eq_of_toNat_eq ?_)
      rw [BitVec.toNat_and, Protocol.toNat_one, Nat.and_one_is_mod, heven]
      rfl
    rw [BitVec.toNat_neg, BitVec.toNat_add, BitVec.toNat_ushiftRight, Nat.shiftRight_eq_div_pow,
      Protocol.toNat_one, pow_one] at hv
    exact unzigzag_odd (k := v.toNat / 2) (by clear hv; omega) hlt hv
  · rw [BitVec.toNat_ushiftRight, Nat.shiftRight_eq_div_pow] at hv
    omega

theorem readAs_integer {v : BitVec 128} {ct : CoreType} (hchar : ct ≠ .char)
    (ht : integerTrees v ct = some trees)
    (h : readEnt ((Token.integer v ct).bytes edition ++ rest) = some (some e, bs)) :
    bs = rest ∧ ReadAs edition (.integer v ct) trees e := by
  obtain ⟨⟨cls, size⟩, hcls, htrees⟩ := Option.bind_eq_some_iff.mp ht
  have hbytes : (Token.integer v ct).bytes edition = cls :: size :: sendV128u v := by
    rw [Token.bytes, visitToken_integer hchar, sendInt, hcls]
    rfl
  obtain rfl | rfl := intClass_cases hcls
  · refine readAs_exact (e := .unsigned v size) hbytes rfl rfl (fun _ => ?_) h
    rw [survives_integer hchar]
    simp [hcls]
  · have hread : readEnt ((8 :: size :: sendV128u v) ++ rest) =
        some (some (.signed (unzigzag v) size), rest) := by
      simp [readEnt, getI128v_sent]
    rw [hbytes, hread] at h
    cases h
    cases htrees
    refine ⟨rfl, rfl, fun he => ?_⟩
    rw [survives_integer hchar]
    have hv : v = 0 := by
      rw [if_neg (by decide)] at he
      simp only [tokenTrees, List.cons.injEq, TokenTree.literal.injEq, LiteralValue.signedInt.injEq,
        and_true] at he
      exact unzigzag_fixed he
    simp [hv]

theorem readAs (ht : t.trees edition = some trees) (hw : t.WellFormed)
    (h : readEnt (t.bytes edition ++ rest) = some (some e, bs)) : bs = rest ∧ ReadAs edition t trees e := by
  cases t with
  | op type => exact readAs_op ht h
  | ident name =>
    obtain ⟨val, hval, rfl⟩ := Option.map_eq_some_iff.mp ht
    obtain ⟨hc, -, hlen⟩ := hw
    have htext := Protocol.utf8_of_fromUtf8 hval
    have htextlen : (identText edition name).length < 2 ^ 128 := by
      have : (utf8 "r#").length = 2 := by decide
      rw [identText]
      split <;> simp [this] <;> omega
    refine readAs_exact (e := .ident val) ?_ (by simpa [isExact, htext] using htextlen) rfl ?_ h
    · rw [writeEnt, htext, ← sendIdent_eq hlen]
      simp only [Token.bytes, visitToken, hc]
      rfl
    · simp [Protocol.Token.readsBack, Token.survives, htext]
  | lifetime name =>
    obtain ⟨val, hval, rfl⟩ := Option.map_eq_some_iff.mp ht
    obtain ⟨hc, hlen⟩ := hw
    have htext := Protocol.utf8_of_fromUtf8 hval
    refine readAs_exact (e := .lifetime val) ?_ ?_ rfl ?_ h
    · simp only [Token.bytes, visitToken, hc, sendLifetime, writeEnt, htext]
      rw [sendBytes_eq (by omega)]
      rfl
    · simp only [isExact, htext, decide_eq_true_eq]
      omega
    · simp [Protocol.Token.readsBack, Token.survives, htext]
  | integer v ct =>
    by_cases hct : ct = .char
    · subst hct
      obtain ⟨c, hc, rfl, hsent⟩ := charTrees_eq edition ht
      refine readAs_exact hsent rfl rfl (fun hs => ?_) h
      simpa [Protocol.Token.readsBack, hc, Token.survives] using hs
    · rw [trees_integer hct] at ht
      exact readAs_integer hct ht h
  | float v ct =>
    obtain ⟨size, hsize, rfl⟩ := Option.map_eq_some_iff.mp ht
    refine readAs_exact (e := .float v size) ?_ rfl rfl (fun _ => rfl) h
    simp [Token.bytes, visitToken, sendFloat, hsize, writeEnt]
  | string str =>
    obtain ⟨val, hval, rfl⟩ := Option.map_eq_some_iff.mp ht
    have hlen : str.length < 2 ^ 63 := hw
    have htext := Protocol.utf8_of_fromUtf8 hval
    refine readAs_exact (e := .string val) ?_ ?_ rfl ?_ h
    · simp only [Token.bytes, visitToken, sendString, writeEnt, htext]
      rw [sendBytes_eq (by omega)]
      rfl
    · simp only [isExact, htext, decide_eq_true_eq]
      omega
    · simp [Protocol.Token.readsBack, Token.survives, htext]
  | byteString str =>
    have hlen : str.length < 2 ^ 63 := hw
    refine readAs_exact (e := .byteString str) ?_ ?_ rfl ?_ h
    · simp only [Token.bytes, visitToken, sendByteString, writeEnt]
      rw [sendBytes_eq (by omega)]
      rfl
    · simp only [isExact, decide_eq_true_eq]
      omega
    · simp [Protocol.Token.readsBack, Token.survives]

theorem isLeaves_singleton {t : TokenTree} (hgroup : ∀ d stream, t ≠ .group d stream)
    (hends : (Item.leaf t).ends = true) : IsLeaves [t] := by
  refine ⟨fun d stream hmem => hgroup d stream (List.mem_singleton.mp hmem).symm, [], .leaf t, rfl, hends,
    by simp⟩

theorem isLeaves_cons {c : Char} (h : IsLeaves trees) : IsLeaves (.punct c .joint :: trees) := by
  obtain ⟨hgroup, init, last, hw, hends, hinit⟩ := h
  refine ⟨fun d stream hmem => ?_, .leaf (.punct c .joint) :: init, last, ?_, hends, fun i hi => ?_⟩
  · obtain hmem | hmem := List.mem_cons.mp hmem
    · cases hmem
    · exact hgroup d stream hmem
  · rw [List.map_cons, hw, List.cons_append]
  · obtain rfl | hi := List.mem_cons.mp hi
    · rfl
    · exact hinit i hi

theorem isLeaves_puncts {cs : List Char} (hne : cs ≠ []) : IsLeaves (puncts cs) := by
  induction cs with
  | nil => exact absurd rfl hne
  | cons c cs ih =>
    cases cs with
    | nil => exact isLeaves_singleton (by simp) rfl
    | cons c' cs => exact isLeaves_cons (ih (by simp))

theorem isLeaves_tokenTrees (h : isPlain e = true) : IsLeaves (tokenTrees e) := by
  cases e with
  | symbol val =>
    refine isLeaves_puncts fun hnil => ?_
    have hempty : val = "" := String.toList_eq_nil_iff.mp hnil
    rw [hempty] at h
    exact absurd h (by decide)
  | lifetime val => exact isLeaves_cons (isLeaves_singleton (by simp) rfl)
  | endOfStream | spanRef _ | spanDef _ => cases h
  | _ => exact isLeaves_singleton (by simp) rfl

theorem operatorText_ne_nil {text : List Char} (h : operatorText type = some text) : text ≠ [] := by
  rintro rfl
  revert h
  cases type <;> decide

theorem isLeaves_trees (ht : t.trees edition = some trees) : IsLeaves trees := by
  cases t with
  | op type =>
    have hb := isBracket_of_trees ht
    simp only [Token.trees, operatorTrees, hb, Bool.false_eq_true, if_false] at ht
    split at ht
    · rename_i text htext
      cases ht
      exact isLeaves_puncts (operatorText_ne_nil htext)
    · obtain ⟨word, -, rfl⟩ := Option.map_eq_some_iff.mp ht
      exact isLeaves_singleton (by simp) rfl
  | ident name =>
    obtain ⟨val, -, rfl⟩ := Option.map_eq_some_iff.mp ht
    exact isLeaves_singleton (by simp) rfl
  | lifetime name =>
    obtain ⟨val, -, rfl⟩ := Option.map_eq_some_iff.mp ht
    exact isLeaves_cons (isLeaves_singleton (by simp) rfl)
  | integer v ct =>
    by_cases hct : ct = .char
    · subst hct
      obtain ⟨c, -, rfl, -⟩ := charTrees_eq edition ht
      exact isLeaves_singleton (by simp) rfl
    · rw [trees_integer hct] at ht
      obtain ⟨⟨cls, size⟩, -, htrees⟩ := Option.bind_eq_some_iff.mp ht
      cases htrees
      exact isLeaves_singleton (by simp) rfl
  | float v ct =>
    obtain ⟨size, -, rfl⟩ := Option.map_eq_some_iff.mp ht
    exact isLeaves_singleton (by simp) rfl
  | string str =>
    obtain ⟨val, -, rfl⟩ := Option.map_eq_some_iff.mp ht
    exact isLeaves_singleton (by simp) rfl
  | byteString str =>
    cases ht
    exact isLeaves_singleton (by simp) rfl

end Reading

section Receiving

def sendTokens (edition : Edition) (ts : List Token) : List UInt8 := ts.flatMap (·.bytes edition)

/-- What may end a subtree. -/
def isClose (close : String) : Bool := close = "" || close = "\x7d" || close = "]" || close = ")"

variable {n : ℕ} {close : String} {r : List TokenTree × List UInt8}

theorem getSubtree_plain (hclose : isClose close = true) (hplain : isPlain e = true)
    (hread : readEnt bs = some (some e, rest)) :
    getSubtree (n + 1) close toks bs = getSubtree n close (toks ++ tokenTrees e) rest := by
  rw [getSubtree, hread]
  cases e with
  | symbol sym =>
    have hne : sym ≠ close := by
      rintro rfl
      simp only [isPlain, isDelimiter, isClose, Bool.not_or, Bool.and_eq_true, Bool.or_eq_true,
        Bool.not_eq_true', decide_eq_true_eq, decide_eq_false_iff_not] at hplain hclose
      obtain ⟨⟨⟨⟨h₁, -⟩, h₂⟩, h₃⟩, h₄⟩ := hplain
      obtain ((h | h) | h) | h := hclose <;> contradiction
    have hempty : sym ≠ "" := by
      rintro rfl
      exact absurd hplain (by decide)
    have hgroup : openedGroup sym = none := by
      cases h : openedGroup sym with
      | none => rfl
      | some _ => simp [isPlain, isDelimiter, h] at hplain
    simp [hne, hempty, hgroup]
  | endOfStream | spanRef _ | spanDef _ => cases hplain
  | _ => rfl

/-- The symbols around a group. -/
def groupSymbols : Delimiter → String × String
  | .parenthesis => ("(", ")")
  | .brace => ("\x7b", "\x7d")
  | .bracket => ("[", "]")
  | .none => ("", "")

theorem groupSymbols_spec {d : Delimiter} {l r : TokenType} (h : groupTokens d = some (l, r)) :
    openedGroup (groupSymbols d).1 = some (d, (groupSymbols d).2) ∧
      sendCall l = .symbol (groupSymbols d).1 ∧ sendCall r = .symbol (groupSymbols d).2 ∧
      isClose (groupSymbols d).1 = false ∧ isClose (groupSymbols d).2 = true ∧
      (groupSymbols d).1 ≠ "" := by
  cases d <;> cases h <;> decide

theorem readEnt_bracket {sym : String} (h : sendCall type = .symbol sym) :
    readEnt ((Token.op type).bytes edition ++ rest) = some (some (.symbol sym), rest) := by
  have hshort := sendCall_short type
  have hbytes : (Token.op type).bytes edition = writeEnt (sendCall type).token := by
    rw [← SendCall.bytes_eq _ hshort]
    rfl
  rw [hbytes, (Protocol.readEnt_writeEnt_iff _).mpr hshort, h]
  rfl

theorem getSubtree_open {d : Delimiter} {l r : TokenType} (h : groupTokens d = some (l, r))
    (hclose : isClose close = true) :
    getSubtree (n + 1) close toks ((Token.op l).bytes edition ++ bs) =
      (getSubtree n (groupSymbols d).2 [] bs).bind fun x =>
        getSubtree n close (toks ++ [.group d x.1]) x.2 := by
  obtain ⟨hopen, hl, -, hnot, -, hempty⟩ := groupSymbols_spec h
  have hne : (groupSymbols d).1 ≠ close := by
    intro he
    rw [he, hclose] at hnot
    cases hnot
  rw [getSubtree, readEnt_bracket hl]
  simp only [Option.bind_eq_bind, Option.bind_some, hne, hempty, if_false, hopen]

theorem getSubtree_close {d : Delimiter} {l r : TokenType} (h : groupTokens d = some (l, r)) :
    getSubtree (n + 1) (groupSymbols d).2 toks ((Token.op r).bytes edition ++ bs) = some (toks, bs) := by
  obtain ⟨-, -, hr, -⟩ := groupSymbols_spec h
  rw [getSubtree, readEnt_bracket hr]
  simp

/-- The trees that the library makes of a token. -/
def Reads (edition : Edition) (t : Token) (trees' : List TokenTree) : Prop :=
  ∃ e, trees' = tokenTrees e ∧ isPlain e = true ∧
    ∀ trees, t.trees edition = some trees → tokenTrees e = trees → t.survives edition = true

theorem sendTokens_cons (t : Token) (ts : List Token) :
    sendTokens edition (t :: ts) = t.bytes edition ++ sendTokens edition ts := rfl

theorem sendTokens_append (ts ts' : List Token) :
    sendTokens edition (ts ++ ts') = sendTokens edition ts ++ sendTokens edition ts' :=
  List.flatMap_append

/-- If the library reads the tokens, it has read each of them. -/
theorem getSubtree_reads (h : Corresponds edition ts s) (hclose : isClose close = true)
    (hget : getSubtree n close toks (sendTokens edition ts ++ rest) = some r) :
    ∃ s' m, Streams (Reads edition) ts s' ∧ getSubtree m close (toks ++ s') rest = some r := by
  induction h generalizing n close toks rest r with
  | nil => exact ⟨[], n, .nil, by rwa [List.append_nil]⟩
  | @token t trees ts s ht _ ih =>
    rw [sendTokens_cons, List.append_assoc] at hget
    cases n with
    | zero => cases hget
    | succ n =>
      cases hread : readEnt (t.bytes edition ++ (sendTokens edition ts ++ rest)) with
      | none => simp [getSubtree, hread] at hget
      | some x =>
        obtain ⟨_ | e, bs⟩ := x
        · simp [getSubtree, hread] at hget
        · obtain ⟨rfl, hplain, hsurvives⟩ := readAs ht.1 ht.2 hread
          rw [getSubtree_plain hclose hplain hread] at hget
          obtain ⟨s', m, hs', hm⟩ := ih hclose hget
          refine ⟨tokenTrees e ++ s', m, .token ⟨e, rfl, hplain, fun trees' ht' => ?_⟩ hs', ?_⟩
          · cases ht.1.symm.trans ht'
            exact hsurvives
          · rwa [← List.append_assoc]
  | @group d l r' inner stream ts s hd _ _ ih ih' =>
    rw [sendTokens_cons, sendTokens_append, sendTokens_cons, List.append_assoc, List.append_assoc,
      List.append_assoc] at hget
    cases n with
    | zero => cases hget
    | succ n =>
      obtain ⟨-, -, -, -, hclose', -⟩ := groupSymbols_spec hd
      rw [getSubtree_open hd hclose] at hget
      obtain ⟨x, hinner, hget⟩ := Option.bind_eq_some_iff.mp hget
      obtain ⟨stream', m, hstream', hm⟩ := ih hclose' hinner
      cases m with
      | zero => cases hm
      | succ m =>
        rw [getSubtree_close hd] at hm
        cases hm
        obtain ⟨s', m', hs', hm'⟩ := ih' hclose hget
        refine ⟨.group d ([] ++ stream') :: s', m', .group hd hstream' hs', ?_⟩
        simpa using hm'

/-- What survives is read as the stream that corresponds to it. -/
theorem getSubtree_sendTokens (h : Corresponds edition ts s) (hs : ∀ t ∈ ts, t.survives edition = true)
    (hclose : isClose close = true) (hget : ∀ k, n ≤ k → getSubtree k close (toks ++ s) rest = some r) :
    ∀ k, n ≤ k → getSubtree (k + ts.length) close toks (sendTokens edition ts ++ rest) = some r := by
  induction h generalizing n close toks rest r with
  | nil =>
    rw [List.append_nil] at hget
    exact hget
  | @token t trees ts s ht _ ih =>
    intro k hk
    obtain ⟨e, he⟩ := exists_travels ht.1 ht.2 (hs t List.mem_cons_self)
    rw [sendTokens_cons, List.append_assoc, List.length_cons, ← Nat.add_assoc,
      getSubtree_plain hclose he.plain (by rw [he.sent]; exact (Protocol.readEnt_writeEnt_iff e).mpr he.short)]
    refine ih (fun t' ht' => hs t' (List.mem_cons_of_mem _ ht')) hclose (fun k hk => ?_) k hk
    rw [he.trees, List.append_assoc]
    exact hget k hk
  | @group d l r' inner stream ts s hd _ _ ih ih' =>
    intro k hk
    obtain ⟨-, -, -, -, hclose', -⟩ := groupSymbols_spec hd
    have hlen : k + (Token.op l :: (inner ++ Token.op r' :: ts)).length =
        (k + ts.length + 1) + inner.length + 1 := by
      simp only [List.length_cons, List.length_append]
      omega
    have hend (k : ℕ) (hk : 1 ≤ k) : getSubtree k (groupSymbols d).2 ([] ++ stream)
        ((Token.op r').bytes edition ++ (sendTokens edition ts ++ rest)) =
          some (stream, sendTokens edition ts ++ rest) := by
      obtain ⟨k, rfl⟩ := Nat.exists_eq_succ_of_ne_zero (by omega : k ≠ 0)
      exact getSubtree_close hd
    have hafter (k : ℕ) (hk : n ≤ k) :
        getSubtree k close ((toks ++ [.group d stream]) ++ s) rest = some r := by
      simpa using hget k hk
    have hinner := ih (fun t' ht' => hs t' (by simp [ht'])) hclose' hend (k + ts.length + 1) (by omega)
    have hrest := ih' (fun t' ht' => hs t' (by simp [ht'])) hclose hafter (k + inner.length + 1) (by omega)
    rw [hlen, sendTokens_cons, sendTokens_append, sendTokens_cons, List.append_assoc, List.append_assoc,
      List.append_assoc, getSubtree_open hd hclose, hinner, Option.bind_some, ← hrest]
    congr 1
    omega

end Receiving

section Returning

theorem realGetToken_writeSym1 {c : Char}
    (h : symbolToken [UInt8.ofNat c.toNat] = some (some (.op type))) :
    realGetToken edition ⟨false, Protocol.writeSym1 c ++ rest⟩ = some (some (.op type), ⟨false, rest⟩) := by
  have hsym : Protocol.writeSym1 c = 1 :: putBytes [UInt8.ofNat c.toNat] := by
    rw [putBytes_singleton]
    rfl
  rw [hsym]
  exact realGetToken_of_recvToken (recvToken_symbol (by simp) h)

/-- Both sides of a group are read. -/
theorem realGetToken_group {d : Delimiter} {l r : TokenType} (h : groupTokens d = some (l, r))
    (rest : List UInt8) :
    realGetToken edition ⟨false, groupOpen d ++ rest⟩ = some (some (.op l), ⟨false, rest⟩) ∧
      realGetToken edition ⟨false, groupClose d ++ rest⟩ = some (some (.op r), ⟨false, rest⟩) := by
  cases d <;> cases h
  all_goals exact ⟨realGetToken_writeSym1 (by decide), realGetToken_writeSym1 (by decide)⟩

/-- What survives is sent back, token by token, and read. -/
theorem sendInner_corresponds (h : Corresponds edition ts s) (hs : ∀ t ∈ ts, t.survives edition = true) :
    ∃ bytes, sendInner .none s = some bytes ∧ ∀ bs ts' inv',
      Yields edition ⟨false, bs⟩ ts' inv' → Yields edition ⟨false, bytes ++ bs⟩ (ts ++ ts') inv' := by
  induction h with
  | nil => exact ⟨[], by simp [sendInner], fun _ _ _ h => h⟩
  | @token t trees ts s ht _ ih =>
    obtain ⟨e, he⟩ := exists_travels ht.1 ht.2 (hs t List.mem_cons_self)
    obtain ⟨bytes, hbytes, hyields⟩ := ih fun t' ht' => hs t' (List.mem_cons_of_mem _ ht')
    refine ⟨writeEnt e ++ bytes, ?_, fun bs ts' inv' h => ?_⟩
    · rw [← he.trees, he.back, hbytes]
      rfl
    · rw [List.append_assoc]
      exact .token (he.received _) (hyields bs ts' inv' h)
  | @group d l r inner stream ts s hd _ _ ih ih' =>
    obtain ⟨body, hbody, hinner⟩ := ih fun t' ht' => hs t' (by simp [ht'])
    obtain ⟨bytes, hbytes, hyields⟩ := ih' fun t' ht' => hs t' (by simp [ht'])
    refine ⟨groupOpen d ++ body ++ groupClose d ++ bytes, ?_, fun bs ts' inv' h => ?_⟩
    · rw [sendInner, hbody, hbytes]
      rfl
    · have hclose := Yields.token (realGetToken_group hd (bytes ++ bs)).2 (hyields bs ts' inv' h)
      have hopen := Yields.token (realGetToken_group hd (body ++ (groupClose d ++ (bytes ++ bs)))).1
        (hinner _ _ _ hclose)
      simpa only [List.append_assoc, List.cons_append] using hopen

theorem yields_end (rest : List UInt8) :
    Yields edition ⟨false, Protocol.writeSym [] ++ rest⟩ [] ⟨true, rest⟩ := by
  refine .eof ?_
  have h : recvToken edition 1 (putBytes [] ++ rest) = some (none, rest) :=
    recvToken_symbol (by simp) rfl
  rw [Protocol.writeSym, realGetToken, if_neg (by simp)]
  simp [recvU8, h]

end Returning

section RoundTrip

def TokTree.tokens : TokTree → List Token
  | .token tok => [tok]
  | .trees tts => go tts
where
  go : List TokTree → List Token
    | [] => []
    | tt :: tts => tt.tokens ++ go tts

/-- The library makes the stream `s` of what it is sent, and what it sends of `s` is read as the
tokens of the tree, and then the end. -/
def RoundTrips (edition : Edition) (tt : TokTree) (s : List TokenTree) : Prop :=
  ∃ sent back, visitTokentree edition tt = some sent ∧
    recvTokenStream (sent ++ sendDone) = some (s, []) ∧ sendTokenStream s = some back ∧
    Yields edition ⟨false, back⟩ tt.tokens ⟨true, []⟩

theorem visitToken_of_trees (ht : t.trees edition = some trees) :
    visitToken edition t = some (t.bytes edition) := by
  have hsome : (visitToken edition t).isSome = true := by
    cases t with
    | integer v ct =>
      by_cases hct : ct = .char
      · subst hct
        rfl
      · rw [trees_integer hct] at ht
        obtain ⟨x, hx, -⟩ := Option.bind_eq_some_iff.mp ht
        rw [visitToken_integer hct, sendInt, hx]
        rfl
    | float v ct =>
      obtain ⟨size, hsize, -⟩ := Option.map_eq_some_iff.mp ht
      simp [visitToken, sendFloat, hsize]
    | _ => rfl
  obtain ⟨bytes, hbytes⟩ := Option.isSome_iff_exists.mp hsome
  rw [Token.bytes, hbytes]
  rfl

theorem Corresponds.visitToken (h : Corresponds edition ts s) :
    ∀ t ∈ ts, ProcMacro.visitToken edition t = some (t.bytes edition) := by
  induction h with
  | nil => simp
  | token ht _ ih =>
    intro t hmem
    obtain rfl | hmem := List.mem_cons.mp hmem
    · exact visitToken_of_trees ht.1
    · exact ih t hmem
  | group hd _ _ ih ih' =>
    intro t hmem
    obtain rfl | hmem := List.mem_cons.mp hmem
    · rfl
    · obtain hmem | hmem := List.mem_append.mp hmem
      · exact ih t hmem
      · obtain rfl | hmem := List.mem_cons.mp hmem
        · rfl
        · exact ih' t hmem

mutual

theorem visitTokentree_eq : ∀ tt : TokTree,
    (∀ t ∈ tt.tokens, visitToken edition t = some (t.bytes edition)) →
      visitTokentree edition tt = some (sendTokens edition tt.tokens)
  | .token tok, h => by
    rw [visitTokentree, h tok (by simp [TokTree.tokens])]
    simp [sendTokens, TokTree.tokens]
  | .trees tts, h => by
    rw [visitTokentree, TokTree.tokens]
    exact visitTrees_eq tts (by simpa only [TokTree.tokens] using h)

theorem visitTrees_eq : ∀ tts : List TokTree,
    (∀ t ∈ TokTree.tokens.go tts, visitToken edition t = some (t.bytes edition)) →
      visitTokentree.visitTrees edition tts = some (sendTokens edition (TokTree.tokens.go tts))
  | [], _ => by
    rw [visitTokentree.visitTrees, TokTree.tokens.go]
    rfl
  | tt :: tts, h => by
    rw [TokTree.tokens.go] at h ⊢
    rw [visitTokentree.visitTrees, visitTokentree_eq tt fun t ht => h t (List.mem_append_left _ ht),
      visitTrees_eq tts fun t ht => h t (List.mem_append_right _ ht), sendTokens_append]
    rfl

end

theorem recvTokenStream_end (k : ℕ) :
    getSubtree (k + 1) "" toks sendDone = some (toks, []) := rfl

theorem visitToken_ne_nil (t : Token) : visitToken edition t ≠ some [] := by
  cases t with
  | op type =>
    rw [visitToken, SendCall.bytes.eq_def]
    split <;> simp [sendSymbol, sendRword]
  | integer v ct => cases ct <;> simp [visitToken, sendChar, sendInt, intClass]
  | float v ct => cases ct <;> simp [visitToken, sendFloat, floatSize]
  | _ => simp [visitToken, sendIdent, sendLifetime, sendString, sendByteString]

/-- Every token takes at least a byte. -/
theorem length_sendTokens (h : ∀ t ∈ ts, visitToken edition t = some (t.bytes edition)) :
    ts.length ≤ (sendTokens edition ts).length := by
  induction ts with
  | nil => exact Nat.zero_le _
  | cons t ts ih =>
    have hne : t.bytes edition ≠ [] := by
      intro hnil
      exact visitToken_ne_nil t (hnil ▸ h t List.mem_cons_self)
    have hpos := List.length_pos_iff.mpr hne
    have hrest := ih fun t' ht' => h t' (List.mem_cons_of_mem _ ht')
    rw [sendTokens_cons, List.length_append, List.length_cons]
    omega

/-- What survives makes the round trip. -/
theorem Corresponds.roundTrips {tt : TokTree} (h : Corresponds edition tt.tokens s)
    (hs : ∀ t ∈ tt.tokens, t.survives edition = true) : RoundTrips edition tt s := by
  obtain ⟨bytes, hbytes, hyields⟩ := sendInner_corresponds h hs
  refine ⟨_, bytes ++ Protocol.writeSym [], visitTokentree_eq tt h.visitToken, ?_, ?_, ?_⟩
  · have hlen := length_sendTokens h.visitToken
    have hend (k : ℕ) (hk : 1 ≤ k) : getSubtree k "" ([] ++ s) sendDone = some (s, []) := by
      obtain ⟨k, rfl⟩ := Nat.exists_eq_succ_of_ne_zero (by omega : k ≠ 0)
      exact recvTokenStream_end k
    have hget := getSubtree_sendTokens h hs rfl hend
      ((sendTokens edition tt.tokens ++ sendDone).length + 1 - tt.tokens.length)
      (by simp only [List.length_append]; omega)
    rw [recvTokenStream, ← hget]
    congr 1
    simp only [List.length_append]
    omega
  · rw [sendTokenStream, hbytes]
    rfl
  · have hend : Yields edition ⟨false, Protocol.writeSym []⟩ [] ⟨true, []⟩ := by
      simpa only [List.append_nil] using yields_end []
    simpa only [List.append_nil] using hyields _ _ _ hend

theorem survives_of_isBracket (h : isBracket type = true) : (Token.op type).survives edition = true := by
  simp only [Token.survives, decide_eq_true_eq, List.mem_cons, List.not_mem_nil, or_false]
  rintro (rfl | rfl | rfl | rfl) <;> cases h

/-- What makes the round trip survives. -/
theorem RoundTrips.survives {tt : TokTree} (h : Corresponds edition tt.tokens s)
    (hr : RoundTrips edition tt s) : ∀ t ∈ tt.tokens, t.survives edition = true := by
  obtain ⟨sent, -, hsent, hrecv, -⟩ := hr
  rw [visitTokentree_eq tt h.visitToken] at hsent
  cases hsent
  obtain ⟨s', m, hs', hm⟩ := getSubtree_reads h rfl hrecv
  cases m with
  | zero => cases hm
  | succ m =>
    rw [recvTokenStream_end] at hm
    cases hm
    intro t ht
    obtain ⟨type, rfl, hb⟩ | ⟨trees, ⟨htrees, -⟩, e, he, -, hsurvives⟩ := Streams.agree h hs'
      (fun t trees ht => isLeaves_trees ht.1)
      (fun t trees ⟨e, he, hplain, _⟩ => he ▸ isLeaves_tokenTrees hplain) ht
    · exact survives_of_isBracket hb
    · exact hsurvives trees htrees he.symm

end RoundTrip

end Mrustc.ProcMacro
