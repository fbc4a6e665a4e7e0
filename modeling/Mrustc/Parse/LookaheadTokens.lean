import Mrustc.Parse.Lookahead

/-! # What a newline at the end of the input changes for a token

Only white space and a shebang line are read to a different end.
-/

namespace Mrustc.Parse
open Codepoint

variable {s s' : List ℕ} (edition : Edition) (hygiene : Hygiene)

theorem scanIdentifier_agrees (h : Ends s s') (str : List UInt8) (parseReservedWord : Bool) (r : List ℕ) :
    Agrees s (RelScanned s s') (scanIdentifier .endOfFile edition str parseReservedWord (r ++ s))
      (scanIdentifier .endOfFile edition str parseReservedWord (r ++ s')) := by
  apply agrees_bind (takeSyms_agrees h str r)
  rintro ⟨str, a⟩ ⟨str', b⟩ ⟨rfl, hab⟩
  dsimp only
  split_ifs
  · cases lexFindReservedWord str edition with
    | some type => exact agrees_ok ⟨rfl, rfl, hab⟩
    | none => exact agrees_ok ⟨rfl, rfl, hab⟩
  · exact agrees_ok ⟨rfl, rfl, hab⟩

theorem scanRawString_agrees (h : Ends s s') (isByte : Bool) (r : List ℕ) :
    Agrees s (RelScanned s s') (scanRawString .endOfFile edition hygiene isByte (r ++ s))
      (scanRawString .endOfFile edition hygiene isByte (r ++ s')) := by
  have hident (hashes c c' : ℕ) (r s₁ s₁' : List ℕ) (hs : c :: s₁ = r ++ s) (hs' : c' :: s₁' = r ++ s') :
      Agrees s (RelScanned s s')
        (if hashes = 0 then
          scanIdentifier .endOfFile edition (if isByte then ascii ['b'] else []) true (cp 'r' :: c :: s₁)
        else if hashes = 1 then scanIdentifier .endOfFile edition [] false (c :: s₁)
        else throw .parseError)
        (if hashes = 0 then
          scanIdentifier .endOfFile edition (if isByte then ascii ['b'] else []) true (cp 'r' :: c' :: s₁')
        else if hashes = 1 then scanIdentifier .endOfFile edition [] false (c' :: s₁')
        else throw .parseError) := by
    rw [hs, hs']
    split_ifs
    · exact scanIdentifier_agrees edition h _ _ (cp 'r' :: r)
    · exact scanIdentifier_agrees edition h _ _ (cp 'r' :: r)
    · exact scanIdentifier_agrees edition h _ _ r
    · exact agrees_error (by simp) (by simp)
  apply agrees_bind (countHashes_agrees h 0 r)
  intro a b hab
  rcases hab.cases h with ⟨hashes, c, r', rfl, rfl⟩ | ⟨hashes, rfl, rfl, rfl, rfl⟩
  · dsimp only
    by_cases hquote : c = cp '"'
    · rw [if_neg (not_not.mpr hquote), if_neg (not_not.mpr hquote)]
      apply agrees_bind (scanRaw_agrees h hashes [] 0 r')
      rintro ⟨val, a⟩ ⟨val', b⟩ ⟨rfl, hab⟩
      exact agrees_ok ⟨rfl, rfl, hab⟩
    · rw [if_pos hquote, if_pos hquote]
      exact hident hashes c c (c :: r') _ _ rfl rfl
  · exact hident hashes _ _ [] _ _ rfl rfl

theorem scanFloatDigits_agrees (h : Ends s s') (val : BitVec 128) (mode : NumMode) (r : List ℕ) :
    Agrees s (RelScanned s s') (scanFloat.digits .endOfFile val mode (r ++ s))
      (scanFloat.digits .endOfFile val mode (r ++ s')) := by
  rw [scanFloat.digits, scanFloat.digits]
  split_ifs
  · apply agrees_bind (parseFloat_agrees h val r)
    rintro ⟨out, a⟩ ⟨out', b⟩ ⟨rfl, r', rfl, rfl⟩
    cases out with
    | tokens token next => exact agrees_ok ⟨rfl, rfl, tail_append r'⟩
    | float text =>
      apply agrees_bind (takeSyms_agrees h [] r')
      rintro ⟨suffix, a⟩ ⟨suffix', b⟩ ⟨rfl, hab⟩
      dsimp only
      split_ifs
      · exact agrees_ok ⟨rfl, rfl, tail_append r'⟩
      · cases floatSuffix suffix with
        | some type => exact agrees_ok ⟨rfl, rfl, hab⟩
        | none => exact agrees_error (by simp) (by simp)
  · exact agrees_error (by simp) (by simp)

theorem scanFloat_agrees (h : Ends s s') (val : BitVec 128) (mode : NumMode) (ch : ℕ) (r : List ℕ) :
    Agrees s (RelScanned s s') (scanFloat .endOfFile val mode ch (r ++ s))
      (scanFloat .endOfFile val mode ch (r ++ s')) := by
  rw [scanFloat, scanFloat]
  split_ifs
  · apply agrees_bind (getc_agrees h r)
    intro a b hab
    rcases hab.cases h with ⟨c, r', rfl, rfl⟩ | ⟨rfl, rfl, rfl, rfl⟩
    · dsimp only
      split_ifs
      · apply agrees_bind (getc_agrees h r')
        intro a b hab
        rcases hab.cases h with ⟨c', r'', rfl, rfl⟩ | ⟨rfl, rfl, rfl, rfl⟩
        · dsimp only
          split_ifs
          · exact agrees_ok ⟨rfl, rfl, tail_append r''⟩
          · exact agrees_ok ⟨rfl, rfl, tail_append r''⟩
          · exact agrees_ok ⟨rfl, rfl, tail_append r'⟩
        · exact agrees_ok ⟨rfl, rfl, tail_append r'⟩
      · exact agrees_ok ⟨rfl, rfl, tail_append r⟩
      · exact agrees_ok ⟨rfl, rfl, tail_append r⟩
      · exact scanFloatDigits_agrees h val mode r
    · exact agrees_ok ⟨rfl, rfl, tail_append r⟩
  · exact scanFloatDigits_agrees h val mode (ch :: r)

theorem scanNumber_agrees (h : Ends s s') (r : List ℕ) :
    Agrees s (RelScanned s s') (scanNumber .endOfFile (r ++ s)) (scanNumber .endOfFile (r ++ s')) := by
  apply agrees_bind (parseInt_agrees h r)
  rintro ⟨val, mode, a⟩ ⟨val', mode', b⟩ ⟨rfl, rfl, r', rfl, rfl⟩
  apply agrees_bind (getc_agrees h r')
  intro a b hab
  rcases hab.cases h with ⟨c, r'', rfl, rfl⟩ | ⟨rfl, rfl, rfl, rfl⟩
  · dsimp only
    split_ifs
    · exact scanFloat_agrees h val mode c r''
    · apply agrees_bind (takeSyms_agrees h [] r')
      rintro ⟨suffix, a⟩ ⟨suffix', b⟩ ⟨rfl, hab⟩
      cases integerSuffix suffix with
      | some type => exact agrees_ok ⟨rfl, rfl, hab⟩
      | none => exact agrees_error (by simp) (by simp)
    · exact agrees_ok ⟨rfl, rfl, tail_append r'⟩
  · exact agrees_ok ⟨rfl, rfl, tail_append r'⟩

/-- The quote that ends a literal, or what else there is. -/
theorem closingQuote_agrees (h : Ends s s') (token : Token) {x y : Lex Scanned} (hxy : Agrees s (RelScanned s s') x y)
    (r : List ℕ) : Agrees s (RelScanned s s')
      (getc .endOfFile (r ++ s) >>= fun next => if next.1 = cp '\'' then return ⟨token, [], next.2⟩ else x)
      (getc .endOfFile (r ++ s') >>= fun next => if next.1 = cp '\'' then return ⟨token, [], next.2⟩ else y) := by
  apply agrees_bind (getc_agrees h r)
  intro a b hab
  rcases hab.cases h with ⟨c, r', rfl, rfl⟩ | ⟨rfl, rfl, rfl, rfl⟩
  · dsimp only
    split_ifs
    · exact agrees_ok ⟨rfl, rfl, tail_append r'⟩
    · exact hxy
  · exact hxy

/-- A character literal behind a byte prefix. -/
theorem byteLiteral_agrees (h : Ends s s') (r : List ℕ) :
    Agrees s (RelScanned s s')
      (scanByte.byteValue .endOfFile (r ++ s) >>= fun out => getc .endOfFile out.2 >>= fun next =>
        if next.1 = cp '\'' then return ⟨.integer (out.1.setWidth 128) .u8, [], next.2⟩ else throw .parseError)
      (scanByte.byteValue .endOfFile (r ++ s') >>= fun out => getc .endOfFile out.2 >>= fun next =>
        if next.1 = cp '\'' then return ⟨.integer (out.1.setWidth 128) .u8, [], next.2⟩ else throw .parseError) := by
  have herror : Agrees s (RelScanned s s') (throw .parseError) (throw .parseError) := agrees_refl_error _
  cases r with
  | nil =>
    rcases h with ⟨rfl | rfl, rfl⟩
    · exact Or.inl rfl
    · exact agrees_endOfFile
  | cons c r =>
    by_cases hback : c = cp '\\'
    · subst hback
      apply agrees_bind (parseEscape_agrees h '\'' false r)
      rintro ⟨val, a⟩ ⟨val', b⟩ ⟨rfl, r', rfl, rfl⟩
      exact closingQuote_agrees h _ herror r'
    · have hvalue (s : List ℕ) : scanByte.byteValue .endOfFile (c :: r ++ s) = .ok (BitVec.ofNat 32 c, r ++ s) := by
        rw [scanByte.byteValue, List.cons_append, getc, Lex.bind_ok]
        exact if_neg hback
      rw [hvalue, hvalue]
      exact closingQuote_agrees h _ herror r

theorem scanByte_agrees (h : Ends s s') (r : List ℕ) :
    Agrees s (RelScanned s s') (scanByte .endOfFile edition hygiene (r ++ s))
      (scanByte .endOfFile edition hygiene (r ++ s')) := by
  apply agrees_bind (getc_agrees h r)
  intro a b hab
  rcases hab.cases h with ⟨c, r', rfl, rfl⟩ | ⟨rfl, rfl, rfl, rfl⟩
  · dsimp only
    split_ifs
    · exact scanRawString_agrees edition hygiene h true r'
    · apply agrees_bind (scanString_agrees h [] r')
      rintro ⟨str, a⟩ ⟨str', b⟩ ⟨rfl, hab⟩
      exact agrees_ok ⟨rfl, rfl, hab⟩
    · exact byteLiteral_agrees h r'
    · exact scanIdentifier_agrees edition h [] true (cp 'b' :: r)
  · exact scanIdentifier_agrees edition h [] true (cp 'b' :: r)

theorem scanWord_agrees (h : Ends s s') (r : List ℕ) :
    Agrees s (RelScanned s s') (scanWord .endOfFile edition hygiene (r ++ s))
      (scanWord .endOfFile edition hygiene (r ++ s')) := by
  apply agrees_bind (getc_agrees h r)
  intro a b hab
  rcases hab.cases h with ⟨c, r', rfl, rfl⟩ | ⟨rfl, rfl, rfl, rfl⟩
  · dsimp only
    split_ifs
    · exact scanNumber_agrees h r
    · exact scanByte_agrees edition hygiene h r'
    · exact scanRawString_agrees edition hygiene h false r'
    · exact scanIdentifier_agrees edition h [] true r
    · exact agrees_error (by simp) (by simp)
  · exact agrees_error (by simp) (by simp)

theorem scanSingleQuote_agrees (h : Ends s s') (r : List ℕ) :
    Agrees s (RelScanned s s') (scanSingleQuote .endOfFile (r ++ s)) (scanSingleQuote .endOfFile (r ++ s')) := by
  have herror : Agrees s (RelScanned s s') (throw .todo) (throw .todo) := agrees_refl_error _
  apply agrees_bind (getc_agrees h r)
  intro a b hab
  rcases hab.cases h with ⟨first, r', rfl, rfl⟩ | ⟨rfl, rfl, rfl, rfl⟩
  · dsimp only
    split_ifs
    · apply agrees_bind (parseEscape_agrees h '\'' false r')
      rintro ⟨val, a⟩ ⟨val', b⟩ ⟨rfl, r'', rfl, rfl⟩
      exact closingQuote_agrees h _ herror r''
    · exact herror
    · apply closingQuote_agrees h
      cases append [] first with
      | error e => exact agrees_refl_error e
      | ok str =>
        apply agrees_bind (takeSyms_agrees h str r')
        rintro ⟨str, a⟩ ⟨str', b⟩ ⟨rfl, hab⟩
        exact agrees_ok ⟨rfl, rfl, hab⟩
    · exact closingQuote_agrees h _ herror r'
  · exact agrees_endOfFile

theorem scanLine_agrees (h : Ends s s') (r : List ℕ) :
    Agrees s (RelScanned s s') (scanLine .endOfFile hygiene (r ++ s)) (scanLine .endOfFile hygiene (r ++ s')) := by
  apply agrees_bind (getc_agrees h r)
  intro a b hab
  rcases hab.cases h with ⟨c, r', rfl, rfl⟩ | ⟨rfl, rfl, rfl, rfl⟩
  · dsimp only
    split_ifs
    · apply agrees_bind (getc_agrees h r')
      intro a b hab
      rcases hab.cases h with ⟨c', r'', rfl, rfl⟩ | ⟨rfl, rfl, rfl, rfl⟩
      · dsimp only
        split_ifs
        · apply agrees_bind (scanLineComment_agrees h _ r')
          rintro ⟨str, a⟩ ⟨str', b⟩ ⟨rfl, hab⟩
          exact agrees_ok ⟨rfl, rfl, hab⟩
        · apply agrees_bind (scanLineComment_agrees h _ r')
          rintro ⟨str, a⟩ ⟨str', b⟩ ⟨rfl, hab⟩
          exact agrees_ok ⟨rfl, rfl, hab⟩
      · apply agrees_bind (scanLineComment_agrees h [] r')
        rintro ⟨str, a⟩ ⟨str', b⟩ ⟨rfl, hab⟩
        exact agrees_ok ⟨rfl, rfl, hab⟩
    · apply agrees_bind (scanLineComment_agrees h _ r')
      rintro ⟨str, a⟩ ⟨str', b⟩ ⟨rfl, hab⟩
      exact agrees_ok ⟨rfl, rfl, hab⟩
    · apply agrees_bind (scanLineComment_agrees h _ r)
      rintro ⟨str, a⟩ ⟨str', b⟩ ⟨rfl, hab⟩
      exact agrees_ok ⟨rfl, rfl, hab⟩
  · apply agrees_bind (scanLineComment_agrees h [] r)
    rintro ⟨str, a⟩ ⟨str', b⟩ ⟨rfl, hab⟩
    exact agrees_ok ⟨rfl, rfl, hab⟩

theorem scanBlock_agrees (h : Ends s s') (r : List ℕ) :
    Agrees s (RelScanned s s') (scanBlock .endOfFile hygiene (r ++ s)) (scanBlock .endOfFile hygiene (r ++ s')) := by
  apply agrees_bind (getc_agrees h r)
  intro a b hab
  rcases hab.cases h with ⟨c, r', rfl, rfl⟩ | ⟨rfl, rfl, rfl, rfl⟩
  · dsimp only
    split_ifs
    · apply agrees_bind (getc_agrees h r')
      intro a b hab
      rcases hab.cases h with ⟨c', r'', rfl, rfl⟩ | ⟨rfl, rfl, rfl, rfl⟩
      · dsimp only
        split_ifs
        · apply agrees_bind (scanBlockComment_agrees h _ 0 r')
          rintro ⟨str, a⟩ ⟨str', b⟩ ⟨rfl, hab⟩
          exact agrees_ok ⟨rfl, rfl, hab⟩
        · exact agrees_ok ⟨rfl, rfl, tail_append r''⟩
        · apply agrees_bind (scanBlockComment_agrees h _ 0 r')
          rintro ⟨str, a⟩ ⟨str', b⟩ ⟨rfl, hab⟩
          exact agrees_ok ⟨rfl, rfl, hab⟩
      · apply agrees_bind (scanBlockComment_agrees h [] 0 r')
        rintro ⟨str, a⟩ ⟨str', b⟩ ⟨rfl, hab⟩
        exact agrees_ok ⟨rfl, rfl, hab⟩
    · apply agrees_bind (scanBlockComment_agrees h _ 0 r')
      rintro ⟨str, a⟩ ⟨str', b⟩ ⟨rfl, hab⟩
      exact agrees_ok ⟨rfl, rfl, hab⟩
    · apply agrees_bind (scanBlockComment_agrees h _ 0 r)
      rintro ⟨str, a⟩ ⟨str', b⟩ ⟨rfl, hab⟩
      exact agrees_ok ⟨rfl, rfl, hab⟩
  · apply agrees_bind (scanBlockComment_agrees h [] 0 r)
    rintro ⟨str, a⟩ ⟨str', b⟩ ⟨rfl, hab⟩
    exact agrees_ok ⟨rfl, rfl, hab⟩

/-- Only white space up to the end. -/
def OnlySpace (r : List ℕ) : Prop := ∀ c ∈ r, isspace c = true ∧ c ≠ cp '\n'

theorem skipSpace_agrees {r : List ℕ} (hr : ¬ OnlySpace r) :
    Agrees s (Tail s s') (skipSpace .endOfFile (r ++ s)) (skipSpace .endOfFile (r ++ s')) := by
  induction r with
  | nil => exact absurd (by simp [OnlySpace]) hr
  | cons c r ih =>
    rw [List.cons_append, List.cons_append, skipSpace, skipSpace]
    split_ifs with hc
    · rw [Bool.and_eq_true, bne_iff_ne] at hc
      exact ih fun hall => hr (List.forall_mem_cons.mpr ⟨hc, hall⟩)
    · exact agrees_ok (tail_cons c r)

theorem skipLine_agrees {r : List ℕ} (hr : cp '\n' ∈ r) :
    Agrees s (Tail s s') (scanShebang.skipLine .endOfFile (r ++ s)) (scanShebang.skipLine .endOfFile (r ++ s')) := by
  induction r with
  | nil => exact absurd hr List.not_mem_nil
  | cons c r ih =>
    rw [List.cons_append, List.cons_append, scanShebang.skipLine, scanShebang.skipLine]
    split_ifs with hc
    · exact agrees_ok (tail_append r)
    · exact ih (List.mem_of_ne_of_mem (fun h => hc h.symm) hr)

/-- A shebang line up to the end, behind the `#`. -/
def OnlyShebang (r : List ℕ) : Prop := ∃ line, r = cp '!' :: cp '/' :: line ∧ cp '\n' ∉ line

theorem scanShebang_agrees (h : Ends s s') {r : List ℕ} (hr : ¬ OnlyShebang r) :
    Agrees s (RelScanned s s') (scanShebang .endOfFile (r ++ s)) (scanShebang .endOfFile (r ++ s')) := by
  apply agrees_bind_of (getc_agrees h r)
  intro a b ha hab
  rcases hab.cases h with ⟨c, r', rfl, rfl⟩ | ⟨rfl, rfl, rfl, rfl⟩
  · have heq : r = c :: r' := by
      rw [getc_eq_ok, ← List.cons_append, List.append_left_inj] at ha
      exact ha
    dsimp only
    split_ifs with hexcl
    · apply agrees_bind_of (getc_agrees h r')
      intro a b ha hab
      rcases hab.cases h with ⟨c', r'', rfl, rfl⟩ | ⟨rfl, rfl, rfl, rfl⟩
      · have heq' : r' = c' :: r'' := by
          rw [getc_eq_ok, ← List.cons_append, List.append_left_inj] at ha
          exact ha
        dsimp only
        split_ifs with hslash
        · have hline : cp '\n' ∈ r'' := by
            by_contra hline
            exact hr ⟨r'', by rw [heq, hexcl, heq', hslash], hline⟩
          apply agrees_bind (skipLine_agrees hline)
          exact fun a b hab => agrees_ok ⟨rfl, rfl, hab⟩
        · exact agrees_ok ⟨rfl, rfl, tail_append r'⟩
        · exact agrees_error (by simp) (by simp)
      · exact agrees_error (by simp) (by simp)
    · exact agrees_ok ⟨rfl, rfl, tail_append r⟩
    · exact agrees_error (by simp) (by simp)
  · exact agrees_error (by simp) (by simp)

/-- Nothing but white space or a shebang line up to the end. -/
def Trailing (atStart : Bool) (r : List ℕ) : Prop :=
  OnlySpace r ∨ atStart = true ∧ ∃ r', r = cp '#' :: r' ∧ OnlyShebang r'

theorem scanToken_agrees (h : Ends s s') {atStart : Bool} {r : List ℕ} (hr : ¬ Trailing atStart r) :
    Agrees s (RelScanned s s') (scanToken .endOfFile edition hygiene atStart (r ++ s))
      (scanToken .endOfFile edition hygiene atStart (r ++ s')) := by
  rw [Trailing, not_or] at hr
  cases r with
  | nil => exact absurd (by simp [OnlySpace]) hr.1
  | cons c r =>
    have hgetc (s : List ℕ) : getc .endOfFile (c :: r ++ s) = .ok (c, r ++ s) := rfl
    rw [scanToken, scanToken, hgetc, hgetc]
    simp only [Lex.bind_ok]
    split_ifs with hstart hline hspace
    · rw [Bool.and_eq_true, beq_iff_eq] at hstart
      exact scanShebang_agrees h fun hs => hr.2 ⟨hstart.1, r, by rw [hstart.2], hs⟩
    · exact agrees_ok ⟨rfl, rfl, tail_append r⟩
    · have hrest : ¬ OnlySpace r := fun hs => hr.1 (List.forall_mem_cons.mpr ⟨⟨hspace, hline⟩, hs⟩)
      apply agrees_bind (skipSpace_agrees hrest)
      exact fun a b hab => agrees_ok ⟨rfl, rfl, hab⟩
    · rcases getSymbol_agrees h (List.cons_ne_nil c r) with ⟨best, rest, hleft, hright⟩
      rw [hleft, hright]
      simp only [Lex.bind_ok]
      rcases best with _ | (type | _ | _ | _ | _)
      · exact scanWord_agrees edition hygiene h rest
      · dsimp only
        split_ifs
        · apply agrees_bind (getc_agrees h rest)
          intro a b hab
          rcases hab.cases h with ⟨c, r', rfl, rfl⟩ | ⟨rfl, rfl, rfl, rfl⟩
          · dsimp only
            split_ifs
            · apply agrees_bind (parseInt_agrees h rest)
              rintro ⟨val, mode, a⟩ ⟨val', mode', b⟩ ⟨rfl, rfl, hab⟩
              exact agrees_ok ⟨rfl, rfl, hab⟩
            · exact agrees_ok ⟨rfl, rfl, tail_append rest⟩
          · exact agrees_ok ⟨rfl, rfl, tail_append rest⟩
        · exact agrees_ok ⟨rfl, rfl, tail_append rest⟩
      · exact scanLine_agrees hygiene h rest
      · exact scanBlock_agrees hygiene h rest
      · exact scanSingleQuote_agrees h rest
      · apply agrees_bind (scanString_agrees h [] rest)
        rintro ⟨str, a⟩ ⟨str', b⟩ ⟨rfl, hab⟩
        exact agrees_ok ⟨rfl, rfl, hab⟩

end Mrustc.Parse
