import Mrustc.Parse.Literals
import Mrustc.Parse.LongestSymbol
import Mrustc.Parse.BlockComments

/-! # What a newline at the end of the input changes

The same input is read with two ends: the end of the file or a carriage return, and a newline. A scan that does not run
into the end gives the same token for both.
-/

namespace Mrustc.Parse
open Codepoint

/-- The two ends. -/
structure Ends (s s' : List ℕ) : Prop where
  left : s = [] ∨ s = [cp '\r']
  right : s' = [cp '\n']

/-- The same input with the two ends. -/
def Tail (s s' i i' : List ℕ) : Prop := ∃ r, i = r ++ s ∧ i' = r ++ s'

/-- The same result and the same input behind it. -/
def RelPair {α : Type} (s s' : List ℕ) (a b : α × List ℕ) : Prop := a.1 = b.1 ∧ Tail s s' a.2 b.2

/-- The same result, if the character read behind it is put back. -/
def RelUnread {α : Type} (s s' : List ℕ) (a b : α × ℕ × List ℕ) : Prop :=
  a.1 = b.1 ∧ Tail s s' (a.2.1 :: a.2.2) (b.2.1 :: b.2.2)

def RelScanned (s s' : List ℕ) (a b : Scanned) : Prop :=
  a.token = b.token ∧ a.next = b.next ∧ Tail s s' a.input b.input

/-- A scan that gives a result or an error with one end gives the like with the other. One that runs into the end does
so for both ends where there is a character in front of the end. -/
def Agrees {α : Type} (s : List ℕ) (R : α → α → Prop) (x y : Lex α) : Prop :=
  match x with
  | .ok a => ∃ b, y = .ok b ∧ R a b
  | .error .endOfFile => s = [] ∨ y = .error .endOfFile
  | .error _ => ∃ e, e ≠ .endOfFile ∧ y = .error e

section Calculus

variable {α β : Type} {s s' : List ℕ} {R : α → α → Prop} {R' : β → β → Prop}

theorem agrees_ok {a b : α} (h : R a b) : Agrees s R (.ok a) (.ok b) := ⟨b, rfl, h⟩

theorem agrees_error {e e' : LexError} (he : e ≠ .endOfFile) (he' : e' ≠ .endOfFile) :
    Agrees s R (.error e) (.error e') := by
  cases e with
  | endOfFile => exact absurd rfl he
  | badChar | parseError | todo | runtimeError => exact ⟨e', he', rfl⟩

theorem agrees_endOfFile : Agrees s R (.error .endOfFile) (.error .endOfFile) := Or.inr rfl

theorem agrees_refl_error (e : LexError) : Agrees s R (.error e) (.error e) := by
  by_cases he : e = .endOfFile
  · rw [he]
    exact agrees_endOfFile
  · exact agrees_error he he

theorem agrees_bind_of {x y : Lex α} {f g : α → Lex β} (h : Agrees s R x y)
    (hf : ∀ a b, x = .ok a → R a b → Agrees s R' (f a) (g b)) : Agrees s R' (x >>= f) (y >>= g) := by
  cases x with
  | ok a =>
    rcases h with ⟨b, rfl, hR⟩
    exact hf a b rfl hR
  | error e =>
    cases e with
    | endOfFile =>
      rcases h with h | rfl
      · exact Or.inl h
      · exact Or.inr rfl
    | badChar | parseError | todo | runtimeError =>
      rcases h with ⟨e', he', rfl⟩
      exact ⟨e', he', rfl⟩

theorem agrees_bind {x y : Lex α} {f g : α → Lex β} (h : Agrees s R x y) (hf : ∀ a b, R a b → Agrees s R' (f a) (g b)) :
    Agrees s R' (x >>= f) (y >>= g) := agrees_bind_of h fun a b _ => hf a b

theorem tail_append (r : List ℕ) : Tail s s' (r ++ s) (r ++ s') := ⟨r, rfl, rfl⟩

theorem tail_cons (c : ℕ) (r : List ℕ) : Tail s s' (c :: (r ++ s)) (c :: (r ++ s')) := ⟨c :: r, rfl, rfl⟩

end Calculus

section Scans

variable {s s' : List ℕ}

/-- A character, and the input behind it. -/
def RelChar (s s' : List ℕ) (a b : ℕ × List ℕ) : Prop := Tail s s' (a.1 :: a.2) (b.1 :: b.2)

theorem getc_agrees (h : Ends s s') (r : List ℕ) :
    Agrees s (RelChar s s') (getc .endOfFile (r ++ s)) (getc .endOfFile (r ++ s')) := by
  cases r with
  | nil =>
    rcases h with ⟨rfl | rfl, rfl⟩
    · exact Or.inl rfl
    · exact agrees_ok ⟨[], rfl, rfl⟩
  | cons c r => exact agrees_ok (tail_cons c r)

/-- The character read is one in front of the end, or the end. -/
theorem RelChar.cases {a b : ℕ × List ℕ} (h : RelChar s s' a b) (hs : Ends s s') :
    (∃ c r, a = (c, r ++ s) ∧ b = (c, r ++ s')) ∨
      s = [cp '\r'] ∧ s' = [cp '\n'] ∧ a = (cp '\r', []) ∧ b = (cp '\n', []) := by
  rcases a with ⟨c, i⟩
  rcases b with ⟨c', i'⟩
  rcases h with ⟨r, hr, hr'⟩
  cases r with
  | nil =>
    rcases hs with ⟨rfl | rfl, rfl⟩
    · cases hr
    · cases hr
      cases hr'
      exact Or.inr ⟨rfl, rfl, rfl, rfl⟩
  | cons d r =>
    cases hr
    cases hr'
    exact Or.inl ⟨c, r, rfl, rfl⟩

theorem takeSyms_agrees (h : Ends s s') (str : List UInt8) (r : List ℕ) :
    Agrees s (RelPair s s') (takeSyms .endOfFile str (r ++ s)) (takeSyms .endOfFile str (r ++ s')) := by
  induction r generalizing str with
  | nil =>
    rcases h with ⟨rfl | rfl, rfl⟩
    · exact Or.inl rfl
    · exact agrees_ok ⟨rfl, [], rfl, rfl⟩
  | cons c r ih =>
    rw [List.cons_append, List.cons_append, takeSyms, takeSyms]
    split_ifs
    · cases append str c with
      | error e => exact agrees_refl_error e
      | ok str => exact ih str
    · exact agrees_ok ⟨rfl, tail_cons c r⟩

theorem getcNum_agrees (h : Ends s s') (r : List ℕ) :
    Agrees s (RelChar s s') (getcNum .endOfFile (r ++ s)) (getcNum .endOfFile (r ++ s')) := by
  induction r with
  | nil =>
    rcases h with ⟨rfl | rfl, rfl⟩
    · exact Or.inl rfl
    · exact agrees_ok ⟨[], rfl, rfl⟩
  | cons c r ih =>
    rw [List.cons_append, List.cons_append, getcNum, getcNum]
    split_ifs
    · exact ih
    · exact agrees_ok (tail_cons c r)

theorem parseDigits_agrees (h : Ends s s') {test : ℕ → Bool} (htest : test (cp '\r') = false ∧ test (cp '\n') = false)
    (base maxDigit : ℕ) (val : BitVec 128) (r : List ℕ) :
    Agrees s (RelPair s s') (parseDigits .endOfFile test base maxDigit val (r ++ s))
      (parseDigits .endOfFile test base maxDigit val (r ++ s')) := by
  induction r generalizing val with
  | nil =>
    rcases h with ⟨rfl | rfl, rfl⟩
    · exact Or.inl rfl
    · simp only [List.nil_append, parseDigits, htest, if_neg (by decide : cp '\r' ≠ cp '_'),
        if_neg (by decide : cp '\n' ≠ cp '_')]
      exact agrees_ok ⟨rfl, [], rfl, rfl⟩
  | cons c r ih =>
    rw [List.cons_append, List.cons_append, parseDigits, parseDigits]
    split_ifs
    · exact ih val
    · exact agrees_error (by simp) (by simp)
    · exact ih _
    · exact agrees_ok ⟨rfl, tail_cons c r⟩

/-- The result of `parseInt`, without its base as a pair. -/
def RelInt (s s' : List ℕ) (a b : BitVec 128 × NumMode × List ℕ) : Prop :=
  a.1 = b.1 ∧ a.2.1 = b.2.1 ∧ Tail s s' a.2.2 b.2.2

theorem parseInt_agrees (h : Ends s s') (r : List ℕ) :
    Agrees s (RelInt s s') (parseInt .endOfFile (r ++ s)) (parseInt .endOfFile (r ++ s')) := by
  have hdigits {test : ℕ → Bool} (htest : test (cp '\r') = false ∧ test (cp '\n') = false) (base maxDigit : ℕ)
      (val : BitVec 128) (mode : NumMode) (r : List ℕ) : Agrees s (RelInt s s')
        (parseDigits .endOfFile test base maxDigit val (r ++ s) >>= fun out => .ok (out.1, mode, out.2))
        (parseDigits .endOfFile test base maxDigit val (r ++ s') >>= fun out => .ok (out.1, mode, out.2)) :=
    agrees_bind (parseDigits_agrees h htest base maxDigit val r) fun a b hab => agrees_ok ⟨hab.1, rfl, hab.2⟩
  apply agrees_bind (getc_agrees h r)
  intro a b hab
  rcases hab.cases h with ⟨c, r', rfl, rfl⟩ | ⟨rfl, rfl, rfl, rfl⟩
  · dsimp only
    split_ifs
    · apply agrees_bind (getcNum_agrees h r')
      intro a b hab
      rcases hab.cases h with ⟨c', r'', rfl, rfl⟩ | ⟨rfl, rfl, rfl, rfl⟩
      · dsimp only
        split_ifs
        · exact hdigits ⟨rfl, rfl⟩ 16 15 0 .hex r''
        · exact hdigits ⟨rfl, rfl⟩ 2 1 0 .bin r''
        · exact hdigits ⟨rfl, rfl⟩ 8 7 0 .oct r''
        · exact hdigits ⟨rfl, rfl⟩ 10 9 0 .dec r'
      · exact hdigits ⟨rfl, rfl⟩ 10 9 0 .dec r'
    · exact hdigits ⟨rfl, rfl⟩ 10 9 _ .dec r'
    · exact agrees_ok ⟨rfl, rfl, r, rfl, rfl⟩
  · exact agrees_ok ⟨rfl, rfl, r, rfl, rfl⟩

theorem floatDigits_agrees (h : Ends s s') (r : List ℕ) :
    Agrees s (RelUnread s s') (floatDigits .endOfFile (r ++ s)) (floatDigits .endOfFile (r ++ s')) := by
  induction r with
  | nil =>
    rcases h with ⟨rfl | rfl, rfl⟩
    · exact Or.inl rfl
    · exact agrees_ok ⟨rfl, [], rfl, rfl⟩
  | cons c r ih =>
    rw [List.cons_append, List.cons_append, floatDigits, floatDigits]
    split_ifs
    · exact ih
    · apply agrees_bind ih
      intro a b hab
      exact agrees_ok ⟨congrArg (c.toUInt8 :: ·) hab.1, hab.2⟩
    · exact agrees_ok ⟨rfl, tail_cons c r⟩

/-- The character read behind a result is one in front of the end, or the end. -/
theorem RelUnread.cases {α : Type} {a b : α × ℕ × List ℕ} (h : RelUnread s s' a b) (hs : Ends s s') :
    (∃ v c r, a = (v, c, r ++ s) ∧ b = (v, c, r ++ s')) ∨
      ∃ v, s = [cp '\r'] ∧ s' = [cp '\n'] ∧ a = (v, cp '\r', []) ∧ b = (v, cp '\n', []) := by
  rcases a with ⟨v, a⟩
  rcases b with ⟨v', b⟩
  rcases h with ⟨rfl, h⟩
  rcases RelChar.cases h hs with ⟨c, r, rfl, rfl⟩ | ⟨rfl, rfl, rfl, rfl⟩
  · exact Or.inl ⟨v, c, r, rfl, rfl⟩
  · exact Or.inr ⟨v, rfl, rfl, rfl, rfl⟩

theorem exponentSign_agrees (h : Ends s s') (r : List ℕ) :
    Agrees s (RelUnread s s') (exponentSign .endOfFile (r ++ s)) (exponentSign .endOfFile (r ++ s')) := by
  apply agrees_bind (getcNum_agrees h r)
  intro a b hab
  rcases hab.cases h with ⟨c, r', rfl, rfl⟩ | ⟨rfl, rfl, rfl, rfl⟩
  · dsimp only
    split_ifs
    · apply agrees_bind (getcNum_agrees h r')
      exact fun a b hab => agrees_ok ⟨rfl, hab⟩
    · exact agrees_ok ⟨rfl, tail_cons c r'⟩
  · exact agrees_ok ⟨rfl, [], rfl, rfl⟩

theorem parseFloat_agrees (h : Ends s s') (whole : BitVec 128) (r : List ℕ) :
    Agrees s (RelPair s s') (parseFloat .endOfFile whole (r ++ s)) (parseFloat .endOfFile whole (r ++ s')) := by
  apply agrees_bind (floatDigits_agrees h r)
  intro a b hab
  rcases hab.cases h with ⟨frac, c, r', rfl, rfl⟩ | ⟨frac, rfl, rfl, rfl, rfl⟩
  · dsimp only
    split_ifs with hdot hexp
    · apply agrees_bind (getc_agrees h r')
      intro a b hab
      rcases hab.cases h with ⟨c', r'', rfl, rfl⟩ | ⟨rfl, rfl, rfl, rfl⟩
      · dsimp only
        split_ifs
        · apply agrees_bind (getc_agrees h r'')
          intro a b hab
          rcases hab.cases h with ⟨c'', r₃, rfl, rfl⟩ | ⟨rfl, rfl, rfl, rfl⟩
          · dsimp only
            split_ifs
            · exact agrees_ok ⟨rfl, tail_append r₃⟩
            · exact agrees_ok ⟨rfl, tail_append r₃⟩
            · exact agrees_ok ⟨rfl, tail_append r''⟩
          · exact agrees_ok ⟨rfl, tail_append r''⟩
        · exact agrees_ok ⟨rfl, tail_append r'⟩
      · exact agrees_ok ⟨rfl, tail_append r'⟩
    · apply agrees_bind (exponentSign_agrees h r')
      intro a b hab
      rcases hab.cases h with ⟨sign, c', r'', rfl, rfl⟩ | ⟨sign, rfl, rfl, rfl, rfl⟩
      · dsimp only
        split_ifs
        · apply agrees_bind (floatDigits_agrees h r'')
          intro a b hab
          exact agrees_ok ⟨by rw [hab.1], hab.2⟩
        · exact agrees_error (by simp) (by simp)
      · exact agrees_error (by simp) (by simp)
    · exact agrees_ok ⟨rfl, tail_cons c r'⟩
  · exact agrees_ok ⟨rfl, [], rfl, rfl⟩

theorem hexEscape_agrees (h : Ends s s') (val : BitVec 32) (r : List ℕ) :
    Agrees s (RelUnread s s') (hexEscape .endOfFile val (r ++ s)) (hexEscape .endOfFile val (r ++ s')) := by
  induction r generalizing val with
  | nil =>
    rcases h with ⟨rfl | rfl, rfl⟩
    · exact Or.inl rfl
    · exact agrees_ok ⟨rfl, [], rfl, rfl⟩
  | cons c r ih =>
    rw [List.cons_append, List.cons_append, hexEscape, hexEscape]
    split_ifs
    · exact ih _
    · exact agrees_ok ⟨rfl, tail_cons c r⟩

theorem byteEscape_agrees (h : Ends s s') (r : List ℕ) :
    Agrees s (RelPair s s') (byteEscape .endOfFile (r ++ s)) (byteEscape .endOfFile (r ++ s')) := by
  apply agrees_bind (getc_agrees h r)
  intro a b hab
  rcases hab.cases h with ⟨c, r', rfl, rfl⟩ | ⟨rfl, rfl, rfl, rfl⟩
  · dsimp only
    split_ifs
    · apply agrees_bind (getc_agrees h r')
      intro a b hab
      rcases hab.cases h with ⟨c', r'', rfl, rfl⟩ | ⟨rfl, rfl, rfl, rfl⟩
      · dsimp only
        split_ifs
        · exact agrees_ok ⟨rfl, tail_append r''⟩
        · exact agrees_error (by simp) (by simp)
      · exact agrees_error (by simp) (by simp)
    · exact agrees_error (by simp) (by simp)
  · exact agrees_error (by simp) (by simp)

theorem unicodeEscape_agrees (h : Ends s s') (r : List ℕ) :
    Agrees s (RelPair s s') (unicodeEscape .endOfFile (r ++ s)) (unicodeEscape .endOfFile (r ++ s')) := by
  apply agrees_bind (getc_agrees h r)
  intro a b hab
  rcases hab.cases h with ⟨c, r', rfl, rfl⟩ | ⟨rfl, rfl, rfl, rfl⟩
  · dsimp only
    split_ifs
    · apply agrees_bind (getc_agrees h r')
      intro a b hab
      rcases hab.cases h with ⟨c', r'', rfl, rfl⟩ | ⟨rfl, rfl, rfl, rfl⟩
      · dsimp only
        split_ifs
        · apply agrees_bind (hexEscape_agrees h 0 r')
          intro a b hab
          rcases hab.cases h with ⟨val, c'', r₃, rfl, rfl⟩ | ⟨val, rfl, rfl, rfl, rfl⟩
          · dsimp only
            split_ifs
            · exact agrees_ok ⟨rfl, tail_append r₃⟩
            · exact agrees_error (by simp) (by simp)
          · exact agrees_error (by simp) (by simp)
        · exact agrees_error (by simp) (by simp)
      · exact agrees_error (by simp) (by simp)
    · exact agrees_bind (hexEscape_agrees h 0 r) fun a b hab => agrees_ok ⟨hab.1, hab.2⟩
    · exact agrees_error (by simp) (by simp)
  · exact agrees_error (by simp) (by simp)

theorem parseEscape_agrees (h : Ends s s') (enclosing : Char) (skipping : Bool) (r : List ℕ) :
    Agrees s (RelPair s s') (parseEscape .endOfFile enclosing skipping (r ++ s))
      (parseEscape .endOfFile enclosing skipping (r ++ s')) := by
  induction r generalizing skipping with
  | nil =>
    rcases h with ⟨rfl | rfl, rfl⟩
    · cases skipping <;> exact Or.inl rfl
    · cases skipping <;> exact agrees_endOfFile
  | cons c r ih =>
    cases skipping with
    | true =>
      rw [List.cons_append, List.cons_append, parseEscape, parseEscape]
      split_ifs
      · exact ih true
      · exact ih false
      · exact agrees_ok ⟨rfl, tail_cons c r⟩
      · exact agrees_ok ⟨rfl, tail_append r⟩
    | false =>
      rw [List.cons_append, List.cons_append, parseEscape, parseEscape]
      split_ifs
      · exact byteEscape_agrees h r
      · exact unicodeEscape_agrees h r
      · exact agrees_ok ⟨rfl, tail_append r⟩
      · exact agrees_ok ⟨rfl, tail_append r⟩
      · exact agrees_ok ⟨rfl, tail_append r⟩
      · exact agrees_ok ⟨rfl, tail_append r⟩
      · exact agrees_ok ⟨rfl, tail_append r⟩
      · exact ih true
      · exact agrees_error (by simp) (by simp)

theorem scanString_nil {add : List UInt8 → BitVec 32 → Lex (List UInt8)} (str : List UInt8) :
    scanString .endOfFile add str [] = .error .endOfFile := by
  rw [scanString]

theorem scanString_agrees (h : Ends s s') {add : List UInt8 → BitVec 32 → Lex (List UInt8)} (str : List UInt8)
    (r : List ℕ) : Agrees s (RelPair s s') (scanString .endOfFile add str (r ++ s))
      (scanString .endOfFile add str (r ++ s')) := by
  induction hn : r.length using Nat.strong_induction_on generalizing str r with
  | _ n ih =>
    subst hn
    cases r with
    | nil =>
      rcases h with ⟨rfl | rfl, rfl⟩
      · rw [List.append_nil, scanString_nil]
        exact Or.inl rfl
      · rw [List.nil_append, List.nil_append, scanString_char (by decide) (by decide) (by decide),
          scanString_char (by decide) (by decide) (by decide), scanString_nil, scanString_nil]
        exact agrees_endOfFile
    | cons c r =>
      rw [List.cons_append, List.cons_append]
      by_cases hquote : c = cp '"'
      · rw [hquote, scanString_quote, scanString_quote]
        exact agrees_ok ⟨rfl, tail_append r⟩
      · by_cases hback : c = cp '\\'
        · rw [hback, scanString_backslash, scanString_backslash]
          apply agrees_bind_of (parseEscape_agrees h '"' false r)
          rintro ⟨v, a⟩ ⟨v', b⟩ hparse ⟨rfl, r', rfl, rfl⟩
          have hlen := (parseEscape_suffix _ hparse).length_le
          rw [List.length_append, List.length_append, Nat.add_le_add_iff_right] at hlen
          have hrest (str : List UInt8) := ih r'.length (Nat.lt_succ_of_le hlen) str r' rfl
          dsimp only
          split_ifs
          · exact hrest str
          · cases add str v with
            | error e => exact agrees_refl_error e
            | ok str => exact hrest str
        · rw [scanString.eq_def, scanString.eq_def _ _ _ (c :: (r ++ s'))]
          simp only [if_neg hquote, if_neg hback]
          cases append str c with
          | error e => exact agrees_refl_error e
          | ok str => exact ih r.length (Nat.lt_succ_self _) str r rfl

theorem countHashes_agrees (h : Ends s s') (n : ℕ) (r : List ℕ) :
    Agrees s (RelUnread s s') (countHashes .endOfFile n (r ++ s)) (countHashes .endOfFile n (r ++ s')) := by
  induction r generalizing n with
  | nil =>
    rcases h with ⟨rfl | rfl, rfl⟩
    · exact Or.inl rfl
    · exact agrees_ok ⟨rfl, [], rfl, rfl⟩
  | cons c r ih =>
    rw [List.cons_append, List.cons_append, countHashes, countHashes]
    split_ifs
    · exact ih (n + 1)
    · exact agrees_ok ⟨rfl, tail_cons c r⟩

theorem scanLineComment_agrees (h : Ends s s') (str : List UInt8) (r : List ℕ) :
    Agrees s (RelPair s s') (scanLineComment .endOfFile str (r ++ s)) (scanLineComment .endOfFile str (r ++ s')) := by
  induction r generalizing str with
  | nil =>
    rcases h with ⟨rfl | rfl, rfl⟩
    · exact Or.inl rfl
    · exact agrees_ok ⟨rfl, [], rfl, rfl⟩
  | cons c r ih =>
    rw [List.cons_append, List.cons_append, scanLineComment, scanLineComment]
    split_ifs
    · exact agrees_ok ⟨rfl, tail_cons c r⟩
    · cases append str c with
      | error e => exact agrees_refl_error e
      | ok str => exact ih str

/-- A raw string that the end cuts off is an error. -/
theorem scanRaw_short {c : ℕ} (hquote : c ≠ cp '"') (hhash : c ≠ cp '#') (hlt : c < 0x200000) (hashes : ℕ)
    (val : List UInt8) (n : ℕ) : scanRaw .endOfFile hashes val n [c] = .error .parseError := by
  have hzero (val : List UInt8) : scanRaw .endOfFile hashes val 0 [c] = .error .parseError := by
    rw [scanRaw_char hquote hlt, scanRaw]
    rfl
  cases n with
  | zero => exact hzero val
  | succ n => rw [scanRaw_other hhash, hzero]

theorem scanRaw_agrees (h : Ends s s') (hashes : ℕ) (val : List UInt8) (n : ℕ) (r : List ℕ) :
    Agrees s (RelPair s s') (scanRaw .endOfFile hashes val n (r ++ s)) (scanRaw .endOfFile hashes val n (r ++ s')) := by
  induction r generalizing val n with
  | nil =>
    have hright (val : List UInt8) := scanRaw_short (by decide : cp '\n' ≠ cp '"') (by decide) (by decide) hashes val n
    rcases h with ⟨rfl | rfl, rfl⟩
    · rw [List.append_nil, List.nil_append, hright, scanRaw.eq_def]
      exact agrees_error (by simp) (by simp)
    · rw [List.nil_append, List.nil_append, hright, scanRaw_short (by decide) (by decide) (by decide)]
      exact agrees_error (by simp) (by simp)
  | cons c r ih =>
    rw [List.cons_append, List.cons_append]
    have hzero (val : List UInt8) : Agrees s (RelPair s s') (scanRaw .endOfFile hashes val 0 (c :: (r ++ s)))
        (scanRaw .endOfFile hashes val 0 (c :: (r ++ s'))) := by
      rw [scanRaw, scanRaw]
      split_ifs
      · exact agrees_ok ⟨rfl, tail_append r⟩
      · exact ih val hashes
      · cases append val c with
        | error e => exact agrees_refl_error e
        | ok val => exact ih val 0
    cases n with
    | zero => exact hzero val
    | succ n =>
      by_cases hhash : c = cp '#'
      · rw [hhash, scanRaw_hash, scanRaw_hash]
        split_ifs
        · exact agrees_ok ⟨rfl, tail_append r⟩
        · exact ih val n
      · rw [scanRaw_other hhash, scanRaw_other hhash]
        exact hzero _

theorem scanBlockComment_agrees (h : Ends s s') (str : List UInt8) (level : ℕ) (r : List ℕ) :
    Agrees s (RelPair s s') (scanBlockComment .endOfFile str level (r ++ s))
      (scanBlockComment .endOfFile str level (r ++ s')) := by
  have hnil (str : List UInt8) (level : ℕ) : scanBlockComment .endOfFile str level [] = .error .endOfFile := by
    rw [scanBlockComment]
  induction hn : r.length using Nat.strong_induction_on generalizing str level r with
  | _ n ih =>
    subst hn
    rcases r with _ | ⟨c, _ | ⟨c', r⟩⟩
    · rcases h with ⟨rfl | rfl, rfl⟩
      · rw [List.append_nil, hnil]
        exact Or.inl rfl
      · rw [List.nil_append, List.nil_append, scanBlockComment_char (by decide) (by decide) (by decide),
          scanBlockComment_char (by decide) (by decide) (by decide), hnil, hnil]
        exact agrees_endOfFile
    · have hplain (hslash : c ≠ cp '/') (hstar : c ≠ cp '*') (s : List ℕ) :
          scanBlockComment .endOfFile str level (c :: s) =
            append str c >>= fun str => scanBlockComment .endOfFile str level s := by
        rw [scanBlockComment.eq_def]
        simp only [if_neg hslash, if_neg hstar]
        cases append str c <;> rfl
      by_cases hslash : c = cp '/'
      · subst hslash
        rcases h with ⟨rfl | rfl, rfl⟩
        · rw [List.append_nil, scanBlockComment, if_pos rfl]
          exact Or.inl rfl
        · rw [List.singleton_append, List.singleton_append, scanBlockComment_slash (by decide),
            scanBlockComment_slash (by decide), hnil, hnil]
          exact agrees_endOfFile
      · by_cases hstar : c = cp '*'
        · subst hstar
          rcases h with ⟨rfl | rfl, rfl⟩
          · rw [List.append_nil, scanBlockComment, if_neg hslash, if_pos rfl]
            exact Or.inl rfl
          · rw [List.singleton_append, List.singleton_append, scanBlockComment_star (by decide) (by decide),
              scanBlockComment_star (by decide) (by decide), hnil, hnil]
            exact agrees_endOfFile
        · rw [List.cons_append, List.cons_append, hplain hslash hstar, hplain hslash hstar]
          cases append str c with
          | error e => exact agrees_refl_error e
          | ok str => exact ih 0 (by simp) str level [] rfl
    · have hrest (str : List UInt8) (level : ℕ) := ih r.length (by simp) str level r rfl
      have hrest' (str : List UInt8) (level : ℕ) := ih (c' :: r).length (by simp) str level (c' :: r) rfl
      simp only [List.cons_append] at hrest' ⊢
      rw [scanBlockComment, scanBlockComment]
      by_cases hslash : c = cp '/'
      · rw [if_pos hslash, if_pos hslash]
        cases append (str ++ ascii ['/']) c' with
        | error e => exact agrees_refl_error e
        | ok str => exact hrest str _
      · rw [if_neg hslash, if_neg hslash]
        by_cases hstar : c = cp '*'
        · rw [if_pos hstar, if_pos hstar]
          by_cases hclose : c' = cp '/'
          · rw [if_pos hclose, if_pos hclose]
            split_ifs
            · exact agrees_ok ⟨rfl, tail_append r⟩
            · exact hrest _ _
          · rw [if_neg hclose, if_neg hclose]
            cases append (str ++ ascii ['*']) c' with
            | error e => exact agrees_refl_error e
            | ok str => exact hrest str _
        · rw [if_neg hstar, if_neg hstar]
          cases append str c with
          | error e => exact agrees_refl_error e
          | ok str => exact hrest' str level

/-- No symbol reaches into the end. -/
theorem word_prefix_concat {entry : List Char × SymType} (hentry : entry ∈ tokenmap) {c : ℕ}
    (hc : c = cp '\r' ∨ c = cp '\n') {r : List ℕ} (hp : word entry <+: r ++ [c]) : word entry <+: r := by
  have hall : tokenmap.all
      (fun entry => !(word entry).contains (cp '\r') && !(word entry).contains (cp '\n')) = true := by decide
  have hword := List.all_eq_true.mp hall entry hentry
  simp only [Bool.and_eq_true, Bool.not_eq_true', List.contains_iff_mem, ← Bool.not_eq_true] at hword
  rcases List.prefix_concat_iff.mp hp with heq | hp
  · have hmem : c ∈ word entry := by
      rw [heq]
      exact List.mem_append_right r (List.mem_singleton_self c)
    rcases hc with rfl | rfl
    · exact absurd hmem hword.1
    · exact absurd hmem hword.2
  · exact hp

theorem getSymbol_concat {r rest : List ℕ} {best : Option SymType} {c : ℕ} (hc : c = cp '\r' ∨ c = cp '\n')
    (h : getSymbol .endOfFile r = .ok (best, rest)) :
    getSymbol .endOfFile (r ++ [c]) = .ok (best, rest ++ [c]) := by
  have hlongest := getSymbol_longest h
  cases best with
  | none =>
    rcases getSymbol_endOfFile (List.concat_ne_nil c r) with ⟨⟨best', rest'⟩, hout⟩
    have hlongest' := getSymbol_longest hout
    cases best' with
    | none => rw [hout, hlongest.1, hlongest'.1]
    | some type =>
      rcases hlongest' with ⟨chars, hmem, heq, -⟩
      have hp : word (chars, type) <+: r ++ [c] := heq ▸ List.prefix_append _ _
      exact absurd (word_prefix_concat hmem hc hp) (hlongest.2 _ hmem)
  | some type =>
    rcases hlongest with ⟨chars, hmem, rfl, hlong⟩
    rw [List.append_assoc]
    exact getSymbol_eq_some hmem fun entry hentry hp =>
      hlong entry hentry (word_prefix_concat hentry hc (by rwa [List.append_assoc]))

theorem getSymbol_agrees (h : Ends s s') {r : List ℕ} (hr : r ≠ []) :
    ∃ best rest, getSymbol .endOfFile (r ++ s) = .ok (best, rest ++ s) ∧
      getSymbol .endOfFile (r ++ s') = .ok (best, rest ++ s') := by
  rcases getSymbol_endOfFile hr with ⟨⟨best, rest⟩, hout⟩
  rcases h with ⟨rfl | rfl, rfl⟩
  · exact ⟨best, rest, by rw [List.append_nil, List.append_nil, hout], getSymbol_concat (Or.inr rfl) hout⟩
  · exact ⟨best, rest, getSymbol_concat (Or.inl rfl) hout, getSymbol_concat (Or.inr rfl) hout⟩

end Scans

end Mrustc.Parse
