import Mathlib.Tactic

/-! # ℕs of a source file

The byte stream of the lexer, its line-ending translation and its UTF-8 decoder, and the
encoder that appends a codepoint to a string. A codepoint has at most 21 bits; malformed
sequences read as `0xFFFE`.
-/

namespace Mrustc.Parse

/-- The codepoint of a character constant. -/
abbrev cp (c : Char) : ℕ := c.toNat

namespace Codepoint

def isspace (v : ℕ) : Bool :=
  v == cp '\t' || v == cp '\r' || v == cp '\n' || v == cp ' ' || v == 0xC || v == 0x85 ||
    v == 0x200E || v == 0x200F || v == 0x2028 || v == 0x2029

def isdigit (v : ℕ) : Bool := cp '0' ≤ v && v ≤ cp '9'

def isxdigit (v : ℕ) : Bool :=
  isdigit v || (cp 'a' ≤ v && v ≤ cp 'f') || (cp 'A' ≤ v && v ≤ cp 'F')

def isalpha (v : ℕ) : Bool := (cp 'a' ≤ v && v ≤ cp 'z') || (cp 'A' ≤ v && v ≤ cp 'Z')

end Codepoint

open Codepoint

def issym (ch : ℕ) : Bool :=
  isdigit ch || isalpha ch || ch == cp '_' || (128 ≤ ch && !isspace ch)

/-- The bytes that `getc_byte` hands out: a carriage return in front of a newline is dropped. -/
def getcByte : List UInt8 → List UInt8
  | 13 :: 10 :: bs => 10 :: getcByte bs
  | b :: bs => b :: getcByte bs
  | [] => []

/-- The codepoints that `getc_cp` hands out, and whether they end in an invalid byte. -/
def getcCp : List UInt8 → List ℕ × Bool
  | [] => ([], false)
  | v1 :: bs =>
    if v1 < 128 then push v1.toNat (getcCp bs)
    else if v1 &&& 0xC0 = 0x80 then push 0xFFFE (getcCp bs)
    else if v1 &&& 0xE0 = 0xC0 then
      match bs with
      | [] => ([], false)
      | e1 :: bs =>
        if e1 &&& 0xC0 ≠ 0x80 then push 0xFFFE (getcCp bs)
        else push ((v1 &&& 0x1F).toNat <<< 6 ||| (e1 &&& 0x3F).toNat) (getcCp bs)
    else if v1 &&& 0xF0 = 0xE0 then
      match bs with
      | [] => ([], false)
      | e1 :: bs =>
        if e1 &&& 0xC0 ≠ 0x80 then push 0xFFFE (getcCp bs)
        else
          match bs with
          | [] => ([], false)
          | e2 :: bs =>
            if e2 &&& 0xC0 ≠ 0x80 then push 0xFFFE (getcCp bs)
            else push ((v1 &&& 0x0F).toNat <<< 12 ||| (e1 &&& 0x3F).toNat <<< 6 |||
              (e2 &&& 0x3F).toNat) (getcCp bs)
    else if v1 &&& 0xF8 = 0xF0 then
      match bs with
      | [] => ([], false)
      | e1 :: bs =>
        if e1 &&& 0xC0 ≠ 0x80 then push 0xFFFE (getcCp bs)
        else
          match bs with
          | [] => ([], false)
          | e2 :: bs =>
            if e2 &&& 0xC0 ≠ 0x80 then push 0xFFFE (getcCp bs)
            else
              match bs with
              | [] => ([], false)
              | e3 :: bs =>
                if e3 &&& 0xC0 ≠ 0x80 then push 0xFFFE (getcCp bs)
                else push ((v1 &&& 0x07).toNat <<< 18 ||| (e1 &&& 0x3F).toNat <<< 12 |||
                  (e2 &&& 0x3F).toNat <<< 6 ||| (e3 &&& 0x3F).toNat) (getcCp bs)
    else ([], true)
where
  push (c : ℕ) (out : List ℕ × Bool) : List ℕ × Bool :=
    (c :: out.1, out.2)

/-- `operator+=`: the bytes appended for a codepoint, unless it has more than 21 bits. -/
def appendCp (c : ℕ) : Option (List UInt8) :=
  if c < 0x80 then some [c.toUInt8]
  else if c < 0x800 then
    some [(0xC0 ||| (c >>> 6 &&& 0x1F)).toUInt8, (0x80 ||| (c &&& 0x3F)).toUInt8]
  else if c < 0x10000 then
    some [(0xE0 ||| (c >>> 12 &&& 0x0F)).toUInt8, (0x80 ||| (c >>> 6 &&& 0x3F)).toUInt8,
      (0x80 ||| (c &&& 0x3F)).toUInt8]
  else if c < 0x200000 then
    some [(0xF0 ||| (c >>> 18 &&& 0x07)).toUInt8, (0x80 ||| (c >>> 12 &&& 0x3F)).toUInt8,
      (0x80 ||| (c >>> 6 &&& 0x3F)).toUInt8, (0x80 ||| (c &&& 0x3F)).toUInt8]
  else none

/-- The bytes of a codepoint of at most 21 bits. -/
def utf8 (c : ℕ) : List UInt8 := (appendCp c).getD []

def encode (cs : List ℕ) : List UInt8 := cs.flatMap utf8

theorem appendCp_eq {c : ℕ} (hc : c < 0x200000) : appendCp c = some (utf8 c) := by
  unfold utf8 appendCp
  split_ifs <;> rfl

@[simp] theorem encode_nil : encode [] = [] := rfl

@[simp] theorem encode_cons (c : ℕ) (cs : List ℕ) :
    encode (c :: cs) = utf8 c ++ encode cs := rfl

@[simp] theorem encode_append (cs ds : List ℕ) :
    encode (cs ++ ds) = encode cs ++ encode ds :=
  List.flatMap_append

theorem utf8_ascii {c : ℕ} (hc : c < 0x80) : utf8 c = [c.toUInt8] := by
  rw [utf8, appendCp, if_pos hc, Option.getD_some]

section Decode

/-- A lead byte keeps its payload, and is told apart from a continuation byte. -/
theorem lead_two : ∀ y < 32, let b := (0xC0 ||| y).toUInt8
    ¬ b < 128 ∧ b &&& 0xC0 ≠ 0x80 ∧ b &&& 0xE0 = 0xC0 ∧ (b &&& 0x1F).toNat = y := by decide

theorem lead_three : ∀ y < 16, let b := (0xE0 ||| y).toUInt8
    ¬ b < 128 ∧ b &&& 0xC0 ≠ 0x80 ∧ b &&& 0xE0 ≠ 0xC0 ∧ b &&& 0xF0 = 0xE0 ∧
      (b &&& 0x0F).toNat = y := by decide

theorem lead_four : ∀ y < 8, let b := (0xF0 ||| y).toUInt8
    ¬ b < 128 ∧ b &&& 0xC0 ≠ 0x80 ∧ b &&& 0xE0 ≠ 0xC0 ∧ b &&& 0xF0 ≠ 0xE0 ∧
      b &&& 0xF8 = 0xF0 ∧ (b &&& 0x07).toNat = y := by decide

theorem continuation : ∀ y < 64, let b := (0x80 ||| y).toUInt8
    b &&& 0xC0 = 0x80 ∧ (b &&& 0x3F).toNat = y := by decide

/-- A mask of `k` bits at offset `n`, as a quotient and a remainder. -/
theorem shiftRight_and_mask (c n k : ℕ) : c >>> n &&& (2 ^ k - 1) = c / 2 ^ n % 2 ^ k := by
  rw [Nat.shiftRight_eq_div_pow, Nat.and_two_pow_sub_one_eq_mod]

theorem shiftLeft_or {a b n : ℕ} (hb : b < 2 ^ n) : a <<< n ||| b = a * 2 ^ n + b := by
  rw [← Nat.shiftLeft_add_eq_or_of_lt hb, Nat.shiftLeft_eq]

theorem shiftLeft_or_three {a b c : ℕ} (hb : b < 64) (hc : c < 64) :
    a <<< 12 ||| b <<< 6 ||| c = a * 4096 + (b * 64 + c) := by
  rw [Nat.or_assoc, shiftLeft_or (b := c) hc, shiftLeft_or (by omega)]
  omega

theorem shiftLeft_or_four {a b c d : ℕ} (hb : b < 64) (hc : c < 64) (hd : d < 64) :
    a <<< 18 ||| b <<< 12 ||| c <<< 6 ||| d = a * 262144 + (b * 4096 + (c * 64 + d)) := by
  rw [Nat.or_assoc, Nat.or_assoc, ← Nat.or_assoc (b <<< 12), shiftLeft_or_three hc hd,
    shiftLeft_or (by omega)]
  omega

theorem getcCp_utf8 {c : ℕ} (hc : c < 0x200000) (bs : List UInt8) :
    getcCp (utf8 c ++ bs) = getcCp.push c (getcCp bs) := by
  have h0 : c &&& 0x3F = c % 64 := Nat.and_two_pow_sub_one_eq_mod c 6
  have t0 := continuation (c % 64) (by omega)
  have t6 := continuation (c / 64 % 64) (by omega)
  have t12 := continuation (c / 4096 % 64) (by omega)
  have h6 : c >>> 6 &&& 0x3F = c / 64 % 64 := shiftRight_and_mask c 6 6
  unfold utf8 appendCp
  split_ifs with h80 h800 h10000
  · have hn : c.toUInt8.toNat = c := UInt8.toNat_ofNat_of_lt (by unfold UInt8.size; omega)
    have hc8 : c.toUInt8 < 128 := by
      rw [UInt8.lt_iff_toNat_lt, hn]
      exact h80
    rw [Option.getD_some, List.singleton_append, getcCp.eq_def]
    simp only [if_pos hc8, hn]
  · obtain ⟨l₁, l₂, l₃, l₄⟩ := lead_two (c / 64 % 32) (by omega)
    rw [show c >>> 6 &&& 0x1F = c / 64 % 32 from shiftRight_and_mask c 6 5, h0, Option.getD_some,
      getcCp.eq_def]
    simp only [List.cons_append, List.nil_append, l₁, l₂, l₃, l₄, t0.1, t0.2, if_true, if_false,
      ne_eq, not_true_eq_false]
    rw [shiftLeft_or (by omega)]
    congr 1
    omega
  · obtain ⟨l₁, l₂, l₃, l₄, l₅⟩ := lead_three (c / 4096 % 16) (by omega)
    rw [show c >>> 12 &&& 0x0F = c / 4096 % 16 from shiftRight_and_mask c 12 4, h0, h6,
      Option.getD_some, getcCp.eq_def]
    simp only [List.cons_append, List.nil_append, l₁, l₂, l₃, l₄, l₅, t0.1, t0.2, t6.1, t6.2,
      if_true, if_false, ne_eq, not_true_eq_false]
    rw [shiftLeft_or_three (by omega) (by omega)]
    congr 1
    omega
  · obtain ⟨l₁, l₂, l₃, l₄, l₅, l₆⟩ := lead_four (c / 262144 % 8) (by omega)
    rw [show c >>> 18 &&& 0x07 = c / 262144 % 8 from shiftRight_and_mask c 18 3,
      show c >>> 12 &&& 0x3F = c / 4096 % 64 from shiftRight_and_mask c 12 6, h0, h6,
      Option.getD_some, getcCp.eq_def]
    simp only [List.cons_append, List.nil_append, l₁, l₂, l₃, l₄, l₅, l₆, t0.1, t0.2, t6.1, t6.2,
      t12.1, t12.2, if_true, if_false, ne_eq, not_true_eq_false]
    rw [shiftLeft_or_four (by omega) (by omega) (by omega)]
    congr 1
    omega

theorem getcCp_encode {cs : List ℕ} (hcs : ∀ c ∈ cs, c < 0x200000) (bs : List UInt8) :
    getcCp (encode cs ++ bs) = (cs ++ (getcCp bs).1, (getcCp bs).2) := by
  induction cs with
  | nil => rfl
  | cons c cs ih =>
    rw [encode_cons, List.append_assoc, getcCp_utf8 (hcs c List.mem_cons_self),
      ih fun d hd => hcs d (List.mem_cons_of_mem c hd)]
    rfl

/-- One codepoint, and the bytes it was read from. -/
inductive Decodes : List UInt8 → ℕ → Prop
  | ascii {b : UInt8} (hb : b < 128) : Decodes [b] b.toNat
  | malformed (b : UInt8) (bs : List UInt8) : Decodes (b :: bs) 0xFFFE
  | two {v e : UInt8} (hv : v &&& 0xE0 = 0xC0) :
      Decodes [v, e] ((v &&& 0x1F).toNat <<< 6 ||| (e &&& 0x3F).toNat)
  | three {v e₁ e₂ : UInt8} (hv : v &&& 0xF0 = 0xE0) :
      Decodes [v, e₁, e₂] ((v &&& 0x0F).toNat <<< 12 ||| (e₁ &&& 0x3F).toNat <<< 6 |||
        (e₂ &&& 0x3F).toNat)
  | four {v e₁ e₂ e₃ : UInt8} (hv : v &&& 0xF8 = 0xF0) :
      Decodes [v, e₁, e₂, e₃] ((v &&& 0x07).toNat <<< 18 ||| (e₁ &&& 0x3F).toNat <<< 12 |||
        (e₂ &&& 0x3F).toNat <<< 6 ||| (e₃ &&& 0x3F).toNat)

/-- Induction over the codepoints read from some bytes. -/
theorem getcCp_induct {P : List UInt8 → List ℕ → Prop} (stop : ∀ bs, P bs [])
    (step : ∀ raw c bs cs, Decodes raw c → P bs cs → P (raw ++ bs) (c :: cs))
    (bs : List UInt8) : P bs (getcCp bs).1 := by
  fun_induction getcCp bs with
  | case1 => exact stop _
  | case2 v1 bs h ih => exact step [v1] _ bs _ (.ascii h) ih
  | case3 v1 bs _ _ ih => exact step [v1] _ bs _ (.malformed v1 []) ih
  | case4 => exact stop _
  | case5 v1 _ _ _ e1 bs _ ih => exact step [v1, e1] _ bs _ (.malformed v1 _) ih
  | case6 v1 _ _ hv e1 bs _ ih => exact step [v1, e1] _ bs _ (.two hv) ih
  | case7 => exact stop _
  | case8 v1 _ _ _ _ e1 bs _ ih => exact step [v1, e1] _ bs _ (.malformed v1 _) ih
  | case9 => exact stop _
  | case10 v1 _ _ _ _ e1 _ e2 bs _ ih => exact step [v1, e1, e2] _ bs _ (.malformed v1 _) ih
  | case11 v1 _ _ _ hv e1 _ e2 bs _ ih => exact step [v1, e1, e2] _ bs _ (.three hv) ih
  | case12 => exact stop _
  | case13 v1 _ _ _ _ _ e1 bs _ ih => exact step [v1, e1] _ bs _ (.malformed v1 _) ih
  | case14 => exact stop _
  | case15 v1 _ _ _ _ _ e1 _ e2 bs _ ih => exact step [v1, e1, e2] _ bs _ (.malformed v1 _) ih
  | case16 => exact stop _
  | case17 v1 _ _ _ _ _ e1 _ e2 _ e3 bs _ ih =>
    exact step [v1, e1, e2, e3] _ bs _ (.malformed v1 _) ih
  | case18 v1 _ _ _ _ hv e1 _ e2 _ e3 bs _ ih => exact step [v1, e1, e2, e3] _ bs _ (.four hv) ih
  | case19 => exact stop _

theorem and_lt {b m : UInt8} {n : ℕ} (hm : m.toNat < n) : (b &&& m).toNat < n := by
  rw [UInt8.toNat_and]
  exact lt_of_le_of_lt Nat.and_le_right hm

theorem Decodes.lt {raw : List UInt8} {c : ℕ} (h : Decodes raw c) : c < 0x200000 := by
  have hl : ∀ b : UInt8, (b &&& 0x3F).toNat < 64 := fun _ => and_lt (by decide)
  cases h with
  | @ascii b hb =>
    have := b.toNat_lt
    omega
  | malformed => decide
  | @two v e =>
    have := @and_lt v 0x1F 32 (by decide)
    have := hl e
    rw [shiftLeft_or (hl e)]
    omega
  | @three v e₁ e₂ =>
    have := @and_lt v 0x0F 16 (by decide)
    have := hl e₁
    have := hl e₂
    rw [shiftLeft_or_three (hl e₁) (hl e₂)]
    omega
  | @four v e₁ e₂ e₃ =>
    have := @and_lt v 0x07 8 (by decide)
    have := hl e₁
    have := hl e₂
    have := hl e₃
    rw [shiftLeft_or_four (hl e₁) (hl e₂) (hl e₃)]
    omega

/-- Whatever the bytes are, the codepoints have at most 21 bits. -/
theorem getcCp_lt (bs : List UInt8) : ∀ c ∈ (getcCp bs).1, c < 0x200000 := by
  refine getcCp_induct (P := fun _ cs => ∀ c ∈ cs, c < 0x200000) ?_ ?_ bs
  · simp
  · intro raw c bs cs hc ih d hd
    rcases List.mem_cons.mp hd with rfl | hd
    · exact hc.lt
    · exact ih d hd

theorem getcByte_eq_self {bs : List UInt8} (h : ¬ [13, 10] <:+: bs) : getcByte bs = bs := by
  fun_induction getcByte bs with
  | case1 bs _ => exact absurd ⟨[], bs, rfl⟩ h
  | case2 b bs _ ih => rw [ih fun hi => h (hi.trans (List.suffix_cons b bs).isInfix)]
  | case3 => rfl

theorem getcByte_cons {b : UInt8} (hb : b ≠ 13) (bs : List UInt8) :
    getcByte (b :: bs) = b :: getcByte bs := by
  rw [getcByte]
  intro tail h
  exact absurd h hb

end Decode

end Mrustc.Parse
