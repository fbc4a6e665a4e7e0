import Mrustc.Codec.Emitter
import Mathlib.Data.Nat.Digits.Defs
import Mathlib.Tactic

/-! # Decimal numbers inside a text

A decimal number can be read back from a longer text when it is zero, or when the
symbol behind it is not a digit: the digits of a positive number never start with `0`.
-/

namespace Mrustc.Codec

variable {σ : Type*}

/-- `text` does not start with a decimal digit. -/
def NonDigitHead (text : List Char) : Prop := ∀ x xs, text = x :: xs → x.isDigit = false

theorem toDigits_isDigit {n : ℕ} {x : Char} (hx : x ∈ Nat.toDigits 10 n) : x.isDigit = true :=
  Nat.isDigit_of_mem_toDigits (by norm_num) (by norm_num) hx

theorem toDigits_injective {m n : ℕ} (h : Nat.toDigits 10 m = Nat.toDigits 10 n) : m = n := by
  rw [← Nat.ofDigitChars_ten_toDigits (n := m), h, Nat.ofDigitChars_ten_toDigits]

theorem toDigits_head {n : ℕ} : ∃ x xs, Nat.toDigits 10 n = x :: xs ∧ x.isDigit = true := by
  cases h : Nat.toDigits 10 n with
  | nil => exact absurd h Nat.toDigits_ne_nil
  | cons x xs => exact ⟨x, xs, rfl, toDigits_isDigit (h ▸ List.mem_cons_self)⟩

/-- Printed positive numbers have no leading zero. -/
theorem toDigits_head_ne_zero (n : ℕ) : ∀ xs, Nat.toDigits 10 n = '0' :: xs → n = 0 := by
  induction n using Nat.strong_induction_on with
  | _ n ih =>
    intro xs hx
    by_cases hn : n < 10
    · rw [Nat.toDigits_of_lt_base hn] at hx
      interval_cases n <;> simp_all [Nat.digitChar]
    · rw [Nat.toDigits_of_base_le (by norm_num) (by omega)] at hx
      obtain ⟨y, ys, hy, -⟩ := toDigits_head (n := n / 10)
      rw [hy, List.cons_append, List.cons.injEq] at hx
      have := ih (n / 10) (by omega) ys (hx.1 ▸ hy)
      omega

theorem takeWhile_digits (n : ℕ) {r : List Char} (hr : NonDigitHead r) :
    (Nat.toDigits 10 n ++ r).takeWhile Char.isDigit = Nat.toDigits 10 n := by
  rw [List.takeWhile_append_of_pos fun x hx => toDigits_isDigit hx]
  cases r with
  | nil => simp
  | cons x xs => simp [hr x xs rfl]

/-- Reading a number back: a digit may only follow a zero. -/
theorem digits_split {m n : ℕ} {r r' : List Char} (hm : m ≠ 0 → NonDigitHead r)
    (hn : n ≠ 0 → NonDigitHead r')
    (h : Nat.toDigits 10 m ++ r = Nat.toDigits 10 n ++ r') : m = n ∧ r = r' := by
  have hmn : m = n := by
    by_cases hm0 : m = 0
    · subst hm0
      by_contra hn0
      rw [Nat.toDigits_zero] at h
      obtain ⟨y, ys, hy, -⟩ := toDigits_head (n := n)
      rw [hy] at h
      simp only [List.cons_append, List.cons.injEq] at h
      exact hn0 (toDigits_head_ne_zero n ys (h.1 ▸ hy)).symm
    · by_cases hn0 : n = 0
      · subst hn0
        rw [Nat.toDigits_zero] at h
        obtain ⟨y, ys, hy, -⟩ := toDigits_head (n := m)
        rw [hy] at h
        simp only [List.cons_append, List.cons.injEq] at h
        exact absurd (toDigits_head_ne_zero m ys (h.1 ▸ hy)) hm0
      · have hw := congrArg (List.takeWhile Char.isDigit) h
        rw [takeWhile_digits m (hm hm0), takeWhile_digits n (hn hn0)] at hw
        exact toDigits_injective hw
  subst hmn
  exact ⟨rfl, List.append_cancel_left h⟩

/-- Reading digits back, whatever is made of each digit. -/
theorem foldl_toDigits {b : ℕ} (value : Char → ℕ) (hb : 1 < b)
    (hvalue : ∀ d < b, value (Nat.digitChar d) = d) (n : ℕ) :
    (Nat.toDigits b n).foldl (fun acc c => acc * b + value c) 0 = n := by
  induction n using Nat.strong_induction_on with
  | _ n ih =>
    by_cases hn : n < b
    · simp [Nat.toDigits_of_lt_base hn, hvalue n hn]
    · have hdiv : n / b < n := Nat.div_lt_self (by omega) hb
      have hmod : n % b < b := Nat.mod_lt n (by omega)
      rw [Nat.toDigits_of_base_le hb (by omega), List.foldl_append, ih (n / b) hdiv]
      simp only [List.foldl_cons, List.foldl_nil, hvalue _ hmod]
      exact Nat.div_add_mod' n b

namespace Emitter

/-- The emitter that writes a number in decimal, as a C++ output stream does. -/
def number (n : ℕ) : Emitter σ Char := write (Nat.toDigits 10 n)

theorem leads_number (n : ℕ) : Leads (σ := σ) (number n) (fun x => x.isDigit = true) := by
  obtain ⟨x, xs, hx, hd⟩ := toDigits_head (n := n)
  rw [number, hx]
  exact leads_write xs hd

theorem Leads.nonDigitHead {a : Emitter σ Char} (h : Leads a (fun x => x.isDigit = false))
    {c c' : σ} {o r : List Char} (ha : a c = some (o, c')) : NonDigitHead (o ++ r) := by
  obtain ⟨x, xs, rfl, hx⟩ := h ha
  rintro y ys hy
  simp only [List.cons_append, List.cons.injEq] at hy
  exact hy.1 ▸ hx

/-- A number in front of something that never starts with a digit, unless the number is zero. -/
theorem agree_number_seq {m n : ℕ} {a b : Emitter σ Char} {P : Prop}
    (ha : m ≠ 0 → Leads a (fun x => x.isDigit = false))
    (hb : n ≠ 0 → Leads b (fun x => x.isDigit = false)) (h : m = n → Agree a b P) :
    Agree ((number m).seq a) ((number n).seq b) (m = n ∧ P) := by
  intro c o₁ c₁ o₂ c₂ r₁ r₂ h₁ h₂ he
  obtain ⟨s, d, t, hs, ht, rfl⟩ := seq_eq_some.mp h₁
  obtain ⟨s', d', t', hs', ht', rfl⟩ := seq_eq_some.mp h₂
  cases hs
  cases hs'
  rw [List.append_assoc, List.append_assoc] at he
  obtain ⟨hmn, he'⟩ := digits_split (fun hm => (ha hm).nonDigitHead ht)
    (fun hn => (hb hn).nonDigitHead ht') he
  obtain ⟨hP, hs⟩ := h hmn ht ht' he'
  exact ⟨⟨hmn, hP⟩, hs⟩

end Emitter

end Mrustc.Codec
