import Mathlib
import Mrustc.Mangling.Mangler

/-! # Mangled names are uniquely decodable

A mangled name shows its form by its first symbols: a digit for a plain name, letters up to a
capital for a name with a hash, an underscore for a back-reference.
-/

namespace Mrustc.Mangling
open Hir Codec Emitter

/-- A name made of letters, digits, underscores and at most one hash, not in front of `_`. -/
structure ValidName (s : RcString) : Prop where
  chars : ∀ c ∈ s, c.isAlphanum = true ∨ c = '_' ∨ c = '#'
  oneHash : s.count '#' ≤ 1
  noHashUnderscore : ¬ ['#', '_'] <+: s

theorem fmtBase26Int_lt {val : ℕ} (h : val < 26) :
    fmtBase26Int val = [Char.ofNat ('A'.toNat + val)] := by
  rw [fmtBase26Int, if_neg (by omega)]

theorem fmtBase26Int_ge {val : ℕ} (h : 26 ≤ val) :
    fmtBase26Int val = Char.ofNat ('a'.toNat + val % 26) :: fmtBase26Int (val / 26) := by
  rw [fmtBase26Int, if_pos h]

theorem lower_injective : ∀ i < 26, ∀ j < 26,
    Char.ofNat ('a'.toNat + i) = Char.ofNat ('a'.toNat + j) → i = j := by decide

theorem upper_injective : ∀ i < 26, ∀ j < 26,
    Char.ofNat ('A'.toNat + i) = Char.ofNat ('A'.toNat + j) → i = j := by decide

theorem lower_isLower : ∀ i < 26, (Char.ofNat ('a'.toNat + i)).isLower = true := by decide

theorem upper_isUpper : ∀ i < 26, (Char.ofNat ('A'.toNat + i)).isLower = false ∧
    (Char.ofNat ('A'.toNat + i)).isAlpha = true := by decide

/-- The capital ends the number, whatever follows. -/
theorem fmtBase26Int_split (m n : ℕ) {r r' : List Char}
    (h : fmtBase26Int m ++ r = fmtBase26Int n ++ r') : m = n ∧ r = r' := by
  induction m using Nat.strong_induction_on generalizing n with
  | _ m ih =>
    by_cases hm : m < 26
    · rw [fmtBase26Int_lt hm] at h
      by_cases hn : n < 26
      · rw [fmtBase26Int_lt hn] at h
        simp only [List.cons_append, List.nil_append, List.cons.injEq] at h
        exact ⟨upper_injective m hm n hn h.1, h.2⟩
      · rw [fmtBase26Int_ge (show 26 ≤ n by omega)] at h
        simp only [List.cons_append, List.nil_append, List.cons.injEq] at h
        have hu := (upper_isUpper m hm).1
        rw [h.1, lower_isLower _ (Nat.mod_lt n (by norm_num))] at hu
        contradiction
    · rw [fmtBase26Int_ge (show 26 ≤ m by omega)] at h
      by_cases hn : n < 26
      · rw [fmtBase26Int_lt hn] at h
        simp only [List.cons_append, List.nil_append, List.cons.injEq] at h
        have hu := (upper_isUpper n hn).1
        rw [← h.1, lower_isLower _ (Nat.mod_lt m (by norm_num))] at hu
        contradiction
      · rw [fmtBase26Int_ge (show 26 ≤ n by omega)] at h
        simp only [List.cons_append, List.cons.injEq] at h
        have hd := lower_injective _ (Nat.mod_lt m (by norm_num)) _ (Nat.mod_lt n (by norm_num)) h.1
        obtain ⟨hq, hr⟩ := ih (m / 26) (by omega) (n / 26) h.2
        exact ⟨by omega, hr⟩

theorem fmtBase26Int_head (val : ℕ) :
    ∃ x xs, fmtBase26Int val = x :: xs ∧ x.isAlpha = true := by
  by_cases h : val < 26
  · exact ⟨_, _, fmtBase26Int_lt h, (upper_isUpper val h).2⟩
  · refine ⟨_, _, fmtBase26Int_ge (by omega), ?_⟩
    rw [Char.isAlpha, lower_isLower _ (Nat.mod_lt val (by norm_num)), Bool.or_true]

/-- The text of a name behind its length: an underscore hides a leading digit or underscore. -/
def escape (s : List Char) : List Char := if needsLeadingEscape s then '_' :: s else s

theorem escape_injective {s t : List Char} (h : escape s = escape t) : s = t := by
  unfold escape at h
  split at h <;> split at h <;> rename_i hs ht
  · exact List.tail_eq_of_cons_eq h
  · rw [← h] at ht
    simp [needsLeadingEscape] at ht
  · rw [h] at hs
    simp [needsLeadingEscape] at hs
  · exact h

theorem escape_nonDigitHead {s : List Char} (hs : (escape s).length ≠ 0) (r : List Char) :
    NonDigitHead (escape s ++ r) := by
  intro x xs h
  unfold escape at h hs
  split at h
  · simp only [List.cons_append, List.cons.injEq] at h
    rw [← h.1]
    rfl
  · rename_i hn
    cases s with
    | nil => exact absurd rfl hs
    | cons y ys =>
      simp only [List.cons_append, List.cons.injEq] at h
      simp only [needsLeadingEscape, List.headD_cons, Bool.or_eq_true, not_or] at hn
      rw [← h.1]
      simpa using hn.1

/-- A length and an escaped text, in front of anything. -/
theorem escaped_split {s t r r' : List Char}
    (h : Nat.toDigits 10 (escape s).length ++ (escape s ++ r) =
      Nat.toDigits 10 (escape t).length ++ (escape t ++ r')) : s = t ∧ r = r' := by
  obtain ⟨hl, ht⟩ := digits_split (fun hs => escape_nonDigitHead hs r)
    (fun ht => escape_nonDigitHead ht r') h
  obtain ⟨he, hr⟩ := List.append_inj ht hl
  exact ⟨escape_injective he, hr⟩

/-- The three forms of a mangled name. -/
inductive NameText : RcString → List Char → Prop
  | plain (s : RcString) (hs : '#' ∉ s) :
      NameText s (Nat.toDigits 10 (escape s).length ++ escape s)
  | leading (d : Char) (s : List Char) (hd : d.isDigit = true) :
      NameText ('#' :: d :: s) (fmtBase26Int (s.length + 1) ++ '_' :: d :: s)
  | middle (s t : List Char) (hs : s = [] → needsLeadingEscape t = false) :
      NameText (s ++ '#' :: t) (fmtBase26Int s.length ++
        (Nat.toDigits 10 (escape (s ++ t)).length ++ escape (s ++ t)))

theorem hashPos_of_not_mem {s : List Char} (hs : ∀ c ∈ s, c ≠ '#' ∧ c ≠ '-') (p : ℕ)
    (found : Option ℕ) : hashPos s p found = found := by
  induction s generalizing p with
  | nil => rfl
  | cons c cs ih =>
    have hc := hs c List.mem_cons_self
    rw [hashPos, if_neg (by tauto), ih fun d hd => hs d (List.mem_cons_of_mem c hd)]

theorem hashPos_append {s t : List Char} (ht : ∀ c ∈ t, c ≠ '#' ∧ c ≠ '-') (p : ℕ)
    (found : Option ℕ) : hashPos (s ++ '#' :: t) p found = some (p + s.length) := by
  induction s generalizing p found with
  | nil =>
    rw [List.nil_append, hashPos, if_pos (Or.inl rfl), hashPos_of_not_mem ht]
    rfl
  | cons c cs ih =>
    rw [List.cons_append, hashPos, ih, List.length_cons]
    congr 1
    omega

theorem ValidName.ne_dash {s : RcString} (hs : ValidName s) : ∀ c ∈ s, c ≠ '-' := by
  rintro c hc rfl
  rcases hs.chars _ hc with h | h | h <;> exact absurd h (by decide)

theorem ValidName.all_isNameChar {s : RcString} (hs : ValidName s) :
    s.all isNameChar = true := by
  rw [List.all_eq_true]
  intro c hc
  rcases hs.chars c hc with h | rfl | rfl
  · simp [isNameChar, h]
  · rfl
  · rfl

theorem escape_length (s : List Char) :
    (escape s).length = s.length + if needsLeadingEscape s then 1 else 0 := by
  unfold escape
  split <;> rfl

theorem escape_append (s : List Char) :
    (if needsLeadingEscape s then ['_'] else []) ++ s = escape s := by
  unfold escape
  split <;> rfl

theorem fmtRawName_plain {s : RcString} (hs : s.all isNameChar = true)
    (hh : ∀ c ∈ s, c ≠ '#' ∧ c ≠ '-') :
    fmtRawName s = some (Nat.toDigits 10 (escape s).length ++ escape s) := by
  simp only [fmtRawName, if_pos hs, hashPos_of_not_mem hh, escape_length, List.append_assoc,
    escape_append]

theorem fmtRawName_leading {d : Char} {t : List Char} (hs : ('#' :: d :: t).all isNameChar = true)
    (ht : ∀ c ∈ d :: t, c ≠ '#' ∧ c ≠ '-') (hd : needsLeadingEscape (d :: t) = true)
    (hu : d ≠ '_') :
    fmtRawName ('#' :: d :: t) = some (fmtBase26Int (t.length + 1) ++ '_' :: d :: t) := by
  have hp := hashPos_append (s := []) ht 0 none
  simp only [List.nil_append, List.length_nil, Nat.add_zero] at hp
  simp only [fmtRawName, if_pos hs, hp]
  rw [if_pos ⟨trivial, hd⟩, if_neg (by simpa using hu)]
  rfl

/-- The hash is dropped, and its position written in front. -/
theorem fmtRawName_middle {s t : List Char} (hst : (s ++ '#' :: t).all isNameChar = true)
    (hs : ∀ c ∈ s, c ≠ '#' ∧ c ≠ '-') (ht : ∀ c ∈ t, c ≠ '#' ∧ c ≠ '-')
    (hlead : s = [] → needsLeadingEscape t = false) :
    fmtRawName (s ++ '#' :: t) = some (fmtBase26Int s.length ++
      (Nat.toDigits 10 (escape (s ++ t)).length ++ escape (s ++ t))) := by
  have hesc : needsLeadingEscape (s ++ '#' :: t) = needsLeadingEscape (s ++ t) := by
    cases s with
    | nil =>
      rw [List.nil_append, List.nil_append, hlead rfl]
      rfl
    | cons x xs => rfl
  have hlen : (s ++ '#' :: t).length - 1 = (s ++ t).length := by
    simp only [List.length_append, List.length_cons]
    omega
  have hmap : (s.map fun c => if c = '-' ∨ c = '#' then '_' else c) = s := by
    have hid : ∀ c ∈ s, (if c = '-' ∨ c = '#' then '_' else c) = id c := fun c hc =>
      if_neg (by have := hs c hc; tauto)
    rw [List.map_congr_left hid, List.map_id]
  have hdrop : (s ++ '#' :: t).drop (s.length + 1) = t := by
    rw [List.drop_append]
    simp
  have hnot : ¬ (s.length = 0 ∧ needsLeadingEscape ((s ++ '#' :: t).drop 1) = true) := by
    rintro ⟨h0, hn⟩
    obtain rfl := List.length_eq_zero_iff.mp h0
    simp [hlead rfl] at hn
  simp only [fmtRawName, if_pos hst, hashPos_append ht, Nat.zero_add, if_neg hnot, hesc, hlen,
    List.take_left, hmap, hdrop, escape_length, List.append_assoc, escape_append]

theorem ValidName.nameText {s : RcString} (hs : ValidName s) {o : List Char}
    (h : fmtRawName s = some o) : NameText s o := by
  by_cases hh : '#' ∈ s
  · obtain ⟨a, b, rfl⟩ := List.append_of_mem hh
    have hcount : a.count '#' = 0 ∧ b.count '#' = 0 := by
      have := hs.oneHash
      rw [List.count_append, List.count_cons_self] at this
      omega
    have hb : ∀ c ∈ b, c ≠ '#' ∧ c ≠ '-' := fun c hc =>
      ⟨fun he => List.count_eq_zero.mp hcount.2 (he ▸ hc), hs.ne_dash c (by simp [hc])⟩
    have ha : ∀ c ∈ a, c ≠ '#' ∧ c ≠ '-' := fun c hc =>
      ⟨fun he => List.count_eq_zero.mp hcount.1 (he ▸ hc), hs.ne_dash c (by simp [hc])⟩
    by_cases hlead : a = [] → needsLeadingEscape b = false
    · rw [fmtRawName_middle hs.all_isNameChar ha hb hlead, Option.some.injEq] at h
      exact h ▸ .middle a b hlead
    · obtain ⟨rfl, hb'⟩ := Classical.not_imp.mp hlead
      rw [Bool.not_eq_false] at hb'
      cases b with
      | nil => exact absurd hb' (by decide)
      | cons d t =>
        have hd : d ≠ '_' := fun he => hs.noHashUnderscore (he ▸ ⟨t, rfl⟩)
        rw [List.nil_append, fmtRawName_leading hs.all_isNameChar hb hb' hd,
          Option.some.injEq] at h
        exact h ▸ .leading d t (by simpa [needsLeadingEscape, hd] using hb')
  · have hn : ∀ c ∈ s, c ≠ '#' ∧ c ≠ '-' := fun c hc => ⟨fun he => hh (he ▸ hc), hs.ne_dash c hc⟩
    rw [fmtRawName_plain hs.all_isNameChar hn, Option.some.injEq] at h
    exact h ▸ .plain s hh

theorem isAlpha_not_isDigit {c : Char} (h : c.isAlpha = true) : c.isDigit = false := by
  have hA : 'A'.val.toNat = 65 := rfl
  have ha : 'a'.val.toNat = 97 := rfl
  have h9 : '9'.val.toNat = 57 := rfl
  simp only [Char.isAlpha, Char.isUpper, Char.isLower, Char.isDigit, Bool.or_eq_true,
    Bool.and_eq_true, decide_eq_true_eq, Bool.and_eq_false_iff, decide_eq_false_iff_not,
    UInt32.le_iff_toNat_le, ge_iff_le] at *
  omega

/-- A plain name starts with a digit, a name with a hash with a letter. -/
theorem NameText.head {s : RcString} {o : List Char} (h : NameText s o) :
    ∃ x xs, o = x :: xs ∧ (x.isDigit = true ↔ '#' ∉ s) ∧ x ≠ '_' := by
  have hd : ∀ c : Char, c.isDigit = true → c ≠ '_' := by
    rintro c hc rfl
    exact absurd hc (by decide)
  have ha : ∀ c : Char, c.isAlpha = true → c ≠ '_' := by
    rintro c hc rfl
    exact absurd hc (by decide)
  cases h with
  | plain _ hs =>
    obtain ⟨x, xs, hx, hdx⟩ := toDigits_head (n := (escape s).length)
    exact ⟨x, xs ++ escape s, by rw [hx]; rfl, by simp [hdx, hs], hd x hdx⟩
  | leading d s _ =>
    obtain ⟨x, xs, hx, hax⟩ := fmtBase26Int_head (s.length + 1)
    exact ⟨x, _, by rw [hx]; rfl, by simp [isAlpha_not_isDigit hax], ha x hax⟩
  | middle s t _ =>
    obtain ⟨x, xs, hx, hax⟩ := fmtBase26Int_head s.length
    exact ⟨x, _, by rw [hx]; rfl, by simp [isAlpha_not_isDigit hax], ha x hax⟩

theorem NameText.split {s t o p r r' : List Char} (hs : NameText s o) (ht : NameText t p)
    (h : o ++ r = p ++ r') : s = t ∧ r = r' := by
  have hhash : '#' ∉ s ↔ '#' ∉ t := by
    obtain ⟨x, xs, rfl, hx, -⟩ := hs.head
    obtain ⟨y, ys, rfl, hy, -⟩ := ht.head
    simp only [List.cons_append, List.cons.injEq] at h
    rw [← hx, ← hy, h.1]
  -- An underscore or a digit behind the position tells the two forms with a hash apart
  have hnodigit : ∀ (n : ℕ) (xs ys : List Char), '_' :: xs ≠ Nat.toDigits 10 n ++ ys := by
    intro n xs ys he
    obtain ⟨x, xs', hx, hd⟩ := toDigits_head (n := n)
    rw [hx] at he
    simp only [List.cons_append, List.cons.injEq] at he
    exact absurd (he.1 ▸ hd) (by decide)
  cases hs with
  | plain _ hs =>
    cases ht with
    | plain _ _ => exact escaped_split (by simpa using h)
    | leading => simp [hs] at hhash
    | middle => simp [hs] at hhash
  | leading d s hd =>
    cases ht with
    | plain _ ht => simp [ht] at hhash
    | leading d' t hd' =>
      rw [List.append_assoc, List.append_assoc] at h
      obtain ⟨hl, he⟩ := fmtBase26Int_split _ _ h
      simp only [List.cons_append, List.cons.injEq, true_and] at he
      obtain ⟨rfl, rfl⟩ := List.append_inj he.2 (by omega)
      exact ⟨by rw [he.1], rfl⟩
    | middle s' t _ =>
      simp only [List.append_assoc] at h
      obtain ⟨-, he⟩ := fmtBase26Int_split _ _ h
      exact absurd he (hnodigit _ _ _)
  | middle s t hs =>
    cases ht with
    | plain _ ht => simp [ht] at hhash
    | leading d s' hd =>
      simp only [List.append_assoc] at h
      obtain ⟨-, he⟩ := fmtBase26Int_split _ _ h
      exact absurd he.symm (hnodigit _ _ _)
    | middle s' t' hs' =>
      simp only [List.append_assoc] at h
      obtain ⟨hl, he⟩ := fmtBase26Int_split _ _ h
      obtain ⟨hst, hr⟩ := escaped_split he
      obtain ⟨rfl, rfl⟩ := List.append_inj hst hl
      exact ⟨rfl, hr⟩

/-- The emitter of a name, cached or not, from which the name can be read back. -/
theorem agree_fmtRawName {s t : RcString} (hs : ValidName s) (ht : ValidName t) :
    Agree (fun cache : List RcString => (fmtRawName s).map fun text => (text, cache))
      (fun cache => (fmtRawName t).map fun text => (text, cache)) (s = t) := by
  intro c o₁ c₁ o₂ c₂ r₁ r₂ h₁ h₂ he
  obtain ⟨_, hs', h₁⟩ := Option.map_eq_some_iff.mp h₁
  obtain ⟨_, ht', h₂⟩ := Option.map_eq_some_iff.mp h₂
  simp only [Prod.mk.injEq] at h₁ h₂
  obtain ⟨rfl, rfl⟩ := h₁
  obtain ⟨rfl, rfl⟩ := h₂
  obtain ⟨hst, hr⟩ := (hs.nameText hs').split (ht.nameText ht') he
  exact ⟨hst, rfl, hr⟩

theorem idxOf?_injective {c : List RcString} {s t : RcString} {idx : ℕ}
    (hs : c.idxOf? s = some idx) (ht : c.idxOf? t = some idx) : s = t := by
  obtain ⟨_, hs, -⟩ := List.idxOf?_eq_some_iff.mp hs
  obtain ⟨_, ht, -⟩ := List.idxOf?_eq_some_iff.mp ht
  exact hs.symm.trans ht

/-- What a cached name emits: a back-reference into the cache, or its own text. -/
theorem fmtName_cases {log26 : ℕ → ℕ} {s : RcString} {c c' : List RcString} {o : List Char}
    (hs : ValidName s) (h : fmtName log26 s c = some (o, c')) :
    (∃ idx, o = '_' :: fmtBase26Int idx ∧ c.idxOf? s = some idx ∧ c' = c) ∨
      (NameText s o ∧ c' = if s ∈ c then c else c ++ [s]) := by
  unfold fmtName at h
  split at h
  · rename_i idx hidx
    split at h
    · cases h
      exact Or.inl ⟨idx, rfl, hidx, rfl⟩
    · obtain ⟨o', ho, he⟩ := Option.map_eq_some_iff.mp h
      cases he
      have hmem : s ∈ c := by
        obtain ⟨hlt, hc, -⟩ := List.idxOf?_eq_some_iff.mp hidx
        exact hc ▸ List.getElem_mem hlt
      exact Or.inr ⟨hs.nameText ho, by rw [if_pos hmem]⟩
  · rename_i hidx
    obtain ⟨o', ho, he⟩ := Option.map_eq_some_iff.mp h
    cases he
    exact Or.inr ⟨hs.nameText ho, by rw [if_neg (by simpa using hidx)]⟩

theorem agree_fmtName {log26 : ℕ → ℕ} {s t : RcString} (hs : ValidName s) (ht : ValidName t) :
    Agree (fmtName log26 s) (fmtName log26 t) (s = t) := by
  intro c o₁ c₁ o₂ c₂ r₁ r₂ h₁ h₂ he
  rcases fmtName_cases hs h₁ with ⟨i, rfl, hi, rfl⟩ | ⟨hns, rfl⟩
  · rcases fmtName_cases ht h₂ with ⟨j, rfl, hj, rfl⟩ | ⟨hnt, rfl⟩
    · simp only [List.cons_append, List.cons.injEq, true_and] at he
      obtain ⟨rfl, hr⟩ := fmtBase26Int_split _ _ he
      exact ⟨idxOf?_injective hi hj, rfl, hr⟩
    · obtain ⟨x, xs, rfl, -, hx⟩ := hnt.head
      simp only [List.cons_append, List.cons.injEq] at he
      exact absurd he.1.symm hx
  · rcases fmtName_cases ht h₂ with ⟨j, rfl, hj, rfl⟩ | ⟨hnt, rfl⟩
    · obtain ⟨x, xs, rfl, -, hx⟩ := hns.head
      simp only [List.cons_append, List.cons.injEq] at he
      exact absurd he.1 hx
    · obtain ⟨rfl, hr⟩ := hns.split hnt he
      exact ⟨rfl, rfl, hr⟩

end Mrustc.Mangling
