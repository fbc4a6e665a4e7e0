import Mrustc.Parse.ReadText

/-! # Byte strings that print as they read

A weight on bytes that no reading increases, and that every escape decreases. A byte string
that reads back from its own contents therefore has no escapes in them.
-/

namespace Mrustc.Parse
open Codepoint

/-- Backslashes weigh most, then the bytes that may start an overlong sequence. -/
def byteWeight (b : UInt8) : ℕ :=
  if b = '\\'.toUInt8 then 5
  else if b = 0xC0 ∨ b = 0xC1 ∨ b = 0xE0 ∨ b = 0xF0 then 4
  else if isxdigit b.toNat ∨ b = '"'.toUInt8 ∨ b = '\n'.toUInt8 ∨ b = '\r'.toUInt8 then 1
  else 0

def bytesWeight (bs : List UInt8) : ℕ := (bs.map byteWeight).sum

/-- The least weight of the bytes of a codepoint, however it is encoded. -/
def cpWeight (c : ℕ) : ℕ := if c = cp '\\' then 4 else bytesWeight (utf8 c)

def cpsWeight (cs : List ℕ) : ℕ := (cs.map cpWeight).sum

@[simp] theorem bytesWeight_nil : bytesWeight [] = 0 := rfl

@[simp] theorem bytesWeight_cons (b : UInt8) (bs : List UInt8) :
    bytesWeight (b :: bs) = byteWeight b + bytesWeight bs := rfl

@[simp] theorem bytesWeight_append (bs ds : List UInt8) :
    bytesWeight (bs ++ ds) = bytesWeight bs + bytesWeight ds := by
  simp [bytesWeight]

@[simp] theorem cpsWeight_nil : cpsWeight [] = 0 := rfl

@[simp] theorem cpsWeight_cons (c : ℕ) (cs : List ℕ) :
    cpsWeight (c :: cs) = cpWeight c + cpsWeight cs := rfl

@[simp] theorem cpsWeight_append (cs ds : List ℕ) :
    cpsWeight (cs ++ ds) = cpsWeight cs + cpsWeight ds := by
  simp [cpsWeight]

section Decoding

theorem byteWeight_ascii : ∀ c < 128, byteWeight c.toUInt8 ≤ 5 ∧
    (c ≠ cp '\\' → byteWeight c.toUInt8 ≤ 1) := by decide

theorem byteWeight_continuation : ∀ y < 64, byteWeight (0x80 ||| y).toUInt8 = 0 := by decide

theorem byteWeight_leads : (∀ y < 32, byteWeight (0xC0 ||| y).toUInt8 = if y ≤ 1 then 4 else 0) ∧
    (∀ y < 16, byteWeight (0xE0 ||| y).toUInt8 = if y = 0 then 4 else 0) ∧
    ∀ y < 8, byteWeight (0xF0 ||| y).toUInt8 = if y = 0 then 4 else 0 := by decide

theorem cpWeight_ascii {c : ℕ} (hc : c < 128) :
    cpWeight c ≤ byteWeight c.toUInt8 ∧ cpWeight c ≤ 4 := by
  unfold cpWeight
  split_ifs with h
  · subst h
    decide
  · rw [utf8_ascii hc, bytesWeight_cons, bytesWeight_nil, Nat.add_zero]
    exact ⟨le_rfl, ((byteWeight_ascii c hc).2 h).trans (by norm_num)⟩

/-- Only the first codepoints of each length weigh anything. -/
theorem cpWeight_wide {c : ℕ} (hc : 128 ≤ c) (hlt : c < 0x200000) : cpWeight c =
    if (0x800 ≤ c ∧ c < 0x1000) ∨ (0x10000 ≤ c ∧ c < 0x40000) then 4 else 0 := by
  obtain ⟨l₂, l₃, l₄⟩ := byteWeight_leads
  have t0 := byteWeight_continuation (c % 64) (by omega)
  have t6 := byteWeight_continuation (c / 64 % 64) (by omega)
  have t12 := byteWeight_continuation (c / 4096 % 64) (by omega)
  have h0 : c &&& 0x3F = c % 64 := Nat.and_two_pow_sub_one_eq_mod c 6
  have h6 : c >>> 6 &&& 0x3F = c / 64 % 64 := shiftRight_and_mask c 6 6
  have hback : c ≠ cp '\\' := by
    rintro rfl
    exact absurd hc (by decide)
  rw [cpWeight, if_neg hback, utf8, appendCp, if_neg (by omega)]
  by_cases h800 : c < 0x800
  · rw [if_pos h800, h0, show c >>> 6 &&& 0x1F = c / 64 % 32 from shiftRight_and_mask c 6 5]
    simp only [Option.getD_some, bytesWeight_cons, bytesWeight_nil, t0,
      l₂ (c / 64 % 32) (by omega)]
    split_ifs <;> omega
  · rw [if_neg h800]
    by_cases h10000 : c < 0x10000
    · rw [if_pos h10000, h0, h6,
        show c >>> 12 &&& 0x0F = c / 4096 % 16 from shiftRight_and_mask c 12 4]
      simp only [Option.getD_some, bytesWeight_cons, bytesWeight_nil, t0, t6,
        l₃ (c / 4096 % 16) (by omega)]
      split_ifs <;> omega
    · rw [if_neg h10000, if_pos hlt, h0, h6,
        show c >>> 18 &&& 0x07 = c / 262144 % 8 from shiftRight_and_mask c 18 3,
        show c >>> 12 &&& 0x3F = c / 4096 % 64 from shiftRight_and_mask c 12 6]
      simp only [Option.getD_some, bytesWeight_cons, bytesWeight_nil, t0, t6, t12,
        l₄ (c / 262144 % 8) (by omega)]
      split_ifs <;> omega

theorem cpWeight_le {c : ℕ} (hlt : c < 0x200000) : cpWeight c ≤ 4 := by
  by_cases hc : c < 128
  · exact (cpWeight_ascii hc).2
  · rw [cpWeight_wide (by omega) hlt]
    split_ifs <;> omega

theorem byteWeight_lead : ∀ v : UInt8,
    (v &&& 0xE0 = 0xC0 → (v &&& 0x1F).toNat ≤ 1 → byteWeight v = 4) ∧
    (v &&& 0xF0 = 0xE0 → (v &&& 0x0F).toNat = 0 → byteWeight v = 4) ∧
    (v &&& 0xF8 = 0xF0 → (v &&& 0x07).toNat = 0 → byteWeight v = 4) := by
  have h : ∀ n < 256, ((n.toUInt8 &&& 0xE0 = 0xC0 → (n.toUInt8 &&& 0x1F).toNat ≤ 1 →
      byteWeight n.toUInt8 = 4) ∧
    (n.toUInt8 &&& 0xF0 = 0xE0 → (n.toUInt8 &&& 0x0F).toNat = 0 → byteWeight n.toUInt8 = 4) ∧
    (n.toUInt8 &&& 0xF8 = 0xF0 → (n.toUInt8 &&& 0x07).toNat = 0 → byteWeight n.toUInt8 = 4)) := by
    decide +kernel
  intro v
  have := h v.toNat v.toNat_lt
  rwa [Nat.toUInt8, UInt8.ofNat_toNat] at this

/-- No codepoint weighs more than the bytes it was read from. -/
theorem Decodes.weight_le {raw : List UInt8} {c : ℕ} (h : Decodes raw c) :
    cpWeight c ≤ bytesWeight raw := by
  have hl : ∀ b : UInt8, (b &&& 0x3F).toNat < 64 := fun _ => and_lt (by decide)
  have hlt := h.lt
  cases h with
  | @ascii b hb =>
    have hb' : b.toNat < 128 := UInt8.lt_iff_toNat_lt.mp hb
    have := (cpWeight_ascii hb').1
    rwa [Nat.toUInt8, UInt8.ofNat_toNat] at this
  | malformed b bs => exact (by decide : cpWeight 0xFFFE = 0).le.trans (Nat.zero_le _)
  | @two v e hv =>
    have := @and_lt v 0x1F 32 (by decide)
    rw [shiftLeft_or (hl e)] at hlt ⊢
    by_cases hy : (v &&& 0x1F).toNat ≤ 1
    · have := cpWeight_le hlt
      rw [bytesWeight_cons, (byteWeight_lead v).1 hv hy]
      omega
    · have := hl e
      rw [cpWeight_wide (by omega) hlt, if_neg (by omega)]
      omega
  | @three v e₁ e₂ hv =>
    have := @and_lt v 0x0F 16 (by decide)
    rw [shiftLeft_or_three (hl e₁) (hl e₂)] at hlt ⊢
    by_cases hy : (v &&& 0x0F).toNat = 0
    · have := cpWeight_le hlt
      rw [bytesWeight_cons, (byteWeight_lead v).2.1 hv hy]
      omega
    · have := hl e₁
      have := hl e₂
      rw [cpWeight_wide (by omega) hlt, if_neg (by omega)]
      omega
  | @four v e₁ e₂ e₃ hv =>
    have := @and_lt v 0x07 8 (by decide)
    rw [shiftLeft_or_four (hl e₁) (hl e₂) (hl e₃)] at hlt ⊢
    by_cases hy : (v &&& 0x07).toNat = 0
    · have := cpWeight_le hlt
      rw [bytesWeight_cons, (byteWeight_lead v).2.2 hv hy]
      omega
    · have := hl e₁
      have := hl e₂
      have := hl e₃
      rw [cpWeight_wide (by omega) hlt, if_neg (by omega)]
      omega

theorem getcCp_weight_le (bs : List UInt8) : cpsWeight (getcCp bs).1 ≤ bytesWeight bs := by
  refine getcCp_induct (P := fun bs cs => cpsWeight cs ≤ bytesWeight bs) ?_ ?_ bs
  · intro bs
    exact Nat.zero_le _
  · intro raw c bs cs hc ih
    have := hc.weight_le
    rw [cpsWeight_cons, bytesWeight_append]
    omega

theorem getcByte_weight_le (bs : List UInt8) : bytesWeight (getcByte bs) ≤ bytesWeight bs ∧
    ([13, 10] <:+: bs → bytesWeight (getcByte bs) < bytesWeight bs) := by
  have h13 : byteWeight 13 = 1 := by decide
  fun_induction getcByte bs with
  | case1 bs ih =>
    rw [bytesWeight_cons, bytesWeight_cons, bytesWeight_cons]
    omega
  | case2 b bs hne ih =>
    obtain ⟨hle, hlt⟩ := ih
    rw [bytesWeight_cons, bytesWeight_cons]
    refine ⟨by omega, fun hi => ?_⟩
    rcases List.infix_cons_iff.mp hi with hp | hi
    · obtain ⟨t, ht⟩ := hp
      cases ht
      exact absurd rfl (hne t rfl)
    · have := hlt hi
      omega
  | case3 =>
    refine ⟨le_rfl, fun hi => ?_⟩
    simpa using hi.length_le

end Decoding

section Escapes

variable {stop : LexError}

/-- The weight of what an escape adds. -/
def escapeWeight (v : BitVec 32) : ℕ :=
  if v = BitVec.allOnes 32 then 0 else byteWeight v.toNat.toUInt8

theorem byteWeight_le (b : UInt8) : byteWeight b ≤ 5 := by
  unfold byteWeight
  split_ifs <;> omega

theorem escapeWeight_le (v : BitVec 32) : escapeWeight v ≤ 5 := by
  unfold escapeWeight
  split_ifs
  · exact Nat.zero_le _
  · exact byteWeight_le _

theorem escapeWeight_ofNat {n : ℕ} (hn : n ≤ 256) :
    escapeWeight (BitVec.ofNat 32 n) = byteWeight n.toUInt8 := by
  rw [escapeWeight, if_neg (ofNat_ne_allOnes (by omega)), BitVec.toNat_ofNat,
    Nat.mod_eq_of_lt (by omega)]

theorem byteWeight_not_backslash : ∀ n ≤ 256, n ≠ cp '\\' → byteWeight n.toUInt8 ≤ 4 := by
  decide +kernel

theorem xdigit_lt {d : ℕ} (hd : isxdigit d = true) : d < 128 := by
  simp only [isxdigit, isdigit, cp, Bool.or_eq_true, Bool.and_eq_true, decide_eq_true_eq,
    Char.reduceToNat] at hd
  omega

theorem xdigit_weight {d : ℕ} (hd : isxdigit d = true) : cpWeight d = 1 ∧ xdigitValue d < 16 :=
  (by decide : ∀ d < 128, isxdigit d = true → cpWeight d = 1 ∧ xdigitValue d < 16) d
    (xdigit_lt hd) hd

theorem xdigits_weight {digits : List ℕ} (hd : ∀ d ∈ digits, isxdigit d = true) :
    cpsWeight digits = digits.length := by
  induction digits with
  | nil => rfl
  | cons d digits ih =>
    obtain ⟨hd, hdigits⟩ := List.forall_mem_cons.mp hd
    rw [cpsWeight_cons, (xdigit_weight hd).1, ih hdigits, List.length_cons, Nat.add_comm]

/-- One digit is too few to name a byte that weighs more than it does. -/
theorem unicode_weight {digits : List ℕ} (hne : digits ≠ [])
    (hd : ∀ d ∈ digits, isxdigit d = true) :
    escapeWeight (xdigitsValue 0 digits) < cpsWeight digits + 4 := by
  have hle := escapeWeight_le (xdigitsValue 0 digits)
  rw [xdigits_weight hd]
  rcases digits with _ | ⟨d, _ | ⟨d', digits⟩⟩
  · exact absurd rfl hne
  · have hval := (xdigit_weight (hd d List.mem_cons_self)).2
    have hone : xdigitsValue 0 [d] = BitVec.ofNat 32 (xdigitValue d) := by
      simp [xdigitsValue]
    rw [hone, escapeWeight_ofNat (by omega), List.length_singleton]
    have := (byteWeight_ascii (xdigitValue d) (by omega)).2 (by simp [cp]; omega)
    omega
  · simp only [List.length_cons]
    omega

theorem parseEscape_weight {skipping : Bool} {v : BitVec 32} {input rest : List ℕ}
    (hinput : ∀ c ∈ input, c < 0x200000)
    (h : parseEscape stop '"' skipping input = .ok (v, rest))
    (hv : v = BitVec.allOnes 32 ∨ v.toNat ≤ 256) :
    escapeWeight v + cpsWeight rest ≤ cpsWeight input + 4 ∧
      (skipping = false → escapeWeight v + cpsWeight rest < cpsWeight input + 4) := by
  induction input generalizing skipping with
  | nil => cases skipping <;> cases h
  | cons ch input ih =>
    obtain ⟨hch, hinput⟩ := List.forall_mem_cons.mp hinput
    cases skipping with
    | true =>
      simp only [Bool.true_eq_false, false_implies, and_true]
      rw [parseEscape] at h
      rw [cpsWeight_cons]
      split_ifs at h with hspace hback hquote
      · have := (ih hinput h).1
        omega
      · have := (ih hinput h).2 rfl
        rw [hback, show cpWeight (cp '\\') = 4 from rfl]
        omega
      · cases h
        rw [escapeWeight, if_pos rfl, cpsWeight_cons]
        omega
      · cases h
        rw [BitVec.toNat_ofNat, Nat.mod_eq_of_lt (by omega)] at hv
        have hle : ch ≤ 256 := hv.resolve_left (ofNat_ne_allOnes (by omega))
        have := byteWeight_not_backslash ch hle hback
        rw [escapeWeight_ofNat hle]
        omega
    | false =>
      suffices hlt : escapeWeight v + cpsWeight rest < cpsWeight (ch :: input) + 4 from
        ⟨hlt.le, fun _ => hlt⟩
      rw [parseEscape] at h
      rw [cpsWeight_cons]
      split_ifs at h with hx hu h0 hself hr hn ht hnl
      · obtain ⟨c₁, c₂, rfl, h₁, h₂, rfl⟩ := (byteEscape_eq_ok stop).mp h
        have := escapeWeight_le (BitVec.ofNat 32 (xdigitValue c₁ * 16 + xdigitValue c₂))
        rw [cpsWeight_cons, cpsWeight_cons, (xdigit_weight h₁).1, (xdigit_weight h₂).1]
        omega
      · obtain ⟨digits, hne, hd, rfl, rfl | rfl⟩ := unicodeEscape_eq_ok stop h
        · have := unicode_weight hne hd
          rw [List.cons_append, cpsWeight_cons, cpsWeight_append, cpsWeight_cons]
          omega
        · have := unicode_weight hne hd
          rw [cpsWeight_append]
          omega
      · cases h
        rw [show escapeWeight 0 = 0 by decide]
        omega
      · cases h
        have hch' : ch < 128 := by rcases hself with rfl | rfl | rfl <;> decide
        have hw : byteWeight ch.toUInt8 < cpWeight ch + 4 := by
          rcases hself with rfl | rfl | rfl <;> decide
        rw [escapeWeight_ofNat (by omega)]
        omega
      · cases h
        rw [show escapeWeight (BitVec.ofNat 32 (cp '\r')) = 1 by decide]
        omega
      · cases h
        rw [show escapeWeight (BitVec.ofNat 32 (cp '\n')) = 1 by decide]
        omega
      · cases h
        rw [show escapeWeight (BitVec.ofNat 32 (cp '\t')) = 0 by decide]
        omega
      · have hone : cpWeight ch = 1 := by rcases hnl with rfl | rfl <;> decide
        have := (ih hinput h).1
        omega

/-- Reading a byte string loses weight with every escape, and keeps its weight only without. -/
theorem scanString_weight {str out : List UInt8} {input rest : List ℕ}
    (hinput : ∀ c ∈ input, c < 0x200000) (h : scanString stop addByte str input = .ok (out, rest)) :
    ∃ s, out = str ++ s ∧ bytesWeight s + 1 + cpsWeight rest ≤ cpsWeight input ∧
      (bytesWeight s + 1 + cpsWeight rest = cpsWeight input →
        ∃ cs, s = encode cs ∧ ∀ c ∈ cs, c ≠ cp '"' ∧ c ≠ cp '\\' ∧ c < 0x200000) := by
  fun_induction scanString stop addByte str input with
  | case1 => cases h
  | case2 str input =>
    cases h
    exact ⟨[], (List.append_nil _).symm, by
      rw [cpsWeight_cons, show cpWeight (cp '"') = 1 by decide]
      simp, fun _ => ⟨[], rfl, by simp⟩⟩
  | case3 => cases h
  | case4 str input rest' _ hesc _ ih =>
    have hrest' : ∀ c ∈ rest', c < 0x200000 := fun c hc =>
      hinput c (List.mem_cons_of_mem _ ((parseEscape_suffix stop hesc).subset hc))
    have hw := (parseEscape_weight (fun c hc => hinput c (List.mem_cons_of_mem _ hc)) hesc
      (Or.inl rfl)).2 rfl
    obtain ⟨s, rfl, hle, -⟩ := ih hrest' h
    have hlt : bytesWeight s + 1 + cpsWeight rest < cpsWeight (cp '\\' :: input) := by
      rw [cpsWeight_cons, show cpWeight (cp '\\') = 4 from rfl]
      omega
    exact ⟨s, rfl, hlt.le, fun he => absurd he hlt.ne⟩
  | case5 => cases h
  | case6 str input v rest' hesc _ hones str' hadd _ ih =>
    have hrest' : ∀ c ∈ rest', c < 0x200000 := fun c hc =>
      hinput c (List.mem_cons_of_mem _ ((parseEscape_suffix stop hesc).subset hc))
    unfold addByte at hadd
    split_ifs at hadd with hv
    cases hadd
    have hw := (parseEscape_weight (fun c hc => hinput c (List.mem_cons_of_mem _ hc)) hesc
      (Or.inr (not_lt.mp hv))).2 rfl
    rw [escapeWeight, if_neg hones] at hw
    obtain ⟨s, rfl, hle, -⟩ := ih hrest' h
    have hlt : bytesWeight (v.toNat.toUInt8 :: s) + 1 + cpsWeight rest <
        cpsWeight (cp '\\' :: input) := by
      rw [bytesWeight_cons, cpsWeight_cons, show cpWeight (cp '\\') = 4 from rfl]
      omega
    exact ⟨v.toNat.toUInt8 :: s, by simp, hlt.le, fun he => absurd he hlt.ne⟩
  | case7 => cases h
  | case8 str ch input hquote hback str' happ ih =>
    obtain ⟨hch, hinput⟩ := List.forall_mem_cons.mp hinput
    obtain ⟨-, rfl⟩ := append_eq_ok.mp happ
    obtain ⟨s, rfl, hle, heq⟩ := ih hinput h
    have hw : cpWeight ch = bytesWeight (utf8 ch) := by rw [cpWeight, if_neg hback]
    refine ⟨utf8 ch ++ s, by rw [List.append_assoc], ?_, fun he => ?_⟩
    · rw [bytesWeight_append, cpsWeight_cons]
      omega
    · rw [bytesWeight_append, cpsWeight_cons] at he
      obtain ⟨cs, rfl, hcs⟩ := heq (by omega)
      exact ⟨ch :: cs, rfl, List.forall_mem_cons.mpr ⟨⟨hquote, hback, hch⟩, hcs⟩⟩

end Escapes

end Mrustc.Parse
