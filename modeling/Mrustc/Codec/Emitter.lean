import Mathlib.Tactic
import Mathlib.Data.List.Basic

/-! # Stateful emitters and unique decodability

An emitter writes a list of symbols and updates a state, or aborts. Two emitters
agree on `P` when equal texts, each followed by anything, force `P`, equal states
and equal remainders: the emitted text is then a prefix code, relative to the
state from which both started.
-/

namespace Mrustc.Codec

/-- A partial writer: from a state, the written symbols and the next state. -/
abbrev Emitter (σ β : Type*) := σ → Option (List β × σ)

namespace Emitter

variable {σ β : Type*}

def write (s : List β) : Emitter σ β := fun c => some (s, c)

def abort : Emitter σ β := fun _ => none

def seq (a b : Emitter σ β) : Emitter σ β := fun c =>
  match a c with
  | none => none
  | some (s, c') =>
    match b c' with
    | none => none
    | some (t, c'') => some (s ++ t, c'')

/-- Equal texts, each followed by anything, force `P` and leave nothing to choose. -/
def Agree (a b : Emitter σ β) (P : Prop) : Prop :=
  ∀ ⦃c o₁ c₁ o₂ c₂ r₁ r₂⦄, a c = some (o₁, c₁) → b c = some (o₂, c₂) →
    o₁ ++ r₁ = o₂ ++ r₂ → P ∧ c₁ = c₂ ∧ r₁ = r₂

/-- Every text the emitter writes starts with a symbol satisfying `p`. -/
def Leads (a : Emitter σ β) (p : β → Prop) : Prop :=
  ∀ ⦃c o c'⦄, a c = some (o, c') → ∃ x xs, o = x :: xs ∧ p x

theorem seq_eq_some {a b : Emitter σ β} {c c'' : σ} {o : List β} :
    a.seq b c = some (o, c'') ↔
      ∃ s c' t, a c = some (s, c') ∧ b c' = some (t, c'') ∧ o = s ++ t := by
  unfold seq
  constructor
  · intro h
    split at h
    · simp at h
    · rename_i s c' ha
      split at h
      · simp at h
      · rename_i t d hb
        simp only [Option.some.injEq, Prod.mk.injEq] at h
        exact ⟨s, c', t, ha, h.2 ▸ hb, h.1.symm⟩
  · rintro ⟨s, c', t, ha, hb, rfl⟩
    simp [ha, hb]

theorem seq_assoc (a b d : Emitter σ β) : (a.seq b).seq d = a.seq (b.seq d) := by
  funext c
  simp only [seq]
  cases a c with
  | none => rfl
  | some out =>
    obtain ⟨s, c'⟩ := out
    dsimp only
    cases b c' with
    | none => rfl
    | some out =>
      obtain ⟨t, c''⟩ := out
      dsimp only
      cases d c'' with
      | none => rfl
      | some out => simp

theorem write_nil_seq (a : Emitter σ β) : (write []).seq a = a := by
  funext c
  simp only [seq, write]
  cases a c with
  | none => rfl
  | some out => rfl

theorem Agree.imp {a b : Emitter σ β} {P Q : Prop} (h : Agree a b P) (hPQ : P → Q) :
    Agree a b Q := by
  intro c o₁ c₁ o₂ c₂ r₁ r₂ h₁ h₂ he
  obtain ⟨hP, hs⟩ := h h₁ h₂ he
  exact ⟨hPQ hP, hs⟩

theorem Agree.seq {a a' b b' : Emitter σ β} {P Q : Prop} (h : Agree a b P)
    (h' : P → Agree a' b' Q) : Agree (a.seq a') (b.seq b') (P ∧ Q) := by
  intro c o₁ c₁ o₂ c₂ r₁ r₂ h₁ h₂ he
  obtain ⟨s, d, t, ha, ha', rfl⟩ := seq_eq_some.mp h₁
  obtain ⟨s', d', t', hb, hb', rfl⟩ := seq_eq_some.mp h₂
  rw [List.append_assoc, List.append_assoc] at he
  obtain ⟨hP, rfl, he'⟩ := h ha hb he
  obtain ⟨hQ, hc, hr⟩ := h' hP ha' hb' he'
  exact ⟨⟨hP, hQ⟩, hc, hr⟩

theorem agree_write (s : List β) : Agree (σ := σ) (write s) (write s) True := by
  rintro c o₁ c₁ o₂ c₂ r₁ r₂ ⟨⟩ ⟨⟩ he
  exact ⟨trivial, rfl, List.append_cancel_left he⟩

/-- Two texts of one length are told apart wherever they stand. -/
theorem agree_write_of_length {s t : List β} (h : s.length = t.length) :
    Agree (σ := σ) (write s) (write t) (s = t) := by
  rintro c o₁ c₁ o₂ c₂ r₁ r₂ ⟨⟩ ⟨⟩ he
  obtain ⟨hst, hr⟩ := List.append_inj he h
  exact ⟨hst, rfl, hr⟩

/-- A common fixed text in front changes nothing. -/
theorem Agree.write_seq {a b : Emitter σ β} {P : Prop} (s : List β) (h : Agree a b P) :
    Agree ((write s).seq a) ((write s).seq b) P :=
  ((agree_write s).seq fun _ => h).imp And.right

theorem agree_abort_left {b : Emitter σ β} {P : Prop} : Agree abort b P := by
  intro c o₁ c₁ o₂ c₂ r₁ r₂ h₁
  cases h₁

theorem agree_abort_right {a : Emitter σ β} {P : Prop} : Agree a abort P := by
  intro c o₁ c₁ o₂ c₂ r₁ r₂ _ h₂
  cases h₂

theorem Leads.mono {a : Emitter σ β} {p q : β → Prop} (h : Leads a p) (hpq : ∀ x, p x → q x) :
    Leads a q := by
  intro c o c' ha
  obtain ⟨x, xs, rfl, hx⟩ := h ha
  exact ⟨x, xs, rfl, hpq x hx⟩

theorem leads_write {p : β → Prop} {x : β} (xs : List β) (hx : p x) :
    Leads (σ := σ) (write (x :: xs)) p := by
  rintro c o c' ⟨⟩
  exact ⟨x, xs, rfl, hx⟩

theorem Leads.seq {a : Emitter σ β} {p : β → Prop} (h : Leads a p) (b : Emitter σ β) :
    Leads (a.seq b) p := by
  intro c o c' hab
  obtain ⟨s, d, t, ha, -, rfl⟩ := seq_eq_some.mp hab
  obtain ⟨x, xs, rfl, hx⟩ := h ha
  exact ⟨x, xs ++ t, rfl, hx⟩

theorem leads_write_seq {p : β → Prop} {x : β} (hx : p x) (a : Emitter σ β) :
    Leads ((write [x]).seq a) p :=
  (leads_write [] hx).seq a

/-- Texts that start with different symbols cannot be confused. -/
theorem Agree.of_leads {a b : Emitter σ β} {p q : β → Prop} {P : Prop} (ha : Leads a p)
    (hb : Leads b q) (hpq : ∀ x, p x → ¬ q x) : Agree a b P := by
  intro c o₁ c₁ o₂ c₂ r₁ r₂ h₁ h₂ he
  obtain ⟨x, xs, rfl, hx⟩ := ha h₁
  obtain ⟨y, ys, rfl, hy⟩ := hb h₂
  simp only [List.cons_append, List.cons.injEq] at he
  exact absurd (he.1 ▸ hy) (hpq x hx)

theorem agree_write_seq_of_ne {x y : β} {a b : Emitter σ β} {P : Prop} (h : x ≠ y) :
    Agree ((write [x]).seq a) ((write [y]).seq b) P :=
  Agree.of_leads (leads_write_seq (p := (· = x)) rfl a) (leads_write_seq (p := (· = y)) rfl b)
    fun _ hx hy => h (hx ▸ hy)

/-- An optional symbol in front of something that never starts with it. -/
theorem agree_flag_seq {x : β} {u u' : Bool} {a b : Emitter σ β} {P : Prop}
    (ha : Leads a (· ≠ x)) (hb : Leads b (· ≠ x)) (h : u = u' → Agree a b P) :
    Agree ((write (if u then [x] else [])).seq a) ((write (if u' then [x] else [])).seq b)
      (u = u' ∧ P) := by
  cases u <;> cases u' <;> simp only [Bool.false_eq_true, if_false, if_true, write_nil_seq]
  · exact (h rfl).imp fun hP => ⟨trivial, hP⟩
  · exact Agree.of_leads ha (leads_write_seq (p := (· = x)) rfl b) (by simp)
  · exact Agree.of_leads (leads_write_seq (p := (· = x)) rfl a) hb (by simp)
  · exact (Agree.write_seq [x] (h rfl)).imp fun hP => ⟨trivial, hP⟩

/-- Whole texts of agreeing emitters, from one state, decode to the same thing. -/
theorem Agree.of_eq {a b : Emitter σ β} {P : Prop} (h : Agree a b P) {c : σ} {o : List β}
    {c₁ c₂ : σ} (h₁ : a c = some (o, c₁)) (h₂ : b c = some (o, c₂)) : P :=
  (h h₁ h₂ (rfl : o ++ [] = o ++ [])).1

end Emitter

end Mrustc.Codec
