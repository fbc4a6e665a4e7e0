import Mathlib.Order.Filter.AtTopBot.Basic
import Mathlib.Tactic

/-! # Computations of a bounded depth

A fallible computation that is cut off at some depth settles when all deeper ones agree: they
return one value, or else never return anything but values that are known to be bad.
-/

namespace Mrustc.Depth
open Filter

variable {ε α β : Type} {bad bad₁ : α → Prop} {bad' : β → Prop} {ok ok' : Bool}
variable {f g : ℕ → Except ε α} {k : ℕ → α → Except ε β} {a : α} {b : β}

/-- From some depth on the computation returns the value if `ok` holds, and nothing but bad values
otherwise. -/
def Settles (bad : α → Prop) (ok : Bool) (f : ℕ → Except ε α) (a : α) : Prop :=
  if ok then ∀ᶠ n in atTop, f n = .ok a else ∀ᶠ n in atTop, ∀ v, f n = .ok v → bad v

/-- The computation returns the value if `ok` holds, and nothing otherwise. -/
abbrev Returns (ok : Bool) (f : ℕ → Except ε α) (a : α) : Prop := Settles (fun _ => False) ok f a

theorem settles_true : Settles bad true f a ↔ ∀ᶠ n in atTop, f n = .ok a := by
  simp [Settles]

theorem settles_false :
    Settles bad false f a ↔ ∀ᶠ n in atTop, ∀ v, f n = .ok v → bad v := by
  simp [Settles]

theorem settles_ok (h : ∀ n, f n = .ok a) : Settles bad true f a := by
  rw [settles_true]
  exact Eventually.of_forall h

theorem settles_bad (h : ∀ n v, f n = .ok v → bad v) : Settles bad false f a := by
  rw [settles_false]
  exact Eventually.of_forall h

theorem Settles.congr (h : Settles bad ok f a) (hfg : ∀ n, f n = g n) : Settles bad ok g a := by
  rwa [← funext hfg]

/-- What settles one level deeper settles. -/
theorem Settles.succ (h : Settles bad ok f a) (hfg : ∀ n, g (n + 1) = f n) :
    Settles bad ok g a := by
  cases ok with
  | true =>
    rw [settles_true] at h ⊢
    rw [← map_add_atTop_eq_nat 1, eventually_map]
    filter_upwards [h] with n hn
    rw [hfg, hn]
  | false =>
    rw [settles_false] at h ⊢
    rw [← map_add_atTop_eq_nat 1, eventually_map]
    filter_upwards [h] with n hn
    rw [hfg]
    exact hn

theorem Settles.bind (h : Settles bad ok f a)
    (hbad : ∀ n v, bad v → ∀ w, k n v = .ok w → bad' w)
    (hk : ok = true → Settles bad' ok' (fun n => k n a) b) :
    Settles bad' (ok && ok') (fun n => f n >>= k n) b := by
  cases ok with
  | true =>
    have hk := hk rfl
    rw [settles_true] at h
    cases ok' with
    | true =>
      rw [settles_true] at hk
      rw [Bool.and_true, settles_true]
      filter_upwards [h, hk] with n hn hkn
      rw [hn]
      exact hkn
    | false =>
      rw [settles_false] at hk
      rw [Bool.and_false, settles_false]
      filter_upwards [h, hk] with n hn hkn
      rw [hn]
      exact hkn
  | false =>
    rw [settles_false] at h
    rw [Bool.false_and, settles_false]
    filter_upwards [h] with n hn w hw
    cases hf : f n with
    | error e =>
      rw [hf] at hw
      cases hw
    | ok v =>
      rw [hf] at hw
      exact hbad n v (hn v hf) w hw

theorem Returns.bind (h : Returns ok f a)
    (hk : ok = true → Settles bad' ok' (fun n => k n a) b) :
    Settles bad' (ok && ok') (fun n => f n >>= k n) b :=
  Settles.bind h (fun _ _ h => h.elim) hk

theorem Settles.map (h : Settles bad ok f a)
    (hbad : ∀ n v, bad v → ∀ w, k n v = .ok w → bad' w) (hk : ∀ n, k n a = .ok b) :
    Settles bad' ok (fun n => f n >>= k n) b := by
  have := h.bind hbad fun _ => settles_ok hk
  rwa [Bool.and_true] at this

/-- A computation and what is made of its value. -/
theorem Returns.map (h : Returns ok f a) (hk : ∀ n, k n a = .ok b) :
    Settles bad' ok (fun n => f n >>= k n) b :=
  Settles.map h (fun _ _ h => h.elim) hk

/-- A computation that always returns, and what follows it. -/
theorem Returns.then (h : Returns true f a) (hk : Settles bad' ok' (fun n => k n a) b) :
    Settles bad' ok' (fun n => f n >>= k n) b := by
  have := h.bind fun _ => hk
  rwa [Bool.true_and] at this

theorem Settles.weaken (h : Settles bad ok f a) (hbad : ∀ v, bad v → bad₁ v) :
    Settles bad₁ ok f a := by
  cases ok with
  | true =>
    rw [settles_true] at h ⊢
    exact h
  | false =>
    rw [settles_false] at h ⊢
    filter_upwards [h] with n hn v hv
    exact hbad v (hn v hv)

theorem Returns.settles (h : Returns ok f a) : Settles bad ok f a :=
  Settles.weaken h fun _ => False.elim

/-- A value that is not bad is returned from some depth on exactly if `ok` holds. -/
theorem Settles.eventually_iff (h : Settles bad ok f a) (ha : ¬ bad a) :
    (∀ᶠ n in atTop, f n = .ok a) ↔ ok = true := by
  cases ok with
  | true =>
    rw [settles_true] at h
    exact iff_of_true h rfl
  | false =>
    rw [settles_false] at h
    refine iff_of_false (fun hf => ?_) Bool.false_ne_true
    obtain ⟨n, hn, hf⟩ := (h.and hf).exists
    exact ha (hn a hf)

end Mrustc.Depth
