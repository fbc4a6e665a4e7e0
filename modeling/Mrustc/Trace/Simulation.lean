import Mathlib.Data.List.Basic
import Mathlib.Tactic

/-! # Machines with silent steps

A machine halts with an outcome, or takes a step that emits an event or nothing. Two machines behave
alike when they emit the same events as far as they run and end with the same outcomes. A simulation
may leave the second machine where it is, as long as a measure decreases.
-/

namespace Mrustc.Trace

inductive Next (σ ε ο : Type)
  | halt (o : ο)
  | step (e : Option ε) (s : σ)

variable {σ τ υ ε ο : Type}

section Runs

variable (next : σ → Next σ ε ο)

/-- The events of so many steps and the state after them. -/
def run : ℕ → σ → Option (List ε × σ)
  | 0, s => some ([], s)
  | n + 1, s =>
    match next s with
    | .halt _ => none
    | .step e s' => (run n s').map fun r => (e.toList ++ r.1, r.2)

def Ends (s : σ) (es : List ε) (o : ο) : Prop :=
  ∃ n s', run next n s = some (es, s') ∧ next s' = .halt o

def Emits (s : σ) (es : List ε) : Prop := ∃ n s', run next n s = some (es, s')

/-- At least one step that together emit the events. -/
def Steps (s : σ) (es : List ε) (s' : σ) : Prop := ∃ n, run next (n + 1) s = some (es, s')

variable {next} {n k : ℕ} {s s' s'' : σ} {e : Option ε} {es es' : List ε} {o o' : ο}

theorem run_succ (h : next s = .step e s') :
    run next (n + 1) s = (run next n s').map fun r => (e.toList ++ r.1, r.2) := by
  simp only [run, h]

theorem run_halted (h : next s = .halt o) : run next (n + 1) s = none := by
  simp only [run, h]

theorem run_add : run next (n + k) s = some (es, s'') ↔
    ∃ es₁ s' es₂, run next n s = some (es₁, s') ∧ run next k s' = some (es₂, s'') ∧
      es = es₁ ++ es₂ := by
  induction n generalizing s es s'' with
  | zero => simp [run]
  | succ n ih =>
    rw [Nat.succ_add]
    cases h : next s with
    | halt o => simp [run_halted h]
    | step e s₁ =>
      simp only [run_succ h, Option.map_eq_some_iff, Prod.exists, Prod.mk.injEq, ih]
      constructor
      · rintro ⟨_, _, ⟨es₁, s', es₂, h₁, h₂, rfl⟩, rfl, rfl⟩
        exact ⟨_, s', es₂, ⟨es₁, s', h₁, rfl, rfl⟩, h₂, (List.append_assoc _ _ _).symm⟩
      · rintro ⟨_, s', es₂, ⟨es₁, _, h₁, rfl, rfl⟩, h₂, rfl⟩
        exact ⟨es₁ ++ es₂, s'', ⟨es₁, _, es₂, h₁, h₂, rfl⟩, (List.append_assoc _ _ _).symm, rfl⟩

/-- Of two runs from one state the longer one goes on from the end of the shorter one. -/
theorem run_split (hn : run next n s = some (es, s')) (hk : run next k s = some (es', s''))
    (hle : n ≤ k) : ∃ es₂, run next (k - n) s' = some (es₂, s'') ∧ es' = es ++ es₂ := by
  rw [← Nat.add_sub_cancel' hle, run_add] at hk
  obtain ⟨es₁, s₁, es₂, h₁, h₂, rfl⟩ := hk
  rw [hn, Option.some.injEq, Prod.mk.injEq] at h₁
  obtain ⟨rfl, rfl⟩ := h₁
  exact ⟨es₂, h₂, rfl⟩

theorem run_le_of_halted (hn : run next n s = some (es, s')) (hh : next s' = .halt o)
    (hk : run next k s = some (es', s'')) : k ≤ n := by
  by_contra hlt
  obtain ⟨es₂, h₂, -⟩ := run_split hn hk (by omega)
  rw [show k - n = (k - n - 1) + 1 by omega, run_halted hh] at h₂
  cases h₂

theorem Ends.unique (h : Ends next s es o) (h' : Ends next s es' o') : es = es' ∧ o = o' := by
  obtain ⟨n, s', hn, hh⟩ := h
  obtain ⟨k, s'', hk, hh'⟩ := h'
  obtain rfl := Nat.le_antisymm (run_le_of_halted hk hh' hn) (run_le_of_halted hn hh hk)
  rw [hn, Option.some.injEq, Prod.mk.injEq] at hk
  obtain ⟨rfl, rfl⟩ := hk
  rw [hh, Next.halt.injEq] at hh'
  exact ⟨rfl, hh'⟩

theorem Ends.halt (h : next s = .halt o) : Ends next s [] o := ⟨0, s, rfl, h⟩

theorem Emits.nil : Emits next s [] := ⟨0, s, rfl⟩

theorem Ends.step (h : next s = .step e s') (hs : Ends next s' es o) :
    Ends next s (e.toList ++ es) o := by
  obtain ⟨n, s'', hn, hh⟩ := hs
  exact ⟨n + 1, s'', by rw [run_succ h, hn]; rfl, hh⟩

theorem Emits.step (h : next s = .step e s') (hs : Emits next s' es) :
    Emits next s (e.toList ++ es) := by
  obtain ⟨n, s'', hn⟩ := hs
  exact ⟨n + 1, s'', by rw [run_succ h, hn]; rfl⟩

theorem Steps.one (h : next s = .step e s') : Steps next s e.toList s' :=
  ⟨0, by rw [run_succ h]; simp [run]⟩

theorem Steps.cons (h : next s = .step e s') (hs : Steps next s' es s'') :
    Steps next s (e.toList ++ es) s'' := by
  obtain ⟨n, hn⟩ := hs
  exact ⟨n + 1, by rw [run_succ h, hn]; rfl⟩

theorem Steps.ends (h : Steps next s es s') (hs : Ends next s' es' o) :
    Ends next s (es ++ es') o := by
  obtain ⟨n, hn⟩ := h
  obtain ⟨k, s'', hk, hh⟩ := hs
  exact ⟨_, s'', run_add.mpr ⟨_, _, _, hn, hk, rfl⟩, hh⟩

theorem Steps.emits (h : Steps next s es s') (hs : Emits next s' es') :
    Emits next s (es ++ es') := by
  obtain ⟨n, hn⟩ := h
  obtain ⟨k, s'', hk⟩ := hs
  exact ⟨_, s'', run_add.mpr ⟨_, _, _, hn, hk, rfl⟩⟩

end Runs

/-- The machines emit the same events and end with the same outcomes. -/
structure SameBehaviour (f : σ → Next σ ε ο) (g : τ → Next τ ε ο) (s : σ) (t : τ) : Prop where
  ends (es : List ε) (o : ο) : Ends f s es o ↔ Ends g t es o
  emits (es : List ε) : Emits f s es ↔ Emits g t es

namespace SameBehaviour

variable {f : σ → Next σ ε ο} {g : τ → Next τ ε ο} {h : υ → Next υ ε ο} {s : σ} {t : τ} {u : υ}

theorem refl (f : σ → Next σ ε ο) (s : σ) : SameBehaviour f f s s :=
  ⟨fun _ _ => .rfl, fun _ => .rfl⟩

theorem symm (hfg : SameBehaviour f g s t) : SameBehaviour g f t s :=
  ⟨fun es o => (hfg.ends es o).symm, fun es => (hfg.emits es).symm⟩

theorem trans (hfg : SameBehaviour f g s t) (hgh : SameBehaviour g h t u) :
    SameBehaviour f h s u :=
  ⟨fun es o => (hfg.ends es o).trans (hgh.ends es o),
    fun es => (hfg.emits es).trans (hgh.emits es)⟩

end SameBehaviour

/-- What the first machine does the second one does. It may stay where it is while the index
decreases. -/
structure Simulation (f : σ → Next σ ε ο) (g : τ → Next τ ε ο) (R : ℕ → σ → τ → Prop) : Prop where
  halt {n s t o} (h : R n s t) (hs : f s = .halt o) : Ends g t [] o
  step {n s t e s'} (h : R n s t) (hs : f s = .step e s') :
    (e = none ∧ ∃ m < n, R m s' t) ∨ ∃ m t', Steps g t e.toList t' ∧ R m s' t'

namespace Simulation

variable {f : σ → Next σ ε ο} {g : τ → Next τ ε ο} {R : ℕ → σ → τ → Prop} {n k : ℕ} {s s' : σ}
  {t t' : τ} {es : List ε} {o : ο}

theorem ends_of_run (hR : Simulation f g R) (hk : run f k s = some (es, s')) (hh : f s' = .halt o)
    (h : R n s t) : Ends g t es o := by
  induction k generalizing n s t es with
  | zero =>
    simp only [run, Option.some.injEq, Prod.mk.injEq] at hk
    obtain ⟨rfl, rfl⟩ := hk
    exact hR.halt h hh
  | succ k ih =>
    cases hs : f s with
    | halt o => simp [run_halted hs] at hk
    | step e s₁ =>
      simp only [run_succ hs, Option.map_eq_some_iff, Prod.exists, Prod.mk.injEq] at hk
      obtain ⟨es₁, _, hk, rfl, rfl⟩ := hk
      rcases hR.step h hs with ⟨rfl, m, -, h⟩ | ⟨m, t₁, ht, h⟩
      · exact ih hk h
      · exact ht.ends (ih hk h)

theorem emits_of_run (hR : Simulation f g R) (hk : run f k s = some (es, s')) (h : R n s t) :
    Emits g t es := by
  induction k generalizing n s t es with
  | zero =>
    simp only [run, Option.some.injEq, Prod.mk.injEq] at hk
    obtain ⟨rfl, rfl⟩ := hk
    exact .nil
  | succ k ih =>
    cases hs : f s with
    | halt o => simp [run_halted hs] at hk
    | step e s₁ =>
      simp only [run_succ hs, Option.map_eq_some_iff, Prod.exists, Prod.mk.injEq] at hk
      obtain ⟨es₁, _, hk, rfl, rfl⟩ := hk
      rcases hR.step h hs with ⟨rfl, m, -, h⟩ | ⟨m, t₁, ht, h⟩
      · exact ih hk h
      · exact ht.emits (ih hk h)

/-- The converse by determinism. The induction is on the steps of the second machine, and within them
on the index. -/
theorem ends_of_run_right (hR : Simulation f g R) (hk : run g k t = some (es, t'))
    (hh : g t' = .halt o) (h : R n s t) : Ends f s es o := by
  induction k using Nat.strong_induction_on generalizing n s t es with
  | _ k ihk =>
    induction n using Nat.strong_induction_on generalizing s with
    | _ n ihn =>
      cases hs : f s with
      | halt o' =>
        obtain ⟨rfl, rfl⟩ := (hR.halt h hs).unique ⟨k, t', hk, hh⟩
        exact .halt hs
      | step e s₁ =>
        rcases hR.step h hs with ⟨rfl, m, hm, h₁⟩ | ⟨m, t₁, ⟨j, hj⟩, h₁⟩
        · exact .step hs (ihn m hm h₁)
        · have hle : j + 1 ≤ k := run_le_of_halted hk hh hj
          obtain ⟨es₂, h₂, rfl⟩ := run_split hj hk hle
          exact .step hs (ihk _ (by omega) h₂ h₁)

theorem emits_of_run_right (hR : Simulation f g R) (hk : run g k t = some (es, t')) (h : R n s t) :
    Emits f s es := by
  induction k using Nat.strong_induction_on generalizing n s t es with
  | _ k ihk =>
    induction n using Nat.strong_induction_on generalizing s with
    | _ n ihn =>
      cases hs : f s with
      | halt o' =>
        obtain ⟨j, t₁, hj, hh⟩ := hR.halt h hs
        obtain ⟨es₂, -, he⟩ := run_split hk hj (run_le_of_halted hj hh hk)
        obtain ⟨rfl, -⟩ := List.append_eq_nil_iff.mp he.symm
        exact .nil
      | step e s₁ =>
        rcases hR.step h hs with ⟨rfl, m, hm, h₁⟩ | ⟨m, t₁, ⟨j, hj⟩, h₁⟩
        · exact .step hs (ihn m hm h₁)
        · by_cases hle : j + 1 ≤ k
          · obtain ⟨es₂, h₂, rfl⟩ := run_split hj hk hle
            exact .step hs (ihk _ (by omega) h₂ h₁)
          · -- the run ends within the steps that match one step of the first machine
            obtain ⟨es₂, -, he⟩ := run_split hk hj (by omega)
            cases es with
            | nil => exact .nil
            | cons x es =>
              cases e with
              | none => cases he
              | some y =>
                simp only [Option.toList_some, List.cons_append, List.cons.injEq,
                  List.nil_eq_append_iff] at he
                obtain ⟨rfl, rfl, -⟩ := he
                exact .step hs .nil

/-- Simulated machines behave the same. -/
theorem sameBehaviour (hR : Simulation f g R) (h : R n s t) : SameBehaviour f g s t where
  ends _ _ := ⟨fun ⟨_, _, hk, hh⟩ => hR.ends_of_run hk hh h,
    fun ⟨_, _, hk, hh⟩ => hR.ends_of_run_right hk hh h⟩
  emits _ := ⟨fun ⟨_, _, hk⟩ => hR.emits_of_run hk h, fun ⟨_, _, hk⟩ => hR.emits_of_run_right hk h⟩

end Simulation

/-- What the first machine does the second one does too, other than end with a bad outcome. -/
structure Extends (bad : ο → Prop) (f : σ → Next σ ε ο) (g : τ → Next τ ε ο) (s : σ) (t : τ) : Prop where
  ends (es : List ε) (o : ο) (ho : ¬ bad o) (h : Ends f s es o) : Ends g t es o
  emits (es : List ε) (h : Emits f s es) : Emits g t es

section Agreement

open Relation

variable {f g : σ → Next σ ε ο} {s s' : σ} {n : ℕ} {es : List ε} {bad : ο → Prop}

def Moves (f : σ → Next σ ε ο) (s s' : σ) : Prop := ∃ e, f s = .step e s'

theorem run_reaches (h : run f n s = some (es, s')) : ReflTransGen (Moves f) s s' := by
  induction n generalizing s es with
  | zero =>
    cases h
    exact .refl
  | succ n ih =>
    cases hs : f s with
    | halt o => simp [run_halted hs] at h
    | step e s₁ =>
      rw [run_succ hs, Option.map_eq_some_iff] at h
      obtain ⟨⟨es₁, s₂⟩, h₁, h₂⟩ := h
      cases h₂
      exact .head ⟨e, hs⟩ (ih h₁)

theorem run_of_agreement
    (hstep : ∀ s', ReflTransGen (Moves f) s s' → ∀ e s'', f s' = .step e s'' → g s' = .step e s'')
    (h : run f n s = some (es, s')) : run g n s = some (es, s') := by
  induction n generalizing s es with
  | zero => exact h
  | succ n ih =>
    cases hs : f s with
    | halt o => simp [run_halted hs] at h
    | step e s₁ =>
      rw [run_succ hs, Option.map_eq_some_iff] at h
      obtain ⟨⟨es₁, s₂⟩, h₁, h₂⟩ := h
      cases h₂
      rw [run_succ (hstep s .refl e s₁ hs), ih (fun s' hs' => hstep s' (.head ⟨e, hs⟩ hs')) h₁]
      rfl

/-- Machines that take the same steps from the states of a run. -/
theorem Extends.of_agreement
    (hstep : ∀ s', ReflTransGen (Moves f) s s' → ∀ e s'', f s' = .step e s'' → g s' = .step e s'')
    (hhalt : ∀ s', ReflTransGen (Moves f) s s' → ∀ o, ¬ bad o → f s' = .halt o → g s' = .halt o) :
    Extends bad f g s s where
  ends es o ho h := by
    obtain ⟨n, s', hrun, hs'⟩ := h
    exact ⟨n, s', run_of_agreement hstep hrun, hhalt s' (run_reaches hrun) o ho hs'⟩
  emits es h := by
    obtain ⟨n, s', hrun⟩ := h
    exact ⟨n, s', run_of_agreement hstep hrun⟩

end Agreement

end Mrustc.Trace
