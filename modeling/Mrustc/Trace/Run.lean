import Mathlib.Data.List.Basic
import Mathlib.Tactic

/-! # Runs of a system that emits events

The steps of a system relate a state, the events of the step and the next state. An invariant may
speak of all the events so far, and a measure that some step decreases leads to a final state.
-/

namespace Mrustc.Trace

inductive Run {σ ε : Type} (step : σ → List ε → σ → Prop) (s : σ) : List ε → σ → Prop
  | nil : Run step s [] s
  | step {es es' s' s''} (h : Run step s es s') (hs : step s' es' s'') : Run step s (es ++ es') s''

variable {σ ε : Type} {step : σ → List ε → σ → Prop} {s s' s'' : σ} {es es' : List ε}

/-- What holds at the start and is kept by every step holds at the end of every run. -/
theorem Run.invariant {I : List ε → σ → Prop} (h : Run step s es s') (h₀ : I [] s)
    (hstep : ∀ es s' es' s'', I es s' → step s' es' s'' → I (es ++ es') s'') : I es s' := by
  induction h with
  | nil => exact h₀
  | step _ hs ih => exact hstep _ _ _ _ ih hs

theorem Run.trans (h : Run step s es s') (h' : Run step s' es' s'') : Run step s (es ++ es') s'' := by
  induction h' with
  | nil => rwa [List.append_nil]
  | step _ hs ih =>
    rw [← List.append_assoc]
    exact ih.step hs

/-- Where some step keeps a property and decreases a measure, a run leads to the end. -/
theorem exists_run {I : σ → Prop} {F : σ → Prop} (μ : σ → ℕ)
    (hstep : ∀ s, I s → ¬ F s → ∃ es s', step s es s' ∧ I s' ∧ μ s' < μ s) (s : σ) (h : I s) :
    ∃ es s', Run step s es s' ∧ I s' ∧ F s' := by
  induction hm : μ s using Nat.strong_induction_on generalizing s with
  | _ m ih =>
    by_cases hf : F s
    · exact ⟨[], s, .nil, h, hf⟩
    · obtain ⟨es, s', hs, h', hlt⟩ := hstep s h hf
      obtain ⟨es', s'', hrun, hI, hfinal⟩ := ih (μ s') (hm ▸ hlt) s' h' rfl
      exact ⟨_, s'', (Run.nil.step hs).trans hrun, hI, hfinal⟩

end Mrustc.Trace
