import Mathlib.Order.Filter.AtTopBot.Basic
import Mathlib.Tactic

/-! # Loops that are computed with fuel

A computation returns a value when it does so with all sufficient fuel. A loop returns if each of its
rounds does, and what the rounds keep holds of what it returns.
-/

namespace Mrustc.Depth
open Filter

variable {α β ι : Type} {f : ℕ → Option α} {g : α → ℕ → Option β} {a : α} {b : β}

/-- With sufficient fuel the computation returns the value. -/
def Yields (f : ℕ → Option α) (a : α) : Prop := ∀ᶠ n in atTop, f n = some a

namespace Yields

theorem of_forall (h : ∀ n, f n = some a) : Yields f a := Eventually.of_forall h

theorem of_succ (h : Yields (fun n => f (n + 1)) a) : Yields f a := by
  unfold Yields
  rw [← map_add_atTop_eq_nat 1, eventually_map]
  exact h

theorem bind (h : Yields f a) (hg : Yields (g a) b) : Yields (fun n => (f n).bind (g · n)) b := by
  filter_upwards [h, hg] with n hn hgn
  rw [hn, Option.bind_some, hgn]

theorem exists_fuel (h : Yields f a) : ∃ n, f n = some a := Eventually.exists h

theorem of_const {x : Option α} (h : Yields (fun _ => x) a) : x = some a := h.exists_fuel.choose_spec

end Yields

/-- What each round keeps holds after the loop. -/
theorem foldlM_yields {I : α → Prop} {step : ℕ → α → ι → Option α} {l : List ι}
    (hstep : ∀ a, I a → ∀ i ∈ l, ∃ a', Yields (step · a i) a' ∧ I a') (h : I a) :
    ∃ a', Yields (fun n => l.foldlM (step n) a) a' ∧ I a' := by
  induction l generalizing a with
  | nil => exact ⟨a, .of_forall fun _ => rfl, h⟩
  | cons i l ih =>
    obtain ⟨a₁, h₁, hI⟩ := hstep a h i List.mem_cons_self
    obtain ⟨a₂, h₂, hI⟩ := ih (fun a h j hj => hstep a h j (List.mem_cons_of_mem _ hj)) hI
    refine ⟨a₂, ?_, hI⟩
    filter_upwards [h₁, h₂] with n hn₁ hn₂
    rw [List.foldlM_cons, hn₁]
    exact hn₂

end Mrustc.Depth
