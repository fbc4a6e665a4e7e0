import Mrustc.Depth.Loops

/-! # Searching a graph from a stack

Items are taken from a stack until it is empty, and each may push others. A search that visits each node
of a finite graph once ends with the nodes that are reached.
-/

namespace Mrustc.Depth

open Filter Relation

variable {σ τ : Type} {step : σ → τ → Option (σ × List τ)}

def search (step : σ → τ → Option (σ × List τ)) : ℕ → σ → List τ → Option σ
  | 0, _, _ => none
  | _ + 1, s, [] => some s
  | fuel + 1, s, t :: toVisit => do
    let (s, pushed) ← step s t
    search step fuel s (pushed ++ toVisit)

/-- What each step keeps of the state and of the items holds at the end. -/
theorem search_invariant {I : σ → Prop} {K : τ → Prop}
    (hstep : ∀ s t s' pushed, I s → K t → step s t = some (s', pushed) → I s' ∧ ∀ t' ∈ pushed, K t')
    {fuel : ℕ} {s s' : σ} {toVisit : List τ} (h : search step fuel s toVisit = some s') (hs : I s)
    (ht : ∀ t ∈ toVisit, K t) : I s' := by
  induction fuel generalizing s toVisit with
  | zero => cases h
  | succ fuel ih =>
    cases toVisit with
    | nil => exact Option.some.inj h ▸ hs
    | cons t toVisit =>
      rw [search, Option.bind_eq_bind, Option.bind_eq_some_iff] at h
      obtain ⟨⟨s₁, pushed⟩, hst, h⟩ := h
      have hnew := hstep s t s₁ pushed hs (ht t List.mem_cons_self) hst
      apply ih h hnew.1
      intro t' ht'
      rcases List.mem_append.mp ht' with ht' | ht'
      · exact hnew.2 t' ht'
      · exact ht t' (List.mem_cons_of_mem _ ht')

/-- A step that visits a node for the first time. -/
structure Visits (succs : ℕ → List ℕ) (node : τ → ℕ) (visited : σ → ℕ → Bool) (s s' : σ) (t : τ)
    (pushed : List τ) : Prop where
  visited_iff (b : ℕ) : visited s' b = true ↔ visited s b = true ∨ b = node t
  mem_succs : ∀ t' ∈ pushed, node t' ∈ succs (node t)
  pushes : ∀ e ∈ succs (node t), visited s' e = true ∨ ∃ t' ∈ pushed, node t' = e
  length_le : pushed.length ≤ (succs (node t)).length

/-- A search of the graph on the first `n` numbers. -/
structure Traversal (n : ℕ) (succs : ℕ → List ℕ) (node : τ → ℕ) (visited : σ → ℕ → Bool)
    (step : σ → τ → Option (σ × List τ)) : Prop where
  succs_lt {b : ℕ} (hb : b < n) : ∀ e ∈ succs b, e < n
  skip {s : σ} {t : τ} (h : visited s (node t) = true) : step s t = some (s, [])
  visit {s : σ} {t : τ} (h : visited s (node t) = false) (hlt : node t < n) :
    ∃ s' pushed, step s t = some (s', pushed) ∧ Visits succs node visited s s' t pushed

namespace Traversal

variable {n : ℕ} {succs : ℕ → List ℕ} {node : τ → ℕ} {visited : σ → ℕ → Bool}

/-- What is left of the graph. -/
def unvisited (n : ℕ) (succs : ℕ → List ℕ) (v : ℕ → Bool) : ℕ :=
  ∑ b ∈ Finset.range n, if v b then 0 else (succs b).length

theorem unvisited_add {v v' : ℕ → Bool} {t : ℕ} (ht : t < n) (hv : v t = false)
    (h : ∀ b, v' b = true ↔ v b = true ∨ b = t) :
    unvisited n succs v' + (succs t).length = unvisited n succs v := by
  have hmem := Finset.mem_range.mpr ht
  have htt : v' t = true := (h t).mpr (.inr rfl)
  rw [unvisited, unvisited, ← Finset.add_sum_erase _ _ hmem,
    ← Finset.add_sum_erase _ (fun b => if v b then 0 else (succs b).length) hmem]
  have hrest : ∑ b ∈ (Finset.range n).erase t, (if v' b then 0 else (succs b).length) =
      ∑ b ∈ (Finset.range n).erase t, if v b then 0 else (succs b).length := by
    apply Finset.sum_congr rfl
    intro b hb
    have : v' b = true ↔ v b = true := by simp [h, Finset.ne_of_mem_erase hb]
    simp [this]
  simp [hrest, htt, hv]
  omega

/-- The nodes that lead on from what was visited are visited or on the stack. -/
structure Frontier (succs : ℕ → List ℕ) (node : τ → ℕ) (start : ℕ) (v : ℕ → Bool)
    (toVisit : List τ) : Prop where
  start : v start = true ∨ ∃ t ∈ toVisit, node t = start
  succs {b : ℕ} (hb : v b = true) : ∀ e ∈ succs b, v e = true ∨ ∃ t ∈ toVisit, node t = e

variable {start : ℕ}

theorem Frontier.skip {v : ℕ → Bool} {t : τ} {toVisit : List τ}
    (h : Frontier succs node start v (t :: toVisit)) (hv : v (node t) = true) :
    Frontier succs node start v toVisit := by
  have hkeep {e : ℕ} (he : v e = true ∨ ∃ t' ∈ t :: toVisit, node t' = e) :
      v e = true ∨ ∃ t' ∈ toVisit, node t' = e := by
    rcases he with he | ⟨t', ht', rfl⟩
    · exact .inl he
    · rcases List.mem_cons.mp ht' with rfl | ht'
      · exact .inl hv
      · exact .inr ⟨t', ht', rfl⟩
  exact ⟨hkeep h.start, fun hb e he => hkeep (h.succs hb e he)⟩

theorem Frontier.visit {s s' : σ} {t : τ} {toVisit pushed : List τ}
    (h : Frontier succs node start (visited s) (t :: toVisit))
    (hv : Visits succs node visited s s' t pushed) :
    Frontier succs node start (visited s') (pushed ++ toVisit) := by
  have hkeep {e : ℕ} (he : visited s e = true ∨ ∃ t' ∈ t :: toVisit, node t' = e) :
      visited s' e = true ∨ ∃ t' ∈ pushed ++ toVisit, node t' = e := by
    rcases he with he | ⟨t', ht', rfl⟩
    · exact .inl ((hv.visited_iff e).mpr (.inl he))
    · rcases List.mem_cons.mp ht' with rfl | ht'
      · exact .inl ((hv.visited_iff _).mpr (.inr rfl))
      · exact .inr ⟨t', List.mem_append_right _ ht', rfl⟩
  refine ⟨hkeep h.start, fun {b} hb e he => ?_⟩
  rcases (hv.visited_iff b).mp hb with hb | rfl
  · exact hkeep (h.succs hb e he)
  · rcases hv.pushes e he with he | ⟨t', ht', rfl⟩
    · exact .inl he
    · exact .inr ⟨t', List.mem_append_left _ ht', rfl⟩

/-- Each round takes an item from the stack, and pushes no more than what the node leads to. -/
theorem search_eq (h : Traversal n succs node visited step) {k : ℕ} {s : σ} {toVisit : List τ}
    (hlt : ∀ t ∈ toVisit, node t < n) (hf : Frontier succs node start (visited s) toVisit)
    (hk : toVisit.length + unvisited n succs (visited s) ≤ k) :
    ∃ s', (∀ fuel, k < fuel → search step fuel s toVisit = some s') ∧
      Frontier succs node start (visited s') ([] : List τ) := by
  induction k generalizing s toVisit with
  | zero =>
    obtain rfl : toVisit = [] := List.eq_nil_of_length_eq_zero (by omega)
    refine ⟨s, fun fuel hfuel => ?_, hf⟩
    obtain ⟨fuel, rfl⟩ := Nat.exists_eq_succ_of_ne_zero hfuel.ne'
    rfl
  | succ k ih =>
    cases toVisit with
    | nil =>
      refine ⟨s, fun fuel hfuel => ?_, hf⟩
      obtain ⟨fuel, rfl⟩ := Nat.exists_eq_succ_of_ne_zero (by omega : fuel ≠ 0)
      rfl
    | cons t toVisit =>
      rw [List.length_cons] at hk
      have hrest : ∀ t ∈ toVisit, node t < n := fun t ht => hlt t (List.mem_cons_of_mem _ ht)
      -- the next round, whatever the step is
      have hround {s₁ pushed} (hs : step s t = some (s₁, pushed))
          (hnext : ∃ s', (∀ fuel, k < fuel → search step fuel s₁ (pushed ++ toVisit) = some s') ∧
            Frontier succs node start (visited s') ([] : List τ)) :
          ∃ s', (∀ fuel, k + 1 < fuel → search step fuel s (t :: toVisit) = some s') ∧
            Frontier succs node start (visited s') ([] : List τ) := by
        obtain ⟨s', hs', hf'⟩ := hnext
        refine ⟨s', fun fuel hfuel => ?_, hf'⟩
        obtain ⟨fuel, rfl⟩ := Nat.exists_eq_succ_of_ne_zero (by omega : fuel ≠ 0)
        rw [search, hs]
        exact hs' fuel (by omega)
      by_cases hv : visited s (node t) = true
      · exact hround (h.skip hv) (ih hrest (hf.skip hv) (by rw [List.nil_append]; omega))
      · rw [Bool.not_eq_true] at hv
        have ht := hlt t List.mem_cons_self
        obtain ⟨s₁, pushed, hs, hvis⟩ := h.visit hv ht
        have hsum : unvisited n succs (visited s₁) + (succs (node t)).length = unvisited n succs (visited s) :=
          unvisited_add ht hv hvis.visited_iff
        apply hround hs (ih ?_ (hf.visit hvis) ?_)
        · intro t' ht'
          rcases List.mem_append.mp ht' with ht' | ht'
          · exact h.succs_lt ht _ (hvis.mem_succs t' ht')
          · exact hrest t' ht'
        · have := hvis.length_le
          rw [List.length_append]
          omega

/-- The search ends with the nodes that are reached from where it starts. -/
theorem search_yields (h : Traversal n succs node visited step) {s : σ} {t : τ} (ht : node t < n)
    (hs : ∀ b, visited s b = false) :
    ∃ s', Yields (search step · s [t]) s' ∧
      ∀ b, visited s' b = true ↔ ReflTransGen (fun a b => b ∈ succs a) (node t) b := by
  have hf : Frontier succs node (node t) (visited s) [t] :=
    ⟨.inr ⟨t, List.mem_singleton_self t, rfl⟩, fun hb => absurd hb (by simp [hs])⟩
  obtain ⟨s', hs', hf'⟩ := h.search_eq (fun t' ht' => List.mem_singleton.mp ht' ▸ ht) hf le_rfl
  refine ⟨s', (eventually_gt_atTop _).mono fun fuel hfuel => hs' fuel hfuel, fun b => ⟨?_, ?_⟩⟩
  · have hstep (s₁ : σ) (t₁ : τ) (s₂ : σ) (pushed : List τ)
        (hI : ∀ b, visited s₁ b = true → ReflTransGen (fun a b => b ∈ succs a) (node t) b)
        (hK : node t₁ < n ∧ ReflTransGen (fun a b => b ∈ succs a) (node t) (node t₁))
        (hst : step s₁ t₁ = some (s₂, pushed)) :
        (∀ b, visited s₂ b = true → ReflTransGen (fun a b => b ∈ succs a) (node t) b) ∧
          ∀ t' ∈ pushed, node t' < n ∧ ReflTransGen (fun a b => b ∈ succs a) (node t) (node t') := by
      by_cases hv : visited s₁ (node t₁) = true
      · rw [h.skip hv, Option.some.injEq, Prod.mk.injEq] at hst
        obtain ⟨rfl, rfl⟩ := hst
        exact ⟨hI, fun t' ht' => absurd ht' List.not_mem_nil⟩
      · obtain ⟨s₃, pushed', hst', hvis⟩ := h.visit (Bool.not_eq_true _ ▸ hv) hK.1
        rw [hst', Option.some.injEq, Prod.mk.injEq] at hst
        obtain ⟨rfl, rfl⟩ := hst
        refine ⟨fun b hb => ?_, fun t' ht' => ?_⟩
        · rcases (hvis.visited_iff b).mp hb with hb | rfl
          · exact hI b hb
          · exact hK.2
        · have he := hvis.mem_succs t' ht'
          exact ⟨h.succs_lt hK.1 _ he, hK.2.tail he⟩
    have hfinal := hs' _ (Nat.lt_succ_self _)
    apply search_invariant hstep hfinal
    · intro b hb
      simp [hs] at hb
    · intro t' ht'
      rw [List.mem_singleton.mp ht']
      exact ⟨ht, .refl⟩
  · intro hb
    induction hb with
    | refl => exact hf'.start.resolve_right (by simp)
    | tail _ he ih => exact (hf'.succs ih _ he).resolve_right (by simp)

end Traversal

end Mrustc.Depth
