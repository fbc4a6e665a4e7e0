import Mrustc.AdjacentSwaps.Swaps
import Mrustc.MatchRules.Orders

/-! # The steps of a sort

A run ends with a result when every step of it goes through, and its result is the input after the swaps that its
steps made. Each step of a sort is one on its own rows, or one of a sort within them.
-/

namespace Mrustc.MatchRules
open AdjacentSwaps

namespace Run

variable {σ β γ : Type} {r : Run σ β} {f : β → Run σ γ}

theorem bind_of_ok {b : β} (h : r.result = .ok b) : r >>= f = ⟨r.steps ++ (f b).steps, (f b).result⟩ := by
  simp [Bind.bind, Run.bind, h]

theorem bind_of_error {stop : Stop} (h : r.result = .error stop) : r >>= f = ⟨r.steps, .error stop⟩ := by
  simp [Bind.bind, Run.bind, h]

theorem result_bind_eq_ok {c : γ} : (r >>= f).result = .ok c ↔ ∃ b, r.result = .ok b ∧ (f b).result = .ok c := by
  cases h : r.result with
  | error stop => simp [bind_of_error h]
  | ok b => simp [bind_of_ok h]

@[simp] theorem steps_pure (b : β) : (pure b : Run σ β).steps = [] := rfl

@[simp] theorem result_pure (b : β) : (pure b : Run σ β).result = .ok b := rfl

@[simp] theorem steps_step (s : σ) (e : Except Fault β) : (step s e).steps = [s] := rfl

@[simp] theorem result_step (s : σ) (e : Except Fault β) : (step s e).result = e.mapError .fault := rfl

theorem step_eq_ok {s : σ} {e : Except Fault β} {b : β} : (step s e).result = .ok b ↔ e = .ok b := by
  cases e <;> simp [Except.mapError]

/-- A run over rows: its steps are as said, it does not want fuel, it has a result exactly when every step goes
through, and the result holds the rows after the swaps of the steps. -/
structure Sound {α : Type} (goes p : σ → Prop) (moved : σ → Option (α × α)) (rows : List α) (get : β → List α)
    (r : Run σ β) : Prop where
  all : ∀ s ∈ r.steps, p s
  fuelled : r.result ≠ .error .outOfFuel
  goes_iff : (∀ s ∈ r.steps, goes s) ↔ ∃ b, r.result = .ok b
  swaps : ∀ b, r.result = .ok b → Swaps (r.steps.filterMap moved) rows (get b)

namespace Sound

variable {α : Type} {goes p : σ → Prop} {moved : σ → Option (α × α)} {rows : List α} {get : β → List α}
  {get' : γ → List α}

theorem pure {b : β} (h : get b = rows) : Sound goes p moved rows get (pure b : Run σ β) where
  all := by simp
  fuelled := by simp
  goes_iff := by simp
  swaps b' hb := by
    rw [result_pure, Except.ok.injEq] at hb
    rw [← hb, h]
    exact .refl rows

theorem step {s : σ} {e : Except Fault β} (hs : p s) (h : goes s ↔ ∃ b, e = .ok b)
    (hswaps : ∀ b, e = .ok b → Swaps ([s].filterMap moved) rows (get b)) :
    Sound goes p moved rows get (step s e) where
  all := by simpa using hs
  fuelled := by cases e <;> simp [Except.mapError]
  goes_iff := by simpa only [steps_step, List.forall_mem_singleton, step_eq_ok] using h
  swaps b hb := hswaps b (step_eq_ok.mp hb)

/-- A step that swaps nothing. -/
theorem silent {s : σ} {e : Except Fault β} (hs : p s) (h : goes s ↔ ∃ b, e = .ok b) (hnone : moved s = none) :
    Sound goes p moved rows (fun _ => rows) (Run.step s e) := by
  apply step hs h
  intro b _
  rw [List.filterMap_cons_none hnone]
  exact .refl rows

theorem bind (h : Sound goes p moved rows get r)
    (hf : ∀ b, r.result = .ok b → Sound goes p moved (get b) get' (f b)) : Sound goes p moved rows get' (r >>= f) := by
  cases hr : r.result with
  | error stop =>
    rw [bind_of_error hr]
    have hnone := h.goes_iff
    have hfuel := h.fuelled
    simp only [hr, reduceCtorEq] at hnone
    exact ⟨h.all, by simpa [hr] using hfuel, by simpa using hnone, fun b hb => by simp at hb⟩
  | ok b =>
    rw [bind_of_ok hr]
    have hall := h.goes_iff.mpr ⟨b, hr⟩
    have hb := hf b hr
    refine ⟨?_, hb.fuelled, ?_, fun c hc => ?_⟩
    · exact fun s hs => (List.mem_append.mp hs).elim (h.all s) (hb.all s)
    · rw [← hb.goes_iff]
      simp only [List.mem_append]
      exact ⟨fun hs s hm => hs s (.inr hm), fun hs s hm => hm.elim (hall s) (hs s)⟩
    · rw [List.filterMap_append]
      exact (h.swaps b hr).trans (hb.swaps c hc)

/-- A run over the rows between others. -/
theorem within (before after : List α) (h : Sound goes p moved rows get r) :
    Sound goes p moved (before ++ rows ++ after) (fun b => before ++ get b ++ after) r :=
  ⟨h.all, h.fuelled, h.goes_iff, fun b hb => (h.swaps b hb).within before after⟩

theorem cons (x : α) (h : Sound goes p moved rows get r) :
    Sound goes p moved (x :: rows) (fun b => x :: get b) r := by
  simpa using h.within [x] []

/-- What is said of the steps may be weakened. -/
theorem imp {p' : σ → Prop} (h : Sound goes p moved rows get r) (hp : ∀ s ∈ r.steps, p s → p' s) :
    Sound goes p' moved rows get r :=
  ⟨fun s hs => hp s hs (h.all s hs), h.fuelled, h.goes_iff, h.swaps⟩

theorem perm (h : Sound goes p moved rows get r) {b : β} (hb : r.result = .ok b) : (get b).Perm rows :=
  (h.swaps b hb).perm

end Sound

end Run

section Goes

variable {P : Type} (ordPath : P → P → Ordering)

/-- The kinds of rules that the overlap test can compare. -/
def comparable (a b : PatternRule P) : Bool :=
  a.isAny || b.isAny || isConst a || isConst b || match a, b with
    | .valueRange _ _ _ isInclusive, .valueRange _ _ _ isInclusive' => isInclusive && isInclusive'
    | .valueRange _ _ _ _, .value _ _ | .value _ _, .valueRange _ _ _ _ => true
    | .valueRange _ _ _ _, _ | _, .valueRange _ _ _ _ => false
    | .splitSlice _ _ _ _ _, .splitSlice _ _ _ _ _ | .splitSlice _ _ _ _ _, .slice _ _ _
    | .slice _ _ _, .splitSlice _ _ _ _ _ => true
    | .splitSlice _ _ _ _ _, _ | _, .splitSlice _ _ _ _ _ => false
    | _, _ => true

/-- The step does not stop the compiler. -/
def Step.Goes {α : Type} : Step P α → Prop
  | .column row idx => idx < row.length
  | .compare _ _ a b => comparable a b
  | .group a b => ∃ o, ordRuleCompatible ordPath a b = .ok o
  | .same a b => ∃ o, a.ord ordPath b = .ok o
  | .inner a => isVariant a

/-- The rows that a step swaps. -/
def Step.moved {α : Type} : Step P α → Option (α × α)
  | .compare x y a b =>
    match swapsRules ordPath a b with
    | .ok true => some (x, y)
    | _ => none
  | _ => none

/-- A comparison of neighbours is one of the rows' rules in the column. -/
def Step.InColumn {α : Type} (view : α → List (PatternRule P)) (idx : ℕ) (rows : List α) : Step P α → Prop
  | .compare x y a b => x ∈ rows ∧ y ∈ rows ∧ a = ruleAt view idx x ∧ b = ruleAt view idx y
  | _ => True

variable {ordPath}

theorem Step.InColumn.mono {α : Type} {view : α → List (PatternRule P)} {idx : ℕ} {rows rows' : List α} {s : Step P α}
    (h : s.InColumn view idx rows) (hsub : rows ⊆ rows') : s.InColumn view idx rows' := by
  cases s with
  | compare x y a b => exact ⟨hsub h.1, hsub h.2.1, h.2.2⟩
  | _ => trivial

theorem Step.moved_eq_some {α : Type} {s : Step P α} {x y : α} (h : s.moved ordPath = some (x, y)) :
    ∃ a b, s = .compare x y a b ∧ swapsRules ordPath a b = .ok true := by
  cases s with
  | compare x' y' a b =>
    simp only [Step.moved] at h
    split at h
    next hs =>
      simp only [Option.some.injEq, Prod.mk.injEq] at h
      exact ⟨a, b, by rw [h.1, h.2], hs⟩
    next => simp at h
  | _ => simp [Step.moved] at h

theorem exists_rulesOverlap {a b : PatternRule P} : (∃ o, rulesOverlap ordPath a b = .ok o) ↔ comparable a b := by
  unfold rulesOverlap comparable
  cases hguard : a.isAny || b.isAny || isConst a || isConst b
  · simp only [Bool.false_eq_true, if_false, Bool.false_or]
    cases a <;> cases b <;>
      try (simp [Bind.bind, Except.bind, Pure.pure, Except.pure, ordRuleCompatible]; done)
    case valueRange.valueRange isInclusive _ _ _ isInclusive' =>
      cases isInclusive <;> cases isInclusive' <;> first
        | exact ⟨fun _ => rfl, fun _ => ⟨_, rfl⟩⟩
        | simp
  · simp

/-- Rules that do not overlap are not both of split slices. -/
theorem isSplitSlice_of_overlap {a b : PatternRule P} (h : rulesOverlap ordPath a b = .ok false) :
    a.isSplitSlice = false ∨ b.isSplitSlice = false := by
  have ⟨hany, hany', hconst, hconst'⟩ := overlap_guard h
  cases a <;> cases b <;> first
    | exact .inl rfl
    | exact .inr rfl
    | skip
  simp [rulesOverlap, hany, hany', hconst, hconst'] at h

/-- A comparison of neighbours fails on the kinds that the overlap test cannot compare, and on no others. -/
theorem comparable_iff {a b : PatternRule P} : comparable a b ↔ ∃ o, swapsRules ordPath a b = .ok o := by
  rw [← @exists_rulesOverlap P ordPath]
  cases ho : rulesOverlap ordPath a b with
  | error f => simp [swapsRules, ho, Bind.bind, Except.bind]
  | ok o =>
    cases o
    · have hs := isSplitSlice_of_overlap ho
      simp [swapsRules, ho, ordRuleCompatible_eq_headOrd hs, Bind.bind, Except.bind, Pure.pure, Except.pure]
    · simp [swapsRules, ho, Bind.bind, Except.bind, Pure.pure, Except.pure]

end Goes

end Mrustc.MatchRules
