import Mrustc.MatchRules.Rules

/-! # The sort of the rule sets

`sort_rulesets` as a run that keeps what it asserts and compares. The rows are of any type, with the rules that are
sorted on as a view of them, so that the rules inside a variant are another view of the same rows.
-/

namespace Mrustc.MatchRules

/-- Why a run has no result; the model's want of fuel is no fault of the compiler's. -/
inductive Stop
  | fault (f : Fault)
  | outOfFuel
  deriving DecidableEq

/-- A computation that may stop, with the steps that it took. -/
structure Run (σ β : Type) where
  steps : List σ
  result : Except Stop β

namespace Run

variable {σ β γ : Type}

def outOfFuel : Run σ β := ⟨[], .error .outOfFuel⟩

/-- A step with what comes of it. -/
def step (s : σ) (result : Except Fault β) : Run σ β := ⟨[s], result.mapError .fault⟩

protected def bind (r : Run σ β) (f : β → Run σ γ) : Run σ γ :=
  match r.result with
  | .error stop => ⟨r.steps, .error stop⟩
  | .ok b => ⟨r.steps ++ (f b).steps, (f b).result⟩

instance : Monad (Run σ) where
  pure b := ⟨[], .ok b⟩
  bind := Run.bind

end Run

/-- A rule set: the arm, the rules of one of its patterns, and the bindings of it. -/
structure PatternRuleset (P B : Type) where
  armIdx : ℕ
  armRuleIdx : ℕ
  rules : List (PatternRule P)
  bindings : List B

/-- What the sort asserts and compares. -/
inductive Step (P α : Type)
  /-- `assert(idx < rulesets[i].size())`. -/
  | column (row : List (PatternRule P)) (idx : ℕ)
  /-- Two neighbours, with their rules in the column. -/
  | compare (x y : α) (a b : PatternRule P)
  /-- A rule and the first of its run, without the rules inside. -/
  | group (a b : PatternRule P)
  /-- A rule and the first of its run, as a whole. -/
  | same (a b : PatternRule P)
  /-- The rules inside one of a run of variants. -/
  | inner (a : PatternRule P)

section Sorting

variable {P α : Type} (ordPath : P → P → Ordering)

/-- The neighbours' rules do not overlap and are in the wrong order. -/
def swapsRules (a b : PatternRule P) : Except Fault Bool := do
  if ← rulesOverlap ordPath a b then return false
  let o ← ordRuleCompatible ordPath a b
  return o = .gt

/-- `rulesets[i][idx]`, of a row that was asserted to have it. -/
def ruleAt (view : α → List (PatternRule P)) (idx : ℕ) (x : α) : PatternRule P := (view x).getD idx (.any [])

def innerRules : PatternRule P → List (PatternRule P)
  | .variant _ _ subRules => subRules
  | _ => []

def isVariant : PatternRule P → Bool
  | .variant _ _ _ => true
  | _ => false

def assertColumns (view : α → List (PatternRule P)) (idx : ℕ) : List α → Run (Step P α) Unit
  | [] => return
  | x :: rest => do
    Run.step (.column (view x) idx) (if idx < (view x).length then .ok () else .error .assertColumn)
    assertColumns view idx rest

/-- One round of the loop; `x` is the row at `i`, and the flag is `action_taken`. -/
def bubblePass (view : α → List (PatternRule P)) (idx : ℕ) (x : α) : List α → Run (Step P α) (List α × Bool)
  | [] => return ([x], false)
  | y :: rest => do
    let swap ← Run.step (.compare x y (ruleAt view idx x) (ruleAt view idx y))
      (swapsRules ordPath (ruleAt view idx x) (ruleAt view idx y))
    if swap then
      let (rows, _) ← bubblePass view idx x rest
      return (y :: rows, true)
    else
      let (rows, actionTaken) ← bubblePass view idx y rest
      return (x :: rows, actionTaken)

/-- The loop until a round swaps nothing. -/
def bubble (view : α → List (PatternRule P)) (idx : ℕ) : ℕ → List α → Run (Step P α) (List α)
  | _, [] => return []
  | 0, _ => .outOfFuel
  | fuel + 1, x :: rest => do
    let (rows, actionTaken) ← bubblePass ordPath view idx x rest
    if actionTaken then bubble view idx fuel rows else return rows

/-- Sorts each run of rows that are equal to the first of it; `slice` is the run so far, from `start` on. -/
def forRuns (isEqual : α → α → Run (Step P α) Bool) (sort : List α → Run (Step P α) (List α)) (start : α)
    (slice : List α) : List α → Run (Step P α) (List α)
  | [] => sort slice
  | x :: rest => do
    if ← isEqual x start then
      forRuns isEqual sort start (slice ++ [x]) rest
    else
      let done ← sort slice
      let others ← forRuns isEqual sort x [x] rest
      return done ++ others

def forAllRuns (isEqual : α → α → Run (Step P α) Bool) (sort : List α → Run (Step P α) (List α)) :
    List α → Run (Step P α) (List α)
  | [] => return []
  | x :: rest => forRuns isEqual sort x [x] rest

/-- `ord_rule_compatible(..) == OrdEqual` of two rows. -/
def ruleCompatible (view : α → List (PatternRule P)) (idx : ℕ) (x y : α) : Run (Step P α) Bool :=
  Run.step (.group (ruleAt view idx x) (ruleAt view idx y))
    ((· = .eq) <$> ordRuleCompatible ordPath (ruleAt view idx x) (ruleAt view idx y))

/-- `==` of the rules of two rows. -/
def ruleSame (view : α → List (PatternRule P)) (idx : ℕ) (x y : α) : Run (Step P α) Bool :=
  Run.step (.same (ruleAt view idx x) (ruleAt view idx y))
    ((· = .eq) <$> (ruleAt view idx x).ord ordPath (ruleAt view idx y))

/-- The rows of a slice by the rules inside; no rule of them is anything else than a variant. -/
def checkInner (view : α → List (PatternRule P)) (idx : ℕ) : List α → Run (Step P α) Unit
  | [] => return
  | x :: rest => do
    Run.step (.inner (ruleAt view idx x)) (if isVariant (ruleAt view idx x) then .ok () else .error .notVariant)
    checkInner view idx rest

/-- `sort_rulesets_inner`. -/
def sortRulesetsInner (sort : (α → List (PatternRule P)) → List α → Run (Step P α) (List α))
    (view : α → List (PatternRule P)) (idx : ℕ) (rows : List α) : Run (Step P α) (List α) :=
  match rows with
  | [] => return []
  | first :: _ =>
    if (innerRules (ruleAt view idx first)).isEmpty then return rows
    else do
      checkInner view idx rows
      sort (fun x => innerRules (ruleAt view idx x)) rows

/-- `sort_rulesets`. -/
def sortRulesetsFrom : ℕ → (α → List (PatternRule P)) → ℕ → List α → Run (Step P α) (List α)
  | _, _, _, [] => return []
  | _, _, _, [x] => return [x]
  | 0, _, _, _ => .outOfFuel
  | fuel + 1, view, idx, x :: y :: rest =>
    if (view x).isEmpty then return x :: y :: rest
    else do
      assertColumns view idx (x :: y :: rest)
      if (x :: y :: rest).any fun r => !(ruleAt view idx r).isAny then
        let rows ← bubble ordPath view idx ((x :: y :: rest).length ^ 2 + 1) (x :: y :: rest)
        let rows ← forAllRuns (ruleCompatible ordPath view idx)
          (sortRulesetsInner (fun view' => sortRulesetsFrom fuel view' 0) view idx) rows
        if (rows.head?.elim 0 fun r => (view r).length) > idx + 1 then
          forAllRuns (ruleSame ordPath view idx) (sortRulesetsFrom fuel view (idx + 1)) rows
        else return rows
      else if idx + 1 < (view x).length then sortRulesetsFrom fuel view (idx + 1) (x :: y :: rest)
      else return x :: y :: rest

end Sorting

mutual

/-- The rules inside a rule's variants, with the rule. -/
def PatternRule.size {P : Type} : PatternRule P → ℕ
  | .variant _ _ subRules => 1 + PatternRule.sizeAll subRules
  | .slice _ _ _ | .splitSlice _ _ _ _ _ | .bool _ _ | .value _ _ | .valueRange _ _ _ _ | .any _ => 1

def PatternRule.sizeAll {P : Type} : List (PatternRule P) → ℕ
  | [] => 0
  | a :: rest => a.size + PatternRule.sizeAll rest

end

/-- `sort_rulesets` of the arms, with more fuel than any row has rules. -/
def sortRulesets {P B : Type} (ordPath : P → P → Ordering) (rows : List (PatternRuleset P B)) :
    Run (Step P (PatternRuleset P B)) (List (PatternRuleset P B)) :=
  sortRulesetsFrom ordPath ((rows.map fun r => PatternRule.sizeAll r.rules).sum + 1) PatternRuleset.rules 0 rows

end Mrustc.MatchRules
