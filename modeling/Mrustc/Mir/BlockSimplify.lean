import Mrustc.Mir.Cfg

/-! # Simplifying the call graph

The pass is computed with fuel, as neither following gotos nor the loops over the graph is bounded by the
source. It also gives nothing where the source reads past the end of the blocks or of a switch.
-/

namespace Mrustc.Mir

variable {T P : Type}

namespace BlockSimplify

/-- `get_new_target` -/
def getNewTarget (blocks : Blocks T P) : ℕ → BasicBlockId → Option BasicBlockId
  | 0, _ => none
  | fuel + 1, bb => do
    let target ← blocks[bb]?
    if target.statements.length ≠ 0 then
      return bb
    else
      match target.terminator with
      | .goto next => if bb = next then return bb else getNewTarget blocks fuel next
      | _ => return bb

def retarget (fuel : ℕ) (blocks : Blocks T P) (i : ℕ) : Option (Blocks T P) := do
  let block ← blocks[i]?
  let terminator ← block.terminator.mapTargetsM fun e =>
    if e = i then some e else getNewTarget blocks fuel e
  return blocks.set i { block with terminator }

/-- The target of a switch whose target is a switch on the same value. -/
def chainedTarget [DecidableEq P] (blocks : Blocks T P) (val : LValue P) (idx : ℕ) (t : BasicBlockId) :
    Option BasicBlockId := do
  let block ← blocks[t]?
  match block.statements, block.terminator with
  | [], .switch nVal nTargets => if nVal = val then nTargets[idx]? else return t
  | _, _ => return t

/-- Handle chained switches of the same value. -/
def chainSwitches [DecidableEq P] (blocks : Blocks T P) (i : ℕ) : Option (Blocks T P) := do
  let block ← blocks[i]?
  match block.terminator with
  | .switch val targets =>
    let targets ← (targets.zipIdx).mapM fun t => chainedTarget blocks val t.2 t.1
    return blocks.set i { block with terminator := .switch val targets }
  | _ => return blocks

/-- Replace targets that point to a block that is just a goto. -/
def skipGotos [DecidableEq P] (fuel : ℕ) (blocks : Blocks T P) : Option (Blocks T P) :=
  (List.range blocks.length).foldlM
    (fun blocks i => (retarget fuel blocks i).bind fun blocks => chainSwitches blocks i) blocks

/-- The loop that unifies each `ScopeEnd` with the one before it. -/
def unifyFrom (prev : Statement T P (LValue P)) :
    List (Statement T P (LValue P)) → List (Statement T P (LValue P))
  | [] => [prev]
  | st :: sts =>
    match prev, st with
    | .scopeEnd dst, .scopeEnd src => unifyFrom (.scopeEnd (dst ++ src).mergeSort) sts
    | _, _ => prev :: unifyFrom st sts

/-- Unify sequential `ScopeEnd` statements. -/
def unifyScopeEnds : List (Statement T P (LValue P)) → List (Statement T P (LValue P))
  | [] => []
  | st :: sts => unifyFrom st sts

def unified (blocks : Blocks T P) : Blocks T P :=
  blocks.map fun block => { block with statements := unifyScopeEnds block.statements }

/-- The blocks that are reached, and how often each is referred to from them. -/
def countUses (blocks : Blocks T P) :
    ℕ → (ℕ → Bool) → (ℕ → ℕ) → List BasicBlockId → Option ((ℕ → Bool) × (ℕ → ℕ))
  | 0, _, _, _ => none
  | _ + 1, visited, uses, [] => some (visited, uses)
  | fuel + 1, visited, uses, bb :: toVisit =>
    if visited bb then
      countUses blocks fuel visited uses toVisit
    else do
      let visited := Function.update visited bb true
      let block ← blocks[bb]?
      let (toVisit, uses) := block.terminator.targets.foldl (fun (toVisit, uses) e =>
        (if visited e then toVisit else e :: toVisit, Function.update uses e (uses e + 1)))
        (toVisit, uses)
      countUses blocks fuel visited uses toVisit

/-- Append single-use blocks to a block for as long as it ends with a goto to one. -/
def appendTargets (uses : ℕ → ℕ) (i : ℕ) : ℕ → Blocks T P → Option (Blocks T P)
  | 0, _ => none
  | fuel + 1, blocks => do
    let block ← blocks[i]?
    match block.terminator with
    | .goto tgt =>
      if uses tgt ≠ 1 then
        return blocks
      else if tgt = i then
        return blocks
      else do
        let src ← blocks[tgt]?
        appendTargets uses i fuel ((blocks.set tgt ⟨[], .incomplete⟩).set i
          ⟨block.statements ++ src.statements, src.terminator⟩)
    | _ => return blocks

/-- Merge blocks where a block goto-s to a single-use block. -/
def mergeBlocks (fuel : ℕ) (blocks : Blocks T P) : Option (Blocks T P) := do
  let (visited, uses) ← countUses blocks fuel (fun _ => false) (Function.update (fun _ => 0) 0 1) [0]
  (List.range blocks.length).foldlM
    (fun blocks i => if visited i then appendTargets uses i fuel blocks else some blocks) blocks

/-- A goto to a block that is just a `Return` or `Diverge` becomes one. -/
def shortcutExit (blocks : Blocks T P) (i : ℕ) : Option (Blocks T P) := do
  let block ← blocks[i]?
  match block.terminator with
  | .goto tgt =>
    let target ← blocks[tgt]?
    match target.statements, target.terminator with
    | [], .return_ => return blocks.set i { block with terminator := .return_ }
    | [], .diverge => return blocks.set i { block with terminator := .diverge }
    | _, _ => return blocks
  | _ => return blocks

def shortcutExits (blocks : Blocks T P) : Option (Blocks T P) :=
  (List.range blocks.length).foldlM shortcutExit blocks

end BlockSimplify

open BlockSimplify

/-- `MIR_Optimise_BlockSimplify` -/
def blockSimplify [DecidableEq P] (fuel : ℕ) (fcn : Function T P (LValue P)) :
    Option (Function T P (LValue P)) := do
  let blocks ← skipGotos fuel fcn.blocks
  let blocks ← mergeBlocks fuel (unified blocks)
  let blocks ← shortcutExits blocks
  return { fcn with blocks }

end Mrustc.Mir
