import Mrustc.Depth.Search
import Mrustc.Mir.BlockContents
import Mrustc.Numbering.Renumbers

/-! # Collecting garbage and sorting the blocks

Where the source has `~0u` in a table there is `none`. The passes give nothing where they assert or read
past the end, or when the fuel of a search is used up.
-/

namespace Mrustc.Mir

open Depth Mrustc.Numbering

variable {T P : Type}

/-- One round of `visit_blocks`. -/
def visitStep (blocks : Blocks T P) (visited : BasicBlockId → Bool) (bb : BasicBlockId) :
    Option ((BasicBlockId → Bool) × List BasicBlockId) :=
  if visited bb then some (visited, [])
  else do
    let block ← blocks[bb]?
    let visited := Function.update visited bb true
    return (visited, (block.terminator.targets.filter fun e => !visited e).reverse)

/-- The blocks that `visit_blocks` gives to its callback. -/
def visitBlocks (blocks : Blocks T P) (fuel : ℕ) : Option (BasicBlockId → Bool) :=
  search (visitStep blocks) fuel (fun _ => false) [0]

namespace GarbageCollect

/-- `assigned_lval` -/
def assignedLval (lv : LValue P) : Option ℕ :=
  if lv.wrappers.all fun
    | .field _ => true
    | _ => false
  then
    match lv.root with
    | .local_ idx => some idx
    | _ => none
  else none

/-- The lvalues of a statement that are given to `assigned_lval`. -/
def assignedBy : Statement T P (LValue P) → List (LValue P)
  | .assign dst _ => [dst]
  | .asm _ outputs _ _ _ => outputs.map Prod.snd
  | .asm2 _ _ params => params.filterMap Interp.asmOutput
  | _ => []

def setFlags : Statement T P (LValue P) → List ℕ
  | .setDropFlag idx _ other => idx :: other.toList
  | _ => []

def returned : Terminator T P (LValue P) → List (LValue P)
  | .call _ _ retVal _ _ => [retVal]
  | _ => []

/-- The locals that the visit of a block marks. -/
def markedLocals (block : BasicBlock T P (LValue P)) : List ℕ :=
  (block.statements.flatMap assignedBy ++ returned block.terminator).filterMap assignedLval

/-- The drop flags that the visit of a block marks. -/
def markedDfs (block : BasicBlock T P (LValue P)) : List ℕ := block.statements.flatMap setFlags

/-- The bitmap of `n` entries in which the visits of the blocks mark some. -/
def marks (marked : BasicBlock T P (LValue P) → List ℕ) (blocks : Blocks T P) (n : ℕ) : List Bool :=
  (List.range n).map fun i => blocks.any fun block => (marked block).contains i

/-- The new position of each element, `j` being the first one. -/
def rewriteTable : List Bool → ℕ → List (Option ℕ)
  | [], _ => []
  | used :: us, j => if used then some j :: rewriteTable us (j + 1) else none :: rewriteTable us j

/-- The loop that erases what is not used, from position `j` on. -/
def eraseUnused {α : Type} : List Bool → ℕ → List α → List α
  | [], _, xs => xs
  | used :: us, j, xs => if used then eraseUnused us (j + 1) xs else eraseUnused us j (xs.eraseIdx j)

structure Tables where
  locals : List (Option ℕ)
  dropFlags : List (Option ℕ)
  blocks : List (Option ℕ)

/-- What `new_Index` makes of `~0u`. -/
def maxArg : ℕ := 2 ^ 30 - 1

def rewriteRoot (table : List (Option ℕ)) : Storage P → Option (Storage P)
  | .local_ e => do
    let e ← (← table[e]?)
    return .local_ e
  | root => some root

def rewriteWrapper (table : List (Option ℕ)) : Wrapper → Option Wrapper
  | .index e => do
    let e ← table[e]?
    return .index (e.getD maxArg)
  | w => some w

/-- `lvalue_cb` -/
def lvalueCb (table : List (Option ℕ)) (lv : LValue P) : Option (LValue P) := do
  let root ← rewriteRoot table lv.root
  let wrappers ← lv.wrappers.mapM (rewriteWrapper table)
  return ⟨root, wrappers⟩

/-- Borrowed parameters are not visited. -/
def rewriteLvalues (table : List (Option ℕ)) : Visitor Option Unit (LValue P) (LValue P) where
  lvalue _ lv _ := (lvalueCb table lv).map (·, ())
  paramBorrow _ lv := some (lv, ())

/-- The flag of a drop after the rewriting. It is `none` when the drop is removed. -/
def rewriteFlag (table : List (Option ℕ)) (dropFlags : List Bool) :
    Option ℕ → Option (Option (Option ℕ))
  | none => return some none
  | some idx => do
    match ← table[idx]? with
    | some idx => return some (some idx)
    | none => return if ← dropFlags[idx]? then some none else none

/-- Whether the slot of a drop is a local that is not used. -/
def dropsUnset (table : List (Option ℕ)) (slot : LValue P) : Option Bool :=
  match slot.root, slot.wrappers with
  | .local_ e, [] => (table[e]?).map Option.isNone
  | _, _ => some false

/-- A statement after the rewriting, if it is not removed. -/
def rewriteStatement (tables : Tables) (dropFlags : List Bool) :
    Statement T P (LValue P) → Option (Option (Statement T P (LValue P)))
  -- The comparison with the default statement leaves the template out.
  | .asm _ [] [] [] [] => some none
  | .drop kind slot flagIdx => do
    match ← rewriteFlag tables.dropFlags dropFlags flagIdx with
    | none => return none
    | some flagIdx =>
      if ← dropsUnset tables.locals slot then return none
      else return some (.drop kind (← lvalueCb tables.locals slot) flagIdx)
  | .setDropFlag idx newVal other => do
    match ← tables.dropFlags[idx]? with
    | none => return none
    | some idx =>
      match other with
      | none => return some (.setDropFlag idx newVal none)
      | some other => return some (.setDropFlag idx newVal (← tables.dropFlags[other]?))
  | .scopeEnd slots => do
    let slots ← slots.mapM (tables.locals[·]?)
    return if slots.reduceOption.isEmpty then none else some (.scopeEnd slots.reduceOption)
  | stmt => do
    let (stmt, _) ← stmt.visit (rewriteLvalues tables.locals) ()
    return some stmt

def rewriteTarget (table : List (Option ℕ)) (e : BasicBlockId) : Option BasicBlockId :=
  (table[e]?).map (·.getD (2 ^ 32 - 1))

/-- The target of a `Panic` is left as it is. -/
def rewriteTargets (table : List (Option ℕ)) :
    Terminator T P (LValue P) → Option (Terminator T P (LValue P))
  | .panic dst => some (.panic dst)
  | t => t.mapTargetsM (rewriteTarget table)

def rewriteTerminator (tables : Tables) (t : Terminator T P (LValue P)) :
    Option (Terminator T P (LValue P)) := do
  let (t, _) ← t.visit (rewriteLvalues tables.locals) ()
  rewriteTargets tables.blocks t

def rewriteBlock (tables : Tables) (dropFlags : List Bool) (block : BasicBlock T P (LValue P)) :
    Option (BasicBlock T P (LValue P)) := do
  let statements ← block.statements.mapM (rewriteStatement tables dropFlags)
  return ⟨statements.reduceOption, ← rewriteTerminator tables block.terminator⟩

variable (fcn : Function T P (LValue P)) (visited : List Bool)

def usedLocals : List Bool := marks markedLocals (compact visited fcn.blocks) fcn.locals.length

def usedDfs : List Bool := marks markedDfs (compact visited fcn.blocks) fcn.dropFlags.length

def rewriteTables : Tables where
  locals := rewriteTable (usedLocals fcn visited) 0
  dropFlags := rewriteTable (usedDfs fcn visited) 0
  blocks := rewriteTable visited 0

/-- What is done after visiting the blocks. Those that are not visited are neither rewritten nor kept. -/
def collect : Option (Function T P (LValue P)) := do
  let blocks ← (compact visited fcn.blocks).mapM (rewriteBlock (rewriteTables fcn visited) fcn.dropFlags)
  return ⟨eraseUnused (usedLocals fcn visited) 0 fcn.locals,
    eraseUnused (usedDfs fcn visited) 0 fcn.dropFlags, blocks⟩

end GarbageCollect

/-- `MIR_Optimise_GarbageCollect` -/
def garbageCollect (fuel : ℕ) (fcn : Function T P (LValue P)) : Option (Function T P (LValue P)) := do
  let visited ← visitBlocks fcn.blocks fuel
  GarbageCollect.collect fcn ((List.range fcn.blocks.length).map visited)

namespace SortBlocks

structure Todo where
  bbIdx : BasicBlockId
  branchCount : ℕ
  level : ℕ

/-- The targets in the order in which they are pushed, and whether a new branch is counted for each. -/
def branches : Terminator T P (LValue P) → List (BasicBlockId × Bool)
  | .goto te => [(te, false)]
  | .panic dst => [(dst, false)]
  | .if_ _ bbTrue bbFalse => [(bbTrue, true), (bbFalse, true)]
  | .switch _ targets => targets.map (·, true)
  | .switchValue _ defTarget targets _ => targets.map (·, true) ++ [(defTarget, false)]
  | .call retBlock panicBlock _ _ _ => [(retBlock, false), (panicBlock, true)]
  | _ => []

/-- The number of branches and the items on top of the stack after pushing the targets. -/
def push (info : Todo) : ℕ → List (BasicBlockId × Bool) → ℕ × List Todo
  | n, [] => (n, [])
  | n, (bb, isNew) :: rest =>
    let n' := if isNew then n + 1 else n
    let pushed := push info n' rest
    (pushed.1, pushed.2 ++ [⟨bb, if isNew then n' else info.branchCount, info.level + 1⟩])

structure Progress where
  visited : BasicBlockId → Bool
  depths : BasicBlockId → ℕ × ℕ
  branches : ℕ

def depthStep (blocks : Blocks T P) (s : Progress) (info : Todo) : Option (Progress × List Todo) :=
  if s.visited info.bbIdx then some (s, [])
  else do
    let bb ← blocks[info.bbIdx]?
    let pushed := push info s.branches (branches bb.terminator)
    return (⟨Function.update s.visited info.bbIdx true,
      Function.update s.depths info.bbIdx (info.branchCount, info.level), pushed.1⟩, pushed.2)

/-- `std::sort` by a key. Elements with the same key are put in any order. -/
structure Sorting where
  sort : (BasicBlockId → ℕ × ℕ) → List BasicBlockId → List BasicBlockId
  perm (key : BasicBlockId → ℕ × ℕ) (xs : List BasicBlockId) : (sort key xs).Perm xs
  sorted (key : BasicBlockId → ℕ × ℕ) (xs : List BasicBlockId) :
    (sort key xs).Pairwise fun a b => toLex (key a) ≤ toLex (key b)

end SortBlocks

open SortBlocks in
/-- `MIR_SortBlocks` -/
def sortBlocks (sorting : Sorting) (fuel : ℕ) (fcn : Function T P (LValue P)) :
    Option (Function T P (LValue P)) := do
  let s ← search (depthStep fcn.blocks) fuel ⟨fun _ => false, fun _ => (0, 0), 0⟩ [⟨0, 0, 0⟩]
  let idxes := sorting.sort s.depths (List.range fcn.blocks.length)
  let blocks ← idxes.mapM fun idx => do
    let block ← fcn.blocks[idx]?
    return { block with terminator := block.terminator.mapTargets fun te => idxes.idxOf te }
  return { fcn with blocks }

end Mrustc.Mir
