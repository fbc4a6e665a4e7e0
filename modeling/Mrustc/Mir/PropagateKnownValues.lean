import Mrustc.Depth.Search
import Mrustc.Mir.Cfg
import Mrustc.Mir.Invalidation

/-! # Propagating known values

The reads of a field of a tuple become reads of what the tuple was made from. Where the source has
`SIZE_MAX` for an origin there is `none`, and the walks are cut off when their fuel is used up.
-/

namespace Mrustc.Mir

open Depth

variable {T P : Type}

/-- What the search for the origins of the blocks has found. -/
structure BlockUses where
  visited : BasicBlockId → Bool
  blockUses : BasicBlockId → ℕ
  blockOrigins : BasicBlockId → Option BasicBlockId

namespace BlockUses

def start : BlockUses where
  visited _ := false
  blockUses := Function.update (fun _ => 0) 0 1
  blockOrigins _ := none

/-- An edge from `bb` to `idx`. -/
def useTarget (bb : BasicBlockId) (s : BlockUses) (idx : BasicBlockId) : BlockUses :=
  { s with
    blockUses := Function.update s.blockUses idx (s.blockUses idx + 1)
    blockOrigins := Function.update s.blockOrigins idx (if s.blockUses idx = 0 then some bb else none) }

end BlockUses

/-- One round of the search. -/
def originsStep (blocks : Blocks T P) (s : BlockUses) (bb : BasicBlockId) :
    Option (BlockUses × List BasicBlockId) :=
  if s.visited bb then some (s, [])
  else do
    let block ← blocks[bb]?
    let s := { s with visited := Function.update s.visited bb true }
    let toVisit := (block.terminator.targets.filter fun e => !s.visited e).reverse
    return (block.terminator.targets.foldl (BlockUses.useTarget bb) s, toVisit)

/-- The block before each block that has only one. -/
def blockOrigins (blocks : Blocks T P) (fuel : ℕ) : Option (BasicBlockId → Option BasicBlockId) :=
  (search (originsStep blocks) fuel .start [0]).map BlockUses.blockOrigins

/-- A statement of a block, or its terminator. -/
structure Position where
  bb : BasicBlockId
  stmt : ℕ
  deriving DecidableEq, Repr

inductive Item (T P : Type)
  | statement (st : Statement T P (LValue P))
  | terminator (t : Terminator T P (LValue P))
  deriving DecidableEq

namespace Item

def lvalues : Item T P → List (LValue P × ValUsage)
  | .statement st => st.lvalues
  | .terminator t => t.lvalues

/-- `check_invalidates_lvalue` -/
def invalidates [DecidableEq P] (item : Item T P) (val : LValue P) (isCopy : Bool) : Bool :=
  item.lvalues.any fun x => val.invalidatedBy isCopy false x.1 x.2

end Item

def itemAt (blocks : Blocks T P) (pos : Position) : Option (Item T P) := do
  let block ← blocks[pos.bb]?
  match block.statements[pos.stmt]? with
  | some st => return .statement st
  | none => if pos.stmt = block.statements.length then return .terminator block.terminator else none

/-- What `get_field` finds. It throws where the field is not one of the tuple. -/
inductive Lookup (P : Type)
  | nullptr
  | source (lv : LValue P)
  | thrown
  deriving DecidableEq

/-- The operand that the field of a tuple is made from. -/
def RValue.tupleField (field : ℕ) : RValue T P (LValue P) → Lookup P
  | .tuple vals =>
    match vals[field]? with
    | none => .thrown
    | some (.lvalue lv) => .source lv
    | some _ => .nullptr
  | _ => .nullptr

/-- What the item assigns to the field of the slot. -/
def Item.assignsField [DecidableEq P] (slot : LValue P) (field : ℕ) : Item T P → Option (Lookup P)
  | .statement (.assign dst src) => if dst = slot then some (src.tupleField field) else none
  | _ => none

section Walks

variable (blocks : Blocks T P) (origins : BasicBlockId → Option BasicBlockId)

/-- The position before this one. Before a block comes the terminator of its origin. -/
def stepBack : Position → Option Position
  | ⟨bb, stmt + 1⟩ => some ⟨bb, stmt⟩
  | ⟨bb, 0⟩ => do
    let origin ← origins bb
    let block ← blocks[origin]?
    return ⟨origin, block.statements.length⟩

variable [DecidableEq P] (isCopy : LValue P → Bool)

/-- The walk from the use back to the assignment at `stop`, which looks for mutations of the source. -/
def checkSource (srcLval : LValue P) (stop : Position) : ℕ → Position → Option (Lookup P)
  | 0, _ => none
  | fuel + 1, pos =>
    match stepBack blocks origins pos with
    | none => some .thrown
    | some pos =>
      if pos = stop then some (.source srcLval)
      else
        match itemAt blocks pos with
        | none => some .thrown
        | some item =>
          if item.invalidates srcLval (isCopy srcLval) then some .nullptr
          else checkSource srcLval stop fuel pos

/-- The search of `get_field` from `start`, which has come to `pos`. -/
def searchField (slot : LValue P) (field : ℕ) (start : Position) : ℕ → Position → Option (Lookup P)
  | 0, _ => none
  | fuel + 1, pos =>
    match stepBack blocks origins pos with
    | none => some .nullptr
    | some pos =>
      match itemAt blocks pos with
      | none => some .thrown
      | some item =>
        match item.assignsField slot field with
        | some (.source srcLval) => checkSource blocks origins isCopy srcLval pos fuel start
        | some other => some other
        | none =>
          if item.invalidates slot (isCopy slot) then some .nullptr
          else searchField slot field start fuel pos

/-- `get_field` -/
def getField (slot : LValue P) (field : ℕ) (start : Position) (fuel : ℕ) : Option (Lookup P) :=
  searchField blocks origins isCopy slot field start fuel start

/-- The local, the field and the remaining wrappers of an lvalue that is looked up. -/
def fieldRead (isCopy : LValue P → Bool) (lv : LValue P) (vu : ValUsage) : Option (ℕ × ℕ × List Wrapper) :=
  match vu, lv.root, lv.wrappers with
  | .read, .local_ n, .field field :: w :: ws =>
    if isCopy (.newLocal n) then some (n, field, w :: ws) else none
  | _, _, _ => none

/-- What the callback makes of an lvalue at `pos`. -/
def knownValue (pos : Position) (fuel : ℕ) (lv : LValue P) (vu : ValUsage) : Option (LValue P) :=
  match fieldRead isCopy lv vu with
  | none => some lv
  | some (n, field, ws) =>
    match getField blocks origins isCopy (.newLocal n) field pos fuel with
    | some (.source src) =>
      some (if src = ⟨.local_ n, [.field field]⟩ then lv else src.cloneWrapped ws)
    | some .nullptr => some lv
    | _ => none

/-- Borrowed parameters are not visited. -/
def knownValues (pos : Position) (fuel : ℕ) : Visitor Option Unit (LValue P) (LValue P) where
  lvalue s lv vu := (knownValue blocks origins isCopy pos fuel lv vu).map (·, s)
  paramBorrow s lv := some (lv, s)

end Walks

section Pass

variable [DecidableEq P] (isCopy : LValue P → Bool)

def setStatement (blocks : Blocks T P) (pos : Position) (st : Statement T P (LValue P)) : Blocks T P :=
  blocks.modify pos.bb fun block => { block with statements := block.statements.set pos.stmt st }

/-- The positions of the statements, in their order. -/
def statementPositions (blocks : Blocks T P) : List Position :=
  blocks.zipIdx.flatMap fun x => (List.range x.1.statements.length).map (⟨x.2, ·⟩)

/-- One round of the loop over the statements. -/
def propagateStep (origins : BasicBlockId → Option BasicBlockId) (fuel : ℕ) (blocks : Blocks T P)
    (pos : Position) : Option (Blocks T P) := do
  let block ← blocks[pos.bb]?
  let st ← block.statements[pos.stmt]?
  let (st, _) ← st.visit (knownValues blocks origins isCopy pos fuel) ()
  return setStatement blocks pos st

/-- `MIR_Optimise_PropagateKnownValues` -/
def propagateKnownValues (fcn : Function T P (LValue P)) (fuel : ℕ) : Option (Function T P (LValue P)) := do
  let origins ← blockOrigins fcn.blocks fuel
  let blocks ← (statementPositions fcn.blocks).foldlM (propagateStep isCopy origins fuel) fcn.blocks
  return { fcn with blocks }

end Pass

end Mrustc.Mir
