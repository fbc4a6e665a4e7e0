import Mrustc.Mir.GarbageCollect
import Mrustc.Mir.Traverse

/-! # Isomorphic functions

The locals, drop flags and blocks of a function under other numbers. Of the locals those are kept that
reachable code uses, of the drop flags those that it sets, and of the blocks those that are reached.
-/

namespace Mrustc.Mir

open Mrustc.Numbering Relation GarbageCollect

variable {T P : Type}

def Reached (blocks : Blocks T P) (bb : BasicBlockId) : Prop :=
  ReflTransGen (fun a b => b ∈ succs blocks a) 0 bb

def LValue.locals (lv : LValue P) : List ℕ :=
  match lv.root with
  | .local_ l => l :: lv.indexLocals
  | _ => lv.indexLocals

/-- The locals that a statement uses. Being dropped as a whole and going out of scope is not a use. -/
def Statement.usedLocals : Statement T P (LValue P) → List ℕ
  | .drop _ slot _ => if slot.isLocal then [] else slot.locals
  | st => st.mentioned.flatMap LValue.locals

def Terminator.usedLocals (t : Terminator T P (LValue P)) : List ℕ := t.mentioned.flatMap LValue.locals

def Statement.scopedLocals : Statement T P (LValue P) → List ℕ
  | .scopeEnd slots => slots
  | _ => []

def Statement.droppedFlags : Statement T P (LValue P) → List ℕ
  | .drop _ _ flagIdx => flagIdx.toList
  | _ => []

namespace BasicBlock

variable (code : BasicBlock T P (LValue P))

def usedLocals : List ℕ := code.statements.flatMap Statement.usedLocals ++ code.terminator.usedLocals

def paramBorrows : List (LValue P) :=
  code.statements.flatMap Statement.paramBorrows ++ code.terminator.paramBorrows

end BasicBlock

namespace Function

variable (f : Function T P (LValue P))

/-- Reachable code names the number. -/
def Names (names : BasicBlock T P (LValue P) → List ℕ) (i : ℕ) : Prop :=
  ∃ bb code, Reached f.blocks bb ∧ f.blocks[bb]? = some code ∧ i ∈ names code

def Uses (l : ℕ) : Prop := f.Names BasicBlock.usedLocals l

/-- Reachable code writes the local, as a whole or field by field. -/
def Assigns (l : ℕ) : Prop := f.Names markedLocals l

/-- Reachable code sets the drop flag, or sets another one to it. -/
def SetsFlag (idx : ℕ) : Prop := f.Names markedDfs idx

/-- The blocks, locals and drop flags that the code names are there. -/
structure InRange : Prop where
  nonempty : 0 < f.blocks.length
  targets_lt {bb : BasicBlockId} {code : BasicBlock T P (LValue P)} (h : f.blocks[bb]? = some code) :
    ∀ e ∈ code.terminator.targets, e < f.blocks.length
  statement_lt {bb : BasicBlockId} {code : BasicBlock T P (LValue P)} (h : f.blocks[bb]? = some code) :
    ∀ st ∈ code.statements, ∀ l ∈ st.mentioned.flatMap LValue.locals ++ st.scopedLocals, l < f.locals.length
  terminator_lt {bb : BasicBlockId} {code : BasicBlock T P (LValue P)} (h : f.blocks[bb]? = some code) :
    ∀ l ∈ code.terminator.usedLocals, l < f.locals.length
  flags_lt {bb : BasicBlockId} {code : BasicBlock T P (LValue P)} (h : f.blocks[bb]? = some code) :
    ∀ st ∈ code.statements, ∀ idx ∈ setFlags st ++ st.droppedFlags, idx < f.dropFlags.length

end Function

/-- The new numbers of what is kept. -/
structure Renaming where
  local_ : ℕ → Option ℕ
  flag : ℕ → Option ℕ
  block : ℕ → Option ℕ

namespace Renaming

variable (r : Renaming)

def root : Storage P → Option (Storage P)
  | .local_ l => (r.local_ l).map .local_
  | root => some root

def wrapper : Wrapper → Option Wrapper
  | .index l => (r.local_ l).map .index
  | w => some w

def lvalue (lv : LValue P) : Option (LValue P) := do
  let root ← r.root lv.root
  let wrappers ← lv.wrappers.mapM r.wrapper
  return ⟨root, wrappers⟩

/-- The flag of a drop, if it may happen. A flag that is never set stays what it is at first. -/
def dropFlag (dropFlags : List Bool) : Option ℕ → Option (Option ℕ)
  | none => some none
  | some idx =>
    match r.flag idx with
    | some idx => some (some idx)
    | none => if dropFlags[idx]? = some true then some none else none

/-- The statement under the new numbers, if it still does something. -/
def statement (dropFlags : List Bool) :
    Statement T P (LValue P) → Option (Option (Statement T P (LValue P)))
  | .asm tpl [] [] [] [] => some (if tpl = [] then none else some (.asm tpl [] [] [] []))
  | .drop kind slot flagIdx =>
    match r.dropFlag dropFlags flagIdx with
    | none => some none
    | some flagIdx =>
      match r.lvalue slot with
      | none => if slot.isLocal then some none else none
      | some slot => some (some (.drop kind slot flagIdx))
  | .setDropFlag idx newVal other => do
    let idx ← r.flag idx
    match other with
    | none => return some (.setDropFlag idx newVal none)
    | some other => return some (.setDropFlag idx newVal (some (← r.flag other)))
  | .scopeEnd slots =>
    let slots := slots.filterMap r.local_
    some (if slots.isEmpty then none else some (.scopeEnd slots))
  | st => (st.visit (onLvalues r.lvalue r.lvalue) ()).map fun x => some x.1

def terminator (t : Terminator T P (LValue P)) : Option (Terminator T P (LValue P)) :=
  (t.visit (onLvalues r.lvalue r.lvalue) ()).bind fun x => x.1.mapTargetsM r.block

def code (dropFlags : List Bool) (code : BasicBlock T P (LValue P)) :
    Option (BasicBlock T P (LValue P)) := do
  let statements ← code.statements.mapM (r.statement dropFlags)
  return ⟨statements.reduceOption, ← r.terminator code.terminator⟩

end Renaming

/-- The second function is what is kept of the first one, under the new numbers. -/
structure Isomorphic (r : Renaming) (f f' : Function T P (LValue P)) : Prop where
  locals : Renumbers (· = ·) f.Uses r.local_ f.locals f'.locals
  flags : Renumbers (· = ·) f.SetsFlag r.flag f.dropFlags f'.dropFlags
  blocks : Renumbers (fun c c' => r.code f.dropFlags c = some c') (Reached f.blocks) r.block
    f.blocks f'.blocks
  first : r.block 0 = some 0

/-- The renaming that moves what is kept together. -/
noncomputable def compaction (f : Function T P (LValue P)) : Renaming where
  local_ := positions f.Uses f.locals.length
  flag := positions f.SetsFlag f.dropFlags.length
  block := positions (Reached f.blocks) f.blocks.length

/-- What the compaction relies on. -/
structure Compactable (f : Function T P (LValue P)) : Prop where
  /-- An `llvm_asm!` that is just a template has none. -/
  template {bb : BasicBlockId} {code : BasicBlock T P (LValue P)} (hr : Reached f.blocks bb)
    (hc : f.blocks[bb]? = some code) : ∀ tpl, .asm tpl [] [] [] [] ∈ code.statements → tpl = []
  assigned {l : ℕ} (h : f.Uses l) : f.Assigns l
  /-- Locals in borrowed parameters keep their numbers. -/
  borrows {bb : BasicBlockId} {code : BasicBlock T P (LValue P)} (hr : Reached f.blocks bb)
    (hc : f.blocks[bb]? = some code) : ∀ lv ∈ code.paramBorrows, ∀ l ∈ lv.locals, ∀ j < l, f.Assigns j
  /-- Blocks that a `Panic` goes to keep their numbers. -/
  panics {bb : BasicBlockId} {code : BasicBlock T P (LValue P)} (hr : Reached f.blocks bb)
    (hc : f.blocks[bb]? = some code) {dst : BasicBlockId} (h : code.terminator = .panic dst) :
    ∀ j < dst, Reached f.blocks j

end Mrustc.Mir
