import Mrustc.Mir.Visit
import Mathlib.Data.List.Sort

/-! # Copy forwarding within a block

The last part of `MIR_Optimise_DeTemporary`. It records `Local(N) = Use(src)` and puts `src` in the place
of later uses of the local, until one of the two changes.
-/

namespace Mrustc.Mir

variable {T P : Type} [DecidableEq P]

/-- The variables of the pass over a block: the statements up to the present one, the recorded
assignments by local, the assignments to be removed, and which assignment was put in place at which
statement (this is only written to the debug log). -/
structure Forwarding (T P : Type) where
  statements : List (Statement T P (LValue P))
  localAssignments : ℕ → Option ℕ
  statementsToRemove : List ℕ
  replaced : List (ℕ × ℕ)

namespace Forwarding

def new : Forwarding T P := ⟨[], fun _ => none, [], []⟩

/-- The recorded source of the assignment at `i`. -/
def source (s : Forwarding T P) (i : ℕ) : Option (LValue P) :=
  match s.statements[i]? with
  | some (.assign _ (.use src)) => some src
  | _ => none

/-- Whether a use of `lv` ends the record of the local `n`, assigned from `src`. -/
def invalidates (n : ℕ) (src lv : LValue P) (vu : ValUsage) : Bool :=
  if lv.root = .local_ n then
    match vu with
    | .borrow | .write => true
    | _ => false
  else
    match vu with
    | .borrow | .write | .move => decide (src.root = lv.root)
    | .read => false

/-- `cb_check_invalidate` -/
def checkInvalidate (s : Forwarding T P) (lv : LValue P) (vu : ValUsage) : Forwarding T P :=
  { s with localAssignments := fun n => (s.localAssignments n).filter fun i =>
      !(s.source i).any fun src => invalidates n src lv vu }

def erase (s : Forwarding T P) (n : ℕ) : Forwarding T P :=
  { s with localAssignments := Function.update s.localAssignments n none }

def logReplaced (s : Forwarding T P) (i : ℕ) : Forwarding T P :=
  { s with replaced := s.replaced ++ [(i, s.statements.length)] }

/-- `cb_apply_replacements` -/
def applyReplacements (isCopy : LValue P → Bool) (s : Forwarding T P) (lv : LValue P) (usage : ValUsage) :
    LValue P × Forwarding T P :=
  match lv.root with
  | .local_ n =>
    match s.localAssignments n with
    | none => (lv, s)
    | some i =>
      match s.source i with
      | none => (lv, s)
      | some newVal =>
        if isCopy (.newLocal n) then
          (newVal.cloneWrapped lv.wrappers, s.logReplaced i)
        else if lv.wrappers.isEmpty ∧ usage = .move then
          (newVal, { (s.logReplaced i).erase n with
            statementsToRemove := s.statementsToRemove ++ [i] })
        else (lv, s.erase n)
  | _ => (lv, s)

def replacer (isCopy : LValue P → Bool) : Visitor Id (Forwarding T P) (LValue P) (LValue P) where
  lvalue := applyReplacements isCopy
  paramBorrow s lv := (lv, s)

/-- `std::map::insert`, which keeps what is there. -/
def insert (s : Forwarding T P) (n i : ℕ) : Forwarding T P :=
  { s with localAssignments :=
      Function.update s.localAssignments n (some ((s.localAssignments n).getD i)) }

/-- Records the assignment `n = Use(src)`, which was put last. -/
def record (s : Forwarding T P) : Statement T P (LValue P) → Forwarding T P
  | .assign ⟨.local_ n, []⟩ (.use src) =>
    if src.root = .local_ n ∨ n ∈ src.indexLocals then s
    else if src.hasDeref then s
    else s.insert n (s.statements.length - 1)
  | _ => s

def push (s : Forwarding T P) (st : Statement T P (LValue P)) : Forwarding T P :=
  { s with statements := s.statements ++ [st] }

def checkAll (s : Forwarding T P) (lvs : List (LValue P × ValUsage)) : Forwarding T P :=
  lvs.foldl (fun s x => s.checkInvalidate x.1 x.2) s

def statement (isCopy : LValue P → Bool) (s : Forwarding T P) (st : Statement T P (LValue P)) :
    Forwarding T P :=
  let (st, s) := st.visit (replacer isCopy) (s.checkAll st.lvalues)
  (s.push st).record st

def terminator (isCopy : LValue P → Bool) (s : Forwarding T P) (t : Terminator T P (LValue P)) :
    Terminator T P (LValue P) × Forwarding T P :=
  let s := s.checkAll t.lvalues
  match t with
  | .switch _ _ => (t, s)
  | _ => t.visit (replacer isCopy) s

end Forwarding

/-- Erases the elements at the given indices, the last one first. -/
def eraseIndices {α : Type} (xs : List α) (is : List ℕ) : List α :=
  (is.insertionSort (· ≤ ·)).reverse.foldl List.eraseIdx xs

/-- The variables of the pass at the end of the block, and the terminator. -/
def forwarded (isCopy : LValue P → Bool) (bb : BasicBlock T P (LValue P)) :
    Terminator T P (LValue P) × Forwarding T P :=
  (bb.statements.foldl (Forwarding.statement isCopy) Forwarding.new).terminator isCopy bb.terminator

/-- The copy forwarding of `MIR_Optimise_DeTemporary` on one block. -/
def deTemporary (isCopy : LValue P → Bool) (bb : BasicBlock T P (LValue P)) :
    BasicBlock T P (LValue P) :=
  let (t, s) := forwarded isCopy bb
  ⟨eraseIndices s.statements s.statementsToRemove, t⟩

/-- Whether the pass reports a change. -/
def deTemporaryChanged (isCopy : LValue P → Bool) (bb : BasicBlock T P (LValue P)) : Bool :=
  !(forwarded isCopy bb).2.replaced.isEmpty

example : deTemporary (T := Unit) (P := Unit) (fun _ => true)
    ⟨[.assign (.newLocal 0) (.use ⟨.argument 0, [.field 1]⟩),
      .assign ⟨.return_, []⟩ (.tuple [.lvalue (.newLocal 0)])], .return_⟩ =
    ⟨[.assign (.newLocal 0) (.use ⟨.argument 0, [.field 1]⟩),
      .assign ⟨.return_, []⟩ (.tuple [.lvalue ⟨.argument 0, [.field 1]⟩])], .return_⟩ := by decide

end Mrustc.Mir
