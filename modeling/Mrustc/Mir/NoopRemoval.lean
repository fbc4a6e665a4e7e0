import Mrustc.Mir.Invalidation

/-! # Removing statements that do nothing

`MIR_Optimise_NoopRemoval` on one block. A cast back of a reborrow or of a pointer cast becomes a use of the
original, then statements that leave everything as it is are erased.
-/

namespace Mrustc.Mir

variable {T P : Type}

namespace NoopRemoval

variable [DecidableEq T] [DecidableEq P] (lvalueType : LValue P → Option T) (isPointer : T → Bool)
  (lvalueIsCopy : LValue P → Bool)

/-- The local that the statement makes a pointer, and the lvalue it is made from. -/
def pointed : Statement T P (LValue P) → Option (LValue P × LValue P)
  | .assign dst (.borrow _ val) =>
    if dst.isLocal ∧ val.isDeref then some (dst, val.cloneUnwrapped) else none
  | .assign dst (.cast val type) => if dst.isLocal ∧ isPointer type then some (dst, val) else none
  | _ => none

/-- Whether the statement casts `dst` back to the type of `src`. -/
def castsBack (dst src : LValue P) : Statement T P (LValue P) → Bool
  | .assign _ (.cast val type) => decide (val = dst) && decide (lvalueType src = some type)
  | _ => false

def useOf (src : LValue P) : Statement T P (LValue P) → Statement T P (LValue P)
  | .assign dst _ => .assign dst (.use src)
  | st => st

/-- The loop over the following statements. It gives nothing where there is no cast back before the
lvalue is invalidated. -/
def replaceCast (dst src : LValue P) :
    List (Statement T P (LValue P)) → Option (List (Statement T P (LValue P)))
  | [] => none
  | st :: sts =>
    if castsBack lvalueType dst src st then some (useOf src st :: sts)
    else if st.invalidates src false then none
    else (replaceCast dst src sts).map (st :: ·)

/-- The statements behind `st`, after the search that starts there. -/
def replaced (st : Statement T P (LValue P)) (sts : List (Statement T P (LValue P))) :
    List (Statement T P (LValue P)) :=
  match pointed isPointer st with
  | none => sts
  | some (dst, src) => (replaceCast lvalueType dst src sts).getD sts

/-- Multi-statement no-ops, looked for from each of the next `n` statements on. -/
def replaceCasts : ℕ → List (Statement T P (LValue P)) → List (Statement T P (LValue P))
  | n + 1, st :: sts => st :: replaceCasts n (replaced lvalueType isPointer st sts)
  | _, sts => sts

/-- What remains of a statement in the second loop. -/
def simplify : Statement T P (LValue P) → Option (Statement T P (LValue P))
  -- The comparison of `Asm` statements leaves the template out.
  | .asm _ [] [] [] [] => none
  | .assign dst (.use val) => if val = dst then none else some (.assign dst (.use val))
  | .assign dst (.borrow type val) =>
    if val.isDeref ∧ val.cloneUnwrapped = dst then none else some (.assign dst (.borrow type val))
  | .assign dst (.cast val type) =>
    if lvalueType val = some type then some (.assign dst (.use val))
    else some (.assign dst (.cast val type))
  | .drop kind slot flagIdx => if lvalueIsCopy slot then none else some (.drop kind slot flagIdx)
  | st => some st

end NoopRemoval

/-- The statements of the block after the loop over multi-statement no-ops. -/
def BasicBlock.castsReplaced [DecidableEq T] [DecidableEq P] (lvalueType : LValue P → Option T)
    (isPointer : T → Bool) (bb : BasicBlock T P (LValue P)) : List (Statement T P (LValue P)) :=
  NoopRemoval.replaceCasts lvalueType isPointer bb.statements.length bb.statements

/-- `MIR_Optimise_NoopRemoval` on one block. -/
def noopRemoval [DecidableEq T] [DecidableEq P] (lvalueType : LValue P → Option T) (isPointer : T → Bool)
    (lvalueIsCopy : LValue P → Bool) (bb : BasicBlock T P (LValue P)) : BasicBlock T P (LValue P) where
  statements := (bb.castsReplaced lvalueType isPointer).filterMap
    (NoopRemoval.simplify lvalueType lvalueIsCopy)
  terminator := bb.terminator

end Mrustc.Mir
