import Mrustc.Mir.Visit

/-! # What invalidates an lvalue

`check_invalidates_lvalue` looks at the lvalues of a statement. It knows nothing of where pointers lead.
-/

namespace Mrustc.Mir

variable {T P : Type} [DecidableEq P]

/-- `check_invalidates_lvalue_cb` -/
def LValue.invalidatedBy (val : LValue P) (isCopy alsoRead : Bool) (lv : LValue P) : ValUsage → Bool
  | .write | .borrow =>
    decide (lv.root = val.root) ||
      match lv.root with
      | .local_ n => decide (n ∈ val.indexLocals)
      | _ => false
  | .move =>
    !isCopy && decide (lv.root = val.root) && (lv.wrappers.zip val.wrappers).all fun w => w.1 = w.2
  | .read => alsoRead && decide (lv.root = val.root)

/-- `check_invalidates_lvalue` -/
def Statement.invalidates (st : Statement T P (LValue P)) (val : LValue P) (isCopy : Bool)
    (alsoRead : Bool := false) : Bool :=
  st.lvalues.any fun x => val.invalidatedBy isCopy alsoRead x.1 x.2

variable {st : Statement T P (LValue P)} {val lv : LValue P} {isCopy alsoRead : Bool}

/-- What is written to without invalidating an lvalue is in another slot than the lvalue and than its
indices. -/
theorem LValue.root_ne_of_not_invalidated {lvs : List (LValue P × ValUsage)}
    (h : (lvs.any fun x => val.invalidatedBy isCopy alsoRead x.1 x.2) = false) (hlv : (lv, .write) ∈ lvs) :
    lv.root ≠ val.root ∧ ∀ n ∈ val.indexLocals, lv.root ≠ .local_ n := by
  have hw := List.any_eq_false.mp h _ hlv
  simp only [LValue.invalidatedBy, Bool.or_eq_true, decide_eq_true_eq, not_or] at hw
  refine ⟨hw.1, fun n hn hroot => ?_⟩
  rw [hroot] at hw
  exact hw.2 (by simpa using hn)

theorem Statement.root_ne_of_not_invalidates (h : st.invalidates val isCopy alsoRead = false)
    (hlv : (lv, .write) ∈ st.lvalues) :
    lv.root ≠ val.root ∧ ∀ n ∈ val.indexLocals, lv.root ≠ .local_ n :=
  LValue.root_ne_of_not_invalidated h hlv

end Mrustc.Mir
