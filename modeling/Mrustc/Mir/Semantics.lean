import Mrustc.Memory.Contents
import Mrustc.Mir.Visit

/-! # What the MIR means

A frame gives every slot of the function a base in memory. What values are, how rvalues are computed,
what dropping a value runs and what inline assembly does are parameters. A run gets stuck where it
reads a value that is not initialised; moving and dropping leave a place without one.
-/

namespace Mrustc.Mir

open Hir (RcString)
open Memory

/-- The parts of the meaning that the passes do not depend on. -/
structure Interp (T P B K π E : Type) [Contents K π] where
  field : ℕ → π
  downcast : ℕ → π
  index : ℕ → π
  asPlace : K → Option (Place B π)
  address : Place B π → K
  asIndex : K → Option ℕ
  rvalue : RValue T P K → Option K
  drop : DropKind → Place B π → Action B K E
  asm : RcString → List (RcString × K) → List RcString → List RcString → List RcString →
    Action B K (E × List K)
  asm2 : List RcString → List RcString → List (AsmParam P K Unit) → Action B K (E × List K)

/-- Where the slots of the function are, and what their types are. -/
structure Frame (T P B : Type) where
  base : Storage P → B
  base_injective : Function.Injective base
  rootType : Storage P → T
  unwrapType : T → Wrapper → Option T
  typeIsCopy : T → Bool
  typeIsCopy_unwrap {t t' : T} {w : Wrapper} (ht : typeIsCopy t = true) (hw : w ≠ .deref)
    (h : unwrapType t w = some t') : typeIsCopy t' = true

structure State (B K : Type) where
  mem : B → K
  flags : ℕ → Bool

inductive Event (T P B K π E : Type)
  | assign (dst : Place B π) (src : RValue T P K) (value : K)
  | asm (inputs : List (RcString × K)) (outputs : List (Place B π × K)) (effect : E)
  | asm2 (inputs : List (AsmParam P K Unit)) (outputs : List (Place B π × K)) (effect : E)
  | drop (kind : DropKind) (slot : Place B π) (effect : E)
  | silent
  deriving DecidableEq

/-- How control leaves a block, with the values that the terminator reads. -/
inductive Exit (T P B K π : Type)
  | incomplete
  | return_
  | diverge
  | goto (bb : BasicBlockId)
  | panic (dst : BasicBlockId)
  | if_ (cond : K) (bbTrue bbFalse : BasicBlockId)
  | switch (val : K) (targets : List BasicBlockId)
  | switchValue (val : K) (defTarget : BasicBlockId) (targets : List BasicBlockId) (values : SwitchValues)
  | call (retBlock panicBlock : BasicBlockId) (retVal : Place B π) (fcn : CallTarget T P K)
    (args : List (Param P K))
  deriving DecidableEq

variable {T P B K π E : Type} [DecidableEq B] [Contents K π]

namespace Frame

variable (F : Frame T P B)

/-- `get_lvalue_type` -/
def lvalueType (lv : LValue P) : Option T := lv.wrappers.foldlM F.unwrapType (F.rootType lv.root)

/-- `lvalue_is_copy` -/
def lvalueIsCopy (lv : LValue P) : Bool := (F.lvalueType lv).any F.typeIsCopy

end Frame

namespace Interp

variable (I : Interp T P B K π E) (F : Frame T P B)

/-- The place that a wrapper makes of a place. -/
def unwrap (m : B → K) (pl : Place B π) : Wrapper → Option (Place B π)
  | .deref => (load m pl).bind I.asPlace
  | .field i => some (pl.push (I.field i))
  | .downcast i => some (pl.push (I.downcast i))
  | .index l => ((load m ⟨F.base (.local_ l), []⟩).bind I.asIndex).map fun i => pl.push (I.index i)

def unwraps (m : B → K) : List Wrapper → Place B π → Option (Place B π)
  | [], pl => some pl
  | w :: ws, pl => (I.unwrap F m pl w).bind (unwraps m ws)

/-- The place of an lvalue. -/
def place (m : B → K) (lv : LValue P) : Option (Place B π) :=
  I.unwraps F m lv.wrappers ⟨F.base lv.root, []⟩

/-- The value of an operand: what is stored there, or the address where it is borrowed. -/
def operand (m : B → K) (lv : LValue P) : ValUsage → Option (K × (B → K))
  | .move => do
    let pl ← I.place F m lv
    let v ← load m pl
    return (v, if F.lvalueIsCopy lv then m else vacate m pl)
  | .read => do
    let pl ← I.place F m lv
    let v ← load m pl
    return (v, m)
  | .borrow => do
    let pl ← I.place F m lv
    return (I.address pl, m)
  | .write => none

def operands : Visitor Option (B → K) (LValue P) K where
  lvalue m lv u := I.operand F m lv u
  paramBorrow m lv := I.operand F m lv .borrow

def compute : RValue T P K → Option K
  | .use v => some v
  | rv => I.rvalue rv

def storeAll (m : B → K) : List (Place B π) → List K → Option (B → K)
  | [], [] => some m
  | pl :: pls, v :: vs => storeAll (store m pl v) pls vs
  | _, _ => none

/-- The inputs of `asm!`. They are only read. -/
def asmInput (m : B → K) : AsmParam P (LValue P) (LValue P) → Option (AsmParam P K Unit)
  | .const c => some (.const c)
  | .sym p => some (.sym p)
  | .reg dir spec none output => some (.reg dir spec none (output.map fun _ => ()))
  | .reg dir spec (some input) output => do
    let (input, _) ← input.visit (I.operands F) .read m
    return .reg dir spec (some input) (output.map fun _ => ())

def asmOutput : AsmParam P (LValue P) (LValue P) → Option (LValue P)
  | .reg _ _ _ output => output
  | _ => none

def step (s : State B K) : Statement T P (LValue P) → Option (Event T P B K π E × State B K)
  | .assign dst src => do
    let (rv, m) ← src.visit (I.operands F) s.mem
    let v ← I.compute rv
    let pl ← I.place F m dst
    return (.assign pl rv v, { s with mem := store m pl v })
  | .asm tpl outputs inputs clobbers flags => do
    let (ins, m) ← visitNamed (I.operands F) .read s.mem inputs
    let pls ← outputs.mapM fun o => I.place F m o.2
    let ((e, vs), m) ← (I.asm tpl ins (outputs.map Prod.fst) clobbers flags).run m
    let m ← storeAll m pls vs
    return (.asm ins (pls.zip vs) e, { s with mem := m })
  | .asm2 options lines params => do
    let ins ← params.mapM (I.asmInput F s.mem)
    let pls ← (params.filterMap asmOutput).mapM (I.place F s.mem)
    let ((e, vs), m) ← (I.asm2 options lines ins).run s.mem
    let m ← storeAll m pls vs
    return (.asm2 ins (pls.zip vs) e, { s with mem := m })
  | .setDropFlag idx newVal other =>
    let val := match other with
      | none => newVal
      | some o => s.flags o != newVal
    return (.silent, { s with flags := Function.update s.flags idx val })
  | .drop kind slot flagIdx =>
    if flagIdx.elim true s.flags then do
      let pl ← I.place F s.mem slot
      let (e, m) ← (I.drop kind pl).run s.mem
      return (.drop kind pl e, { s with mem := vacate m pl })
    else
      return (.silent, s)
  | .scopeEnd _ => return (.silent, s)

def steps (s : State B K) :
    List (Statement T P (LValue P)) → Option (List (Event T P B K π E) × State B K)
  | [] => some ([], s)
  | st :: sts => do
    let (ev, s) ← I.step F s st
    let (evs, s) ← steps s sts
    return (ev :: evs, s)

def leave (s : State B K) : Terminator T P (LValue P) → Option (Exit T P B K π × State B K)
  | .incomplete => return (.incomplete, s)
  | .return_ => return (.return_, s)
  | .diverge => return (.diverge, s)
  | .goto bb => return (.goto bb, s)
  | .panic dst => return (.panic dst, s)
  | .if_ cond bbTrue bbFalse => do
    let (cond, _) ← I.operand F s.mem cond .read
    return (.if_ cond bbTrue bbFalse, s)
  | .switch val targets => do
    let (val, _) ← I.operand F s.mem val .read
    return (.switch val targets, s)
  | .switchValue val defTarget targets values => do
    let (val, _) ← I.operand F s.mem val .read
    return (.switchValue val defTarget targets values, s)
  | .call retBlock panicBlock retVal fcn args => do
    let (fcn, m) ← fcn.visit (I.operands F) s.mem
    let (args, m) ← visitParams (I.operands F) .move m args
    let pl ← I.place F m retVal
    return (.call retBlock panicBlock pl fcn args, { s with mem := m })

/-- A block runs its statements and leaves through its terminator. -/
def block (s : State B K) (bb : BasicBlock T P (LValue P)) :
    Option (List (Event T P B K π E) × Exit T P B K π × State B K) := do
  let (evs, s) ← I.steps F s bb.statements
  let (exit, s) ← I.leave F s bb.terminator
  return (evs, exit, s)

end Interp

end Mrustc.Mir
