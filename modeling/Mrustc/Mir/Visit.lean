import Mrustc.Mir.Syntax

/-! # Visiting the lvalues of the MIR

`visit_mir_lvalues` lists the lvalues with the way they are used, `visit_mir_lvalues_mut` rewrites them
with a state that the callback passes on. Both skip a borrow that is a parameter, so a visitor says
separately what becomes of one.
-/

namespace Mrustc.Mir

inductive ValUsage
  | move | read | write | borrow
  deriving DecidableEq, Repr

variable {T P L M O σ : Type} {m : Type → Type} [Monad m]

structure Visitor (m : Type → Type) (σ L M : Type) where
  lvalue : σ → L → ValUsage → m (M × σ)
  paramBorrow : σ → L → m (M × σ)

section Lvalues

def Param.lvalues (u : ValUsage) : Param P L → List (L × ValUsage)
  | .lvalue lv => [(lv, u)]
  | _ => []

def Param.borrows : Param P L → List L
  | .borrow _ lv => [lv]
  | _ => []

def RValue.lvalues : RValue T P L → List (L × ValUsage)
  | .use lv => [(lv, .move)]
  | .borrow _ lv => [(lv, .borrow)]
  | .constant _ => []
  | .sizedArray val _ => val.lvalues .read
  | .cast lv _ => [(lv, .read)]
  | .binOp l _ r => l.lvalues .read ++ r.lvalues .read
  | .uniOp lv _ => [(lv, .read)]
  | .dstMeta lv => [(lv, .read)]
  | .dstPtr lv => [(lv, .read)]
  | .makeDst ptrVal metaVal => ptrVal.lvalues .move ++ metaVal.lvalues .read
  | .tuple vals => vals.flatMap (Param.lvalues .move)
  | .array vals => vals.flatMap (Param.lvalues .move)
  | .unionVariant _ _ val => val.lvalues .move
  | .enumVariant _ _ vals => vals.flatMap (Param.lvalues .move)
  | .struct_ _ vals => vals.flatMap (Param.lvalues .move)

def RValue.paramBorrows : RValue T P L → List L
  | .sizedArray val _ => val.borrows
  | .binOp l _ r => l.borrows ++ r.borrows
  | .makeDst ptrVal metaVal => ptrVal.borrows ++ metaVal.borrows
  | .tuple vals => vals.flatMap Param.borrows
  | .array vals => vals.flatMap Param.borrows
  | .unionVariant _ _ val => val.borrows
  | .enumVariant _ _ vals => vals.flatMap Param.borrows
  | .struct_ _ vals => vals.flatMap Param.borrows
  | _ => []

def AsmParam.lvalues : AsmParam P L L → List (L × ValUsage)
  | .reg _ _ input output => (input.elim [] (Param.lvalues .read)) ++ output.elim [] fun lv => [(lv, .write)]
  | _ => []

def AsmParam.borrows : AsmParam P L O → List L
  | .reg _ _ (some input) _ => input.borrows
  | _ => []

def Statement.lvalues : Statement T P L → List (L × ValUsage)
  | .assign dst src => src.lvalues ++ [(dst, .write)]
  | .asm _ outputs inputs _ _ => inputs.map (fun v => (v.2, .read)) ++ outputs.map fun v => (v.2, .write)
  | .asm2 _ _ params => params.flatMap AsmParam.lvalues
  | .setDropFlag _ _ _ => []
  | .drop _ slot _ => [(slot, .write)]
  | .scopeEnd _ => []

def Statement.paramBorrows : Statement T P L → List L
  | .assign _ src => src.paramBorrows
  | .asm2 _ _ params => params.flatMap AsmParam.borrows
  | _ => []

/-- All lvalues of the statement. -/
def Statement.mentioned (st : Statement T P L) : List L := st.lvalues.map Prod.fst ++ st.paramBorrows

def CallTarget.lvalues : CallTarget T P L → List (L × ValUsage)
  | .value lv => [(lv, .read)]
  | _ => []

def Terminator.lvalues : Terminator T P L → List (L × ValUsage)
  | .if_ cond _ _ => [(cond, .read)]
  | .switch val _ => [(val, .read)]
  | .switchValue val _ _ _ => [(val, .read)]
  | .call _ _ retVal fcn args =>
    fcn.lvalues ++ args.flatMap (Param.lvalues .move) ++ [(retVal, .write)]
  | _ => []

def Terminator.paramBorrows : Terminator T P L → List L
  | .call _ _ _ _ args => args.flatMap Param.borrows
  | _ => []

def Terminator.mentioned (t : Terminator T P L) : List L := t.lvalues.map Prod.fst ++ t.paramBorrows

end Lvalues

section Visit

variable (v : Visitor m σ L M)

def Param.visit (u : ValUsage) (s : σ) : Param P L → m (Param P M × σ)
  | .lvalue lv => do
    let (lv, s) ← v.lvalue s lv u
    return (.lvalue lv, s)
  | .borrow type lv => do
    let (lv, s) ← v.paramBorrow s lv
    return (.borrow type lv, s)
  | .constant c => return (.constant c, s)

def visitParams (u : ValUsage) (s : σ) : List (Param P L) → m (List (Param P M) × σ)
  | [] => return ([], s)
  | p :: ps => do
    let (p, s) ← p.visit v u s
    let (ps, s) ← visitParams u s ps
    return (p :: ps, s)

def RValue.visit (s : σ) : RValue T P L → m (RValue T P M × σ)
  | .use lv => do
    let (lv, s) ← v.lvalue s lv .move
    return (.use lv, s)
  | .constant c => return (.constant c, s)
  | .sizedArray val count => do
    let (val, s) ← val.visit v .read s
    return (.sizedArray val count, s)
  | .borrow type lv => do
    let (lv, s) ← v.lvalue s lv .borrow
    return (.borrow type lv, s)
  | .cast lv type => do
    let (lv, s) ← v.lvalue s lv .read
    return (.cast lv type, s)
  | .binOp l op r => do
    let (l, s) ← l.visit v .read s
    let (r, s) ← r.visit v .read s
    return (.binOp l op r, s)
  | .uniOp lv op => do
    let (lv, s) ← v.lvalue s lv .read
    return (.uniOp lv op, s)
  | .dstMeta lv => do
    let (lv, s) ← v.lvalue s lv .read
    return (.dstMeta lv, s)
  | .dstPtr lv => do
    let (lv, s) ← v.lvalue s lv .read
    return (.dstPtr lv, s)
  | .makeDst ptrVal metaVal => do
    let (ptrVal, s) ← ptrVal.visit v .move s
    let (metaVal, s) ← metaVal.visit v .read s
    return (.makeDst ptrVal metaVal, s)
  | .tuple vals => do
    let (vals, s) ← visitParams v .move s vals
    return (.tuple vals, s)
  | .array vals => do
    let (vals, s) ← visitParams v .move s vals
    return (.array vals, s)
  | .unionVariant path index val => do
    let (val, s) ← val.visit v .move s
    return (.unionVariant path index val, s)
  | .enumVariant path index vals => do
    let (vals, s) ← visitParams v .move s vals
    return (.enumVariant path index vals, s)
  | .struct_ path vals => do
    let (vals, s) ← visitParams v .move s vals
    return (.struct_ path vals, s)

/-- The named operands of `llvm_asm!`. -/
def visitNamed (u : ValUsage) (s : σ) : List (Hir.RcString × L) → m (List (Hir.RcString × M) × σ)
  | [] => return ([], s)
  | (name, lv) :: rest => do
    let (lv, s) ← v.lvalue s lv u
    let (rest, s) ← visitNamed u s rest
    return ((name, lv) :: rest, s)

def CallTarget.visit (s : σ) : CallTarget T P L → m (CallTarget T P M × σ)
  | .value lv => do
    let (lv, s) ← v.lvalue s lv .read
    return (.value lv, s)
  | .path p => return (.path p, s)
  | .intrinsic name params => return (.intrinsic name params, s)

end Visit

section Rewrite

variable (v : Visitor m σ L L)

def AsmParam.visit (s : σ) : AsmParam P L L → m (AsmParam P L L × σ)
  | .const c => return (.const c, s)
  | .sym p => return (.sym p, s)
  | .reg dir spec input output => do
    let (input, s) ← match input with
      | none => pure (none, s)
      | some p => do
        let (p, s) ← p.visit v .read s
        pure (some p, s)
    let (output, s) ← match output with
      | none => pure (none, s)
      | some lv => do
        let (lv, s) ← v.lvalue s lv .write
        pure (some lv, s)
    return (.reg dir spec input output, s)

def visitAsmParams (s : σ) : List (AsmParam P L L) → m (List (AsmParam P L L) × σ)
  | [] => return ([], s)
  | p :: ps => do
    let (p, s) ← p.visit v s
    let (ps, s) ← visitAsmParams s ps
    return (p :: ps, s)

def Statement.visit (s : σ) : Statement T P L → m (Statement T P L × σ)
  | .assign dst src => do
    let (src, s) ← src.visit v s
    let (dst, s) ← v.lvalue s dst .write
    return (.assign dst src, s)
  | .asm tpl outputs inputs clobbers flags => do
    let (inputs, s) ← visitNamed v .read s inputs
    let (outputs, s) ← visitNamed v .write s outputs
    return (.asm tpl outputs inputs clobbers flags, s)
  | .asm2 options lines params => do
    let (params, s) ← visitAsmParams v s params
    return (.asm2 options lines params, s)
  | .setDropFlag idx newVal other => return (.setDropFlag idx newVal other, s)
  | .drop kind slot flagIdx => do
    let (slot, s) ← v.lvalue s slot .write
    return (.drop kind slot flagIdx, s)
  | .scopeEnd slots => return (.scopeEnd slots, s)

def Terminator.visit (s : σ) : Terminator T P L → m (Terminator T P L × σ)
  | .if_ cond bbTrue bbFalse => do
    let (cond, s) ← v.lvalue s cond .read
    return (.if_ cond bbTrue bbFalse, s)
  | .switch val targets => do
    let (val, s) ← v.lvalue s val .read
    return (.switch val targets, s)
  | .switchValue val defTarget targets values => do
    let (val, s) ← v.lvalue s val .read
    return (.switchValue val defTarget targets values, s)
  | .call retBlock panicBlock retVal fcn args => do
    let (fcn, s) ← fcn.visit v s
    let (args, s) ← visitParams v .move s args
    let (retVal, s) ← v.lvalue s retVal .write
    return (.call retBlock panicBlock retVal fcn args, s)
  | .incomplete => return (.incomplete, s)
  | .return_ => return (.return_, s)
  | .diverge => return (.diverge, s)
  | .goto bb => return (.goto bb, s)
  | .panic dst => return (.panic dst, s)

end Rewrite

end Mrustc.Mir
