import Mrustc.Mir.Cfg
import Mrustc.Mir.ConstFold

/-! # Combining identical blocks

`MIR_Optimise_UnifyBlocks` compares blocks field by field. Constants are compared through their order.
-/

namespace Mrustc.Mir

variable {T P : Type}

namespace UnifyBlocks

section Comparisons

/-- `operator==(std::vector)` -/
def vectorEq {α : Type} (eq : α → α → Bool) : List α → List α → Bool
  | [], [] => true
  | a :: as, b :: bs => eq a b && vectorEq eq as bs
  | _, _ => false

variable [Ord P] [DecidableEq P] [DecidableEq T]

/-- `Constant::operator==` -/
def constantEq (a b : Constant P) : Bool := a.ord b == .eq

/-- `Param::operator==` -/
def paramEq : Param P (LValue P) → Param P (LValue P) → Bool
  | .lvalue ea, .lvalue eb => ea = eb
  | .borrow ta va, .borrow tb vb => ta = tb && va = vb
  | .constant ea, .constant eb => constantEq ea eb
  | _, _ => false

/-- `operator==(RValue)` -/
def rvalueEq : RValue T P (LValue P) → RValue T P (LValue P) → Bool
  | .use a, .use b => a = b
  | .constant a, .constant b => constantEq a b
  | .sizedArray va ca, .sizedArray vb cb => paramEq va vb && ca = cb
  | .borrow ta va, .borrow tb vb => ta = tb && va = vb
  | .cast va ta, .cast vb tb => ta = tb && va = vb
  | .binOp la oa ra, .binOp lb ob rb => paramEq la lb && oa = ob && paramEq ra rb
  | .uniOp va oa, .uniOp vb ob => oa = ob && va = vb
  | .dstPtr a, .dstPtr b => a = b
  | .dstMeta a, .dstMeta b => a = b
  | .makeDst pa ma, .makeDst pb mb => paramEq ma mb && paramEq pa pb
  | .tuple as, .tuple bs => vectorEq paramEq as bs
  | .array as, .array bs => vectorEq paramEq as bs
  | .unionVariant pa ia va, .unionVariant pb ib vb => pa = pb && ia = ib && paramEq va vb
  | .enumVariant pa ia as, .enumVariant pb ib bs => pa = pb && ia = ib && vectorEq paramEq as bs
  | .struct_ pa as, .struct_ pb bs => pa = pb && vectorEq paramEq as bs
  | _, _ => false

/-- `std::unique_ptr`s are compared by what they hold. -/
def optionEq {α : Type} (eq : α → α → Bool) : Option α → Option α → Bool
  | none, none => true
  | some a, some b => eq a b
  | _, _ => false

/-- `operator==(AsmParam)` -/
def asmParamEq : AsmParam P (LValue P) (LValue P) → AsmParam P (LValue P) (LValue P) → Bool
  | .const a, .const b => constantEq a b
  | .sym a, .sym b => a = b
  | .reg da sa ia oa, .reg db sb ib ob => da = db && sa = sb && optionEq paramEq ia ib && oa = ob
  | _, _ => false

def statementEq : Statement T P (LValue P) → Statement T P (LValue P) → Bool
  | .assign da sa, .assign db sb => da = db && rvalueEq sa sb
  | .asm ta oa ia ca fa, .asm tb ob ib cb fb => ta = tb && oa = ob && ia = ib && ca = cb && fa = fb
  | .asm2 oa la pa, .asm2 ob lb pb => la = lb && oa = ob && vectorEq asmParamEq pa pb
  | .setDropFlag ia na oa, .setDropFlag ib nb ob => ia = ib && na = nb && oa = ob
  | .drop ka sa fa, .drop kb sb fb => ka = kb && fa = fb && sa = sb
  | .scopeEnd a, .scopeEnd b => a = b
  | _, _ => false

def terminatorEq : Terminator T P (LValue P) → Terminator T P (LValue P) → Bool
  | .incomplete, .incomplete => true
  | .return_, .return_ => true
  | .diverge, .diverge => true
  | .goto a, .goto b => a = b
  | .panic a, .panic b => a = b
  | .if_ ca ta fa, .if_ cb tb fb => ca = cb && ta = tb && fa = fb
  | .switch va ta, .switch vb tb => va = vb && ta = tb
  | .switchValue va da ta sa, .switchValue vb db tb sb => va = vb && ta = tb && da = db && sa = sb
  | .call ra pa va fa aa, .call rb pb vb fb ab =>
    ra = rb && pa = pb && va = vb && vectorEq paramEq aa ab && fa = fb
  | _, _ => false

/-- `blocks_equal` -/
def blocksEqual (a b : BasicBlock T P (LValue P)) : Bool :=
  vectorEq statementEq a.statements b.statements && terminatorEq a.terminator b.terminator

end Comparisons

variable [Ord P] [DecidableEq P] [DecidableEq T]

/-- `replacements`. A block is `visited` once it has one. -/
abbrev Replacements := BasicBlockId → Option BasicBlockId

/-- Locate the duplicates of a block. -/
def findDuplicates (blocks : Blocks T P) (replacements : Replacements) (bbIdx : ℕ) : Replacements :=
  match blocks[bbIdx]? with
  | none => replacements
  | some block =>
    if block.terminator = .incomplete ∧ block.statements.length = 0 then replacements
    else if (replacements bbIdx).isSome then replacements
    else
      (List.range' (bbIdx + 1) (blocks.length - (bbIdx + 1))).foldl (fun replacements i =>
        if (replacements i).isSome then replacements
        else if blocks[i]?.any (blocksEqual block) then Function.update replacements i (some bbIdx)
        else replacements) replacements

/-- Locate duplicate blocks. -/
def findReplacements (blocks : Blocks T P) : Replacements :=
  (List.range blocks.length).foldl (findDuplicates blocks) fun _ => none

/-- `patch_tgt` -/
def patchTgt (replacements : Replacements) (tgt : BasicBlockId) : BasicBlockId :=
  (replacements tgt).getD tgt

/-- Patch the targets, and clear the blocks that are replaced. -/
def replace (replacements : Replacements) (blocks : Blocks T P) : Blocks T P :=
  blocks.mapIdx fun i block =>
    if (replacements i).isSome then ⟨[], .incomplete⟩
    else { block with terminator := block.terminator.mapTargets (patchTgt replacements) }

end UnifyBlocks

open UnifyBlocks

/-- `MIR_Optimise_UnifyBlocks` -/
def unifyBlocks [Ord P] [DecidableEq P] [DecidableEq T] (fcn : Function T P (LValue P)) :
    Function T P (LValue P) :=
  { fcn with blocks := replace (findReplacements fcn.blocks) fcn.blocks }

end Mrustc.Mir
