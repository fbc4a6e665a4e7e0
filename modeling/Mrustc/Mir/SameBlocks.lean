import Mrustc.Mir.UnifyBlocks

/-! # What the comparison of blocks sees

Blocks that compare equal differ in their constants only, and there only in the sign of a zero. A constant
that is not a number makes a block differ from any other.
-/

namespace Mrustc.Mir

open UnifyBlocks Int128

variable {T P L : Type}

namespace Double

def posZero (v : UInt64) : UInt64 := if v = 0x8000000000000000 then 0 else v

theorem toNat_magnitude (v : UInt64) : (v &&& 0x7FFFFFFFFFFFFFFF).toNat = v.toNat % 2 ^ 63 := by
  rw [UInt64.toNat_and, show (0x7FFFFFFFFFFFFFFF : UInt64).toNat = 2 ^ 63 - 1 from rfl,
    Nat.and_two_pow_sub_one_eq_mod]

theorem sign_eq_zero (v : UInt64) : v &&& 0x8000000000000000 = 0 ↔ v.toNat < 2 ^ 63 := by
  rw [← UInt64.toNat_inj, UInt64.toNat_and, show (0x8000000000000000 : UInt64).toNat = 2 ^ 63 from rfl,
    UInt64.toNat_zero]
  have hv := v.toNat_lt
  constructor
  · intro h
    have hbit : (v.toNat &&& 2 ^ 63).testBit 63 = Nat.testBit 0 63 := by rw [h]
    rw [Nat.testBit_and, Nat.testBit_two_pow_self, Bool.and_true, Nat.zero_testBit,
      Nat.testBit_eq_decide_div_mod_eq, decide_eq_false_iff_not] at hbit
    omega
  · intro h
    apply Nat.eq_of_testBit_eq
    intro i
    rw [Nat.testBit_and, Nat.testBit_two_pow, Nat.zero_testBit]
    by_cases hi : 63 = i
    · rw [← hi, Nat.testBit_lt_two_pow h, Bool.false_and]
    · rw [decide_eq_false hi, Bool.and_false]

theorem key_eq (v : UInt64) : key v = if v.toNat < 2 ^ 63 then (v.toNat : ℤ) else 2 ^ 63 - v.toNat := by
  have hv := v.toNat_lt
  simp only [key, sign_eq_zero, toNat_magnitude]
  split_ifs <;> omega

theorem isNan_eq (v : UInt64) : isNan v = decide (v.toNat % 2 ^ 63 > 0x7FF0000000000000) := by
  simp only [isNan, gt_iff_lt, UInt64.lt_iff_toNat_lt, toNat_magnitude]
  rfl

theorem toNat_posZero (v : UInt64) : (posZero v).toNat = if v.toNat = 2 ^ 63 then 0 else v.toNat := by
  simp only [posZero, ← UInt64.toNat_inj]
  split_ifs <;> simp_all

/-- Doubles are equal when they are the same number, or zeros. -/
theorem eq_iff (v w : UInt64) : eq v w = true ↔ isNan v = false ∧ posZero v = posZero w := by
  rw [← UInt64.toNat_inj, toNat_posZero, toNat_posZero, eq]
  simp only [Bool.and_eq_true, Bool.not_eq_true', decide_eq_true_eq, isNan_eq, key_eq,
    decide_eq_false_iff_not, not_lt, gt_iff_lt]
  have hv := v.toNat_lt
  have hw := w.toNat_lt
  split_ifs <;> omega

end Double

theorem compare_ctorIdx (t u : Hir.CoreType) : compare t.ctorIdx u.ctorIdx = .eq ↔ t = u := by
  rw [compare_eq_iff_eq]
  constructor
  · intro h
    rw [← Hir.CoreType.ofNat_ctorIdx t, h, Hir.CoreType.ofNat_ctorIdx]
  · exact congrArg _

theorem toInt_inj {v w : S128} : v.toInt = w.toInt ↔ v = w := by
  constructor
  · intro h
    rw [← S128.ofInt_toInt v, h, S128.ofInt_toInt]
  · exact congrArg _

theorem cmp_eq_eq {v w : S128} : v.cmp w = .eq ↔ v = w := by
  obtain ⟨⟨hi, lo⟩⟩ := v
  obtain ⟨⟨hi', lo'⟩⟩ := w
  simp only [S128.cmp, S128.mk.injEq, U128.mk.injEq]
  split_ifs <;> simp_all

theorem ord_eq_eq {v o : Ordering} : (if v ≠ .eq then v else o) = .eq ↔ v = .eq ∧ o = .eq := by
  by_cases h : v = .eq
  · rw [if_neg (not_not_intro h)]
    exact (and_iff_right h).symm
  · rw [if_pos h]
    exact ⟨fun h' => absurd h' h, fun h' => absurd h'.1 h⟩

namespace Constant

/-- A constant of 128 bits without the sign of a zero. -/
def unsigned : Constant P → Constant P
  | .int v t => .int (S128.ofInt v).toInt t
  | .uint v t => .uint (U128.ofNat v).toNat t
  | .float v t => .float (Double.posZero v) t
  | c => c

def isNan : Constant P → Bool
  | .float v _ => Double.isNan v
  | _ => false

end Constant

section Constants

def Param.constants : Param P L → List (Constant P)
  | .constant c => [c]
  | _ => []

def RValue.constants : RValue T P L → List (Constant P)
  | .constant c => [c]
  | .sizedArray val _ => val.constants
  | .binOp l _ r => l.constants ++ r.constants
  | .makeDst ptrVal metaVal => ptrVal.constants ++ metaVal.constants
  | .tuple vals => vals.flatMap Param.constants
  | .array vals => vals.flatMap Param.constants
  | .unionVariant _ _ val => val.constants
  | .enumVariant _ _ vals => vals.flatMap Param.constants
  | .struct_ _ vals => vals.flatMap Param.constants
  | _ => []

def AsmParam.constants : AsmParam P L L → List (Constant P)
  | .const c => [c]
  | .reg _ _ input _ => input.elim [] Param.constants
  | _ => []

def Statement.constants : Statement T P L → List (Constant P)
  | .assign _ src => src.constants
  | .asm2 _ _ params => params.flatMap AsmParam.constants
  | _ => []

def Terminator.constants : Terminator T P L → List (Constant P)
  | .call _ _ _ _ args => args.flatMap Param.constants
  | _ => []

def BasicBlock.constants (b : BasicBlock T P L) : List (Constant P) :=
  b.statements.flatMap Statement.constants ++ b.terminator.constants

variable (f : Constant P → Constant P)

def Param.mapConstants : Param P L → Param P L
  | .constant c => .constant (f c)
  | p => p

def RValue.mapConstants : RValue T P L → RValue T P L
  | .constant c => .constant (f c)
  | .sizedArray val count => .sizedArray (val.mapConstants f) count
  | .binOp l op r => .binOp (l.mapConstants f) op (r.mapConstants f)
  | .makeDst ptrVal metaVal => .makeDst (ptrVal.mapConstants f) (metaVal.mapConstants f)
  | .tuple vals => .tuple (vals.map (Param.mapConstants f))
  | .array vals => .array (vals.map (Param.mapConstants f))
  | .unionVariant path index val => .unionVariant path index (val.mapConstants f)
  | .enumVariant path index vals => .enumVariant path index (vals.map (Param.mapConstants f))
  | .struct_ path vals => .struct_ path (vals.map (Param.mapConstants f))
  | rv => rv

def AsmParam.mapConstants : AsmParam P L L → AsmParam P L L
  | .const c => .const (f c)
  | .reg dir spec input output => .reg dir spec (input.map (Param.mapConstants f)) output
  | p => p

def Statement.mapConstants : Statement T P L → Statement T P L
  | .assign dst src => .assign dst (src.mapConstants f)
  | .asm2 options lines params => .asm2 options lines (params.map (AsmParam.mapConstants f))
  | st => st

def Terminator.mapConstants : Terminator T P L → Terminator T P L
  | .call retBlock panicBlock retVal fcn args =>
    .call retBlock panicBlock retVal fcn (args.map (Param.mapConstants f))
  | t => t

def BasicBlock.mapConstants (b : BasicBlock T P L) : BasicBlock T P L :=
  ⟨b.statements.map (Statement.mapConstants f), b.terminator.mapConstants f⟩

end Constants

def NoNan (cs : List (Constant P)) : Prop := ∀ c ∈ cs, c.isNan = false

@[simp] theorem noNan_nil : NoNan ([] : List (Constant P)) := fun _ h => (List.not_mem_nil h).elim

@[simp] theorem noNan_singleton {c : Constant P} : NoNan [c] ↔ c.isNan = false := by simp [NoNan]

@[simp] theorem noNan_append {cs ds : List (Constant P)} :
    NoNan (cs ++ ds) ↔ NoNan cs ∧ NoNan ds := by
  simp [NoNan, or_imp, forall_and]

section Lists

variable {α : Type} {eq : α → α → Bool} {cs : α → List (Constant P)} {g : α → α}

theorem vectorEq_iff (h : ∀ a b, eq a b = true ↔ NoNan (cs a) ∧ g a = g b) (as bs : List α) :
    vectorEq eq as bs = true ↔ NoNan (as.flatMap cs) ∧ as.map g = bs.map g := by
  induction as generalizing bs with
  | nil => cases bs <;> simp [vectorEq]
  | cons a as ih =>
    cases bs with
    | nil => simp [vectorEq]
    | cons b bs =>
      simp only [vectorEq, Bool.and_eq_true, h, ih, List.flatMap_cons, noNan_append, List.map_cons,
        List.cons.injEq]
      tauto

theorem optionEq_iff (h : ∀ a b, eq a b = true ↔ NoNan (cs a) ∧ g a = g b) (a b : Option α) :
    optionEq eq a b = true ↔ NoNan (a.elim [] cs) ∧ a.map g = b.map g := by
  cases a <;> cases b <;> simp [optionEq, h]

end Lists

section Comparisons

variable [Ord P] [Std.LawfulEqOrd P] [DecidableEq P] [DecidableEq T]

omit [DecidableEq P] in
theorem constantEq_iff (a b : Constant P) :
    constantEq a b = true ↔ a.isNan = false ∧ a.unsigned = b.unsigned := by
  rw [constantEq, beq_iff_eq]
  cases a with
  | int v t =>
    cases b with
    | int w u =>
      rw [Constant.ord, ord_eq_eq, compare_ctorIdx, cmp_eq_eq, ← toInt_inj]
      simp only [Constant.isNan, Constant.unsigned, Constant.int.injEq, true_and]
    | _ => simp [Constant.ord, Constant.unsigned, Constant.ctorIdx]
  | uint v t =>
    cases b with
    | uint w u =>
      rw [Constant.ord, ord_eq_eq, compare_ctorIdx, U128.cmp_eq, compare_eq_iff_eq]
      simp only [Constant.isNan, Constant.unsigned, Constant.uint.injEq, true_and]
    | _ => simp [Constant.ord, Constant.unsigned, Constant.ctorIdx]
  | float v t =>
    cases b with
    | float w u =>
      simp only [Constant.ord, Constant.isNan, Constant.unsigned, Constant.float.injEq]
      rw [← and_assoc, ← Double.eq_iff]
      cases h : Double.eq v w with
      | true =>
        rw [if_neg (by decide), compare_ctorIdx]
        tauto
      | false =>
        have hord : Double.ord v w ≠ .eq := by
          rw [Double.ord, h]
          simp only [Bool.false_eq_true, if_false]
          split_ifs <;> decide
        rw [if_pos (by decide)]
        simp only [hord, Bool.false_eq_true, false_and]
    | _ => simp [Constant.ord, Constant.unsigned, Constant.ctorIdx]
  | _ => cases b <;> simp [Constant.ord, Constant.isNan, Constant.unsigned, Constant.ctorIdx]

theorem paramEq_iff (a b : Param P (LValue P)) : paramEq a b = true ↔
    NoNan a.constants ∧ a.mapConstants Constant.unsigned = b.mapConstants Constant.unsigned := by
  cases a <;> cases b <;> simp [paramEq, Param.constants, Param.mapConstants, constantEq_iff]

theorem rvalueEq_iff (a b : RValue T P (LValue P)) : rvalueEq a b = true ↔
    NoNan a.constants ∧ a.mapConstants Constant.unsigned = b.mapConstants Constant.unsigned := by
  have hvec := vectorEq_iff (paramEq_iff (P := P))
  cases a <;> cases b <;>
    simp [rvalueEq, RValue.constants, RValue.mapConstants, constantEq_iff, paramEq_iff, hvec] <;> tauto

theorem asmParamEq_iff (a b : AsmParam P (LValue P) (LValue P)) : asmParamEq a b = true ↔
    NoNan a.constants ∧ a.mapConstants Constant.unsigned = b.mapConstants Constant.unsigned := by
  have hopt := optionEq_iff (paramEq_iff (P := P))
  cases a <;> cases b <;>
    simp [asmParamEq, AsmParam.constants, AsmParam.mapConstants, constantEq_iff, hopt]
  tauto

theorem statementEq_iff (a b : Statement T P (LValue P)) : statementEq a b = true ↔
    NoNan a.constants ∧ a.mapConstants Constant.unsigned = b.mapConstants Constant.unsigned := by
  have hvec := vectorEq_iff (asmParamEq_iff (P := P))
  cases a <;> cases b <;>
    simp [statementEq, Statement.constants, Statement.mapConstants, rvalueEq_iff, hvec] <;> tauto

theorem terminatorEq_iff (a b : Terminator T P (LValue P)) : terminatorEq a b = true ↔
    NoNan a.constants ∧ a.mapConstants Constant.unsigned = b.mapConstants Constant.unsigned := by
  have hvec := vectorEq_iff (paramEq_iff (P := P))
  cases a <;> cases b <;>
    simp [terminatorEq, Terminator.constants, Terminator.mapConstants, hvec] <;> tauto

theorem blocksEqual_iff (a b : BasicBlock T P (LValue P)) : blocksEqual a b = true ↔
    NoNan a.constants ∧ a.mapConstants Constant.unsigned = b.mapConstants Constant.unsigned := by
  rw [blocksEqual, Bool.and_eq_true, vectorEq_iff statementEq_iff, terminatorEq_iff]
  simp only [BasicBlock.constants, BasicBlock.mapConstants, noNan_append, BasicBlock.mk.injEq]
  tauto

end Comparisons

section Injective

variable {f : Constant P → Constant P}

/-- Values that are the same but for their constants, and have the same constants, are the same. -/
structure DeterminedByConstants {α : Type} (f : Constant P → Constant P)
    (cs : α → List (Constant P)) (g : α → α) : Prop where
  constants (a : α) : cs (g a) = (cs a).map f
  injective {a b : α} (h : g a = g b) (hc : cs a = cs b) : a = b

namespace DeterminedByConstants

variable {α : Type} {cs : α → List (Constant P)} {g : α → α}

theorem length (h : DeterminedByConstants f cs g) {a b : α} (hab : g a = g b) :
    (cs a).length = (cs b).length := by
  rw [← List.length_map f, ← h.constants, hab, h.constants, List.length_map]

theorem list (h : DeterminedByConstants f cs g) :
    DeterminedByConstants f (fun as : List α => as.flatMap cs) (List.map g) where
  constants as := by
    induction as with
    | nil => rfl
    | cons a as ih =>
      rw [List.map_cons, List.flatMap_cons, ih, h.constants, List.flatMap_cons, List.map_append]
  injective {as bs} hab hc := by
    induction as generalizing bs with
    | nil => exact (List.map_eq_nil_iff.mp hab.symm).symm
    | cons a as ih =>
      cases bs with
      | nil => cases hab
      | cons b bs =>
        rw [List.map_cons, List.map_cons, List.cons.injEq] at hab
        rw [List.flatMap_cons, List.flatMap_cons] at hc
        obtain ⟨hc, hcs⟩ := List.append_inj hc (h.length hab.1)
        rw [h.injective hab.1 hc, ih hab.2 hcs]

theorem option (h : DeterminedByConstants f cs g) :
    DeterminedByConstants f (fun a : Option α => a.elim [] cs) (Option.map g) where
  constants a := by
    cases a with
    | none => rfl
    | some a => exact h.constants a
  injective {a b} hab hc := by
    cases a with
    | none => exact (Option.map_eq_none_iff.mp hab.symm).symm
    | some a =>
      cases b with
      | none => cases hab
      | some b => rw [h.injective (Option.some.inj hab) hc]

end DeterminedByConstants

theorem param_determined :
    DeterminedByConstants f Param.constants (Param.mapConstants (L := L) f) where
  constants a := by cases a <;> rfl
  injective {a b} hab hc := by cases a <;> cases b <;> simp_all [Param.mapConstants, Param.constants]

theorem rvalue_determined :
    DeterminedByConstants f RValue.constants (RValue.mapConstants (T := T) (L := L) f) where
  constants a := by
    have hlist := (param_determined (L := L) (f := f)).list.constants
    cases a <;> simp only [RValue.mapConstants, RValue.constants, List.map_append,
      param_determined.constants, List.map_nil, List.map_cons] <;> exact hlist _
  injective {a b} hab hc := by
    have hlist {vs ws : List (Param P L)} (h : vs.map (Param.mapConstants f) = ws.map (Param.mapConstants f))
        (hc : vs.flatMap Param.constants = ws.flatMap Param.constants) : vs = ws :=
      param_determined.list.injective h hc
    have hpair {v w v' w' : Param P L} (hv : v.mapConstants f = v'.mapConstants f)
        (hw : w.mapConstants f = w'.mapConstants f)
        (hc : v.constants ++ w.constants = v'.constants ++ w'.constants) : v = v' ∧ w = w' := by
      obtain ⟨hcv, hcw⟩ := List.append_inj hc (param_determined.length hv)
      exact ⟨param_determined.injective hv hcv, param_determined.injective hw hcw⟩
    cases a <;> cases b <;> simp only [RValue.mapConstants, reduceCtorEq] at hab
    case constant.constant c d => rw [List.singleton_inj.mp hc]
    case sizedArray.sizedArray v n w k =>
      rw [RValue.sizedArray.injEq] at hab
      rw [param_determined.injective hab.1 hc, hab.2]
    case binOp.binOp l op r l' op' r' =>
      rw [RValue.binOp.injEq] at hab
      obtain ⟨rfl, rfl⟩ := hpair hab.1 hab.2.2 hc
      rw [hab.2.1]
    case makeDst.makeDst p m p' m' =>
      rw [RValue.makeDst.injEq] at hab
      obtain ⟨rfl, rfl⟩ := hpair hab.1 hab.2 hc
      rfl
    case tuple.tuple vs ws => rw [hlist (RValue.tuple.inj hab) hc]
    case array.array vs ws => rw [hlist (RValue.array.inj hab) hc]
    case unionVariant.unionVariant p i v p' i' w =>
      rw [RValue.unionVariant.injEq] at hab
      rw [param_determined.injective hab.2.2 hc, hab.1, hab.2.1]
    case enumVariant.enumVariant p i vs p' i' ws =>
      rw [RValue.enumVariant.injEq] at hab
      rw [hlist hab.2.2 hc, hab.1, hab.2.1]
    case struct_.struct_ p vs p' ws =>
      rw [RValue.struct_.injEq] at hab
      rw [hlist hab.2 hc, hab.1]
    all_goals exact hab

theorem asmParam_determined :
    DeterminedByConstants f AsmParam.constants (AsmParam.mapConstants (L := L) f) where
  constants a := by
    cases a with
    | reg dir spec input output => exact param_determined.option.constants input
    | _ => rfl
  injective {a b} hab hc := by
    cases a <;> cases b <;> simp only [AsmParam.mapConstants, reduceCtorEq] at hab
    case const.const c d => rw [List.singleton_inj.mp hc]
    case sym.sym p q => exact hab
    case reg.reg d s i o d' s' i' o' =>
      rw [AsmParam.reg.injEq] at hab
      rw [param_determined.option.injective hab.2.2.1 hc, hab.1, hab.2.1, hab.2.2.2]

theorem statement_determined :
    DeterminedByConstants f Statement.constants (Statement.mapConstants (T := T) (L := L) f) where
  constants a := by
    cases a with
    | assign dst src => exact DeterminedByConstants.constants rvalue_determined src
    | asm2 options lines params => exact (DeterminedByConstants.list asmParam_determined).constants params
    | _ => rfl
  injective {a b} hab hc := by
    cases a <;> cases b <;> simp only [Statement.mapConstants, reduceCtorEq] at hab
    case assign.assign d s d' s' =>
      rw [Statement.assign.injEq] at hab
      rw [DeterminedByConstants.injective rvalue_determined hab.2 hc, hab.1]
    case asm2.asm2 o l ps o' l' qs =>
      rw [Statement.asm2.injEq] at hab
      rw [(DeterminedByConstants.list asmParam_determined).injective hab.2.2 hc, hab.1, hab.2.1]
    all_goals exact hab

theorem terminator_determined :
    DeterminedByConstants f Terminator.constants (Terminator.mapConstants (T := T) (L := L) f) where
  constants a := by
    cases a with
    | call retBlock panicBlock retVal fcn args => exact param_determined.list.constants args
    | _ => rfl
  injective {a b} hab hc := by
    cases a <;> cases b <;> simp only [Terminator.mapConstants, reduceCtorEq] at hab
    case call.call r p v fcn vs r' p' v' fcn' ws =>
      rw [Terminator.call.injEq] at hab
      rw [param_determined.list.injective hab.2.2.2.2 hc, hab.1, hab.2.1, hab.2.2.1, hab.2.2.2.1]
    all_goals first | rfl | exact hab

/-- Blocks that are the same but for their constants, and have the same constants, are the same. -/
theorem block_injective {a b : BasicBlock T P L} (hab : a.mapConstants f = b.mapConstants f)
    (hc : a.constants = b.constants) : a = b := by
  obtain ⟨sts, t⟩ := a
  obtain ⟨sts', t'⟩ := b
  rw [BasicBlock.mapConstants, BasicBlock.mapConstants, BasicBlock.mk.injEq] at hab
  have hlist := DeterminedByConstants.list (statement_determined (T := T) (P := P) (L := L) (f := f))
  obtain ⟨hs, ht⟩ := List.append_inj hc (hlist.length hab.1)
  obtain rfl : sts = sts' := hlist.injective hab.1 hs
  obtain rfl : t = t' := DeterminedByConstants.injective terminator_determined hab.2 ht
  rfl

end Injective

end Mrustc.Mir
