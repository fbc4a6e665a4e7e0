import Mrustc.Mir.Places
import Mrustc.Mir.Simulation

/-! # Runs in memories that hold more

A statement that runs in a memory does the same in one that holds more, and leaves more behind.
-/

namespace Mrustc.Mir

open Memory

/-- The visitor that leaves every lvalue as it is. -/
def keep {L : Type} : Visitor Id Unit L L where
  lvalue s lv _ := (lv, s)
  paramBorrow s lv := (lv, s)

section Keep

variable {T P L : Type} {u : ValUsage}

@[simp] theorem Param.visit_keep (p : Param P L) : Id.run (p.visit keep u ()) = (p, ()) := by
  cases p <;> rfl

@[simp] theorem visitParams_keep (ps : List (Param P L)) :
    Id.run (visitParams keep u () ps) = (ps, ()) := by
  induction ps with
  | nil => rfl
  | cons p ps ih =>
    simp only [visitParams, Id.run_bind, Param.visit_keep, ih]
    rfl

@[simp] theorem visitNamed_keep (xs : List (Hir.RcString × L)) :
    Id.run (visitNamed keep u () xs) = (xs, ()) := by
  induction xs with
  | nil => rfl
  | cons x xs ih =>
    simp only [visitNamed, Id.run_bind, keep] at ih ⊢
    exact congrArg (fun r => (x :: r.1, r.2)) ih

@[simp] theorem RValue.visit_keep (rv : RValue T P L) : Id.run (rv.visit keep ()) = (rv, ()) := by
  cases rv <;> simp only [RValue.visit, Id.run_bind, Param.visit_keep, visitParams_keep] <;> rfl

@[simp] theorem CallTarget.visit_keep (c : CallTarget T P L) : Id.run (c.visit keep ()) = (c, ()) := by
  cases c <;> rfl

end Keep

namespace Interp

variable {T P B K π E : Type} [Contents K π] {I : Interp T P B K π E} {F : Frame T P B}
  {m m₁ m' : B → K} {lv : LValue P} {pl : Place B π} {u : ValUsage} {v : K}

theorem place_mono (hle : m ≤ m') (h : I.place F m lv = some pl) : I.place F m' lv = some pl :=
  (unwraps_mono (hle _) (fun _ _ => hle _) (fun b _ => hle b) h).1

variable [DecidableEq B]

theorem operand_mono (hle : m ≤ m') (h : I.operand F m lv u = some (v, m₁)) :
    ∃ m₁', I.operand F m' lv u = some (v, m₁') ∧ m₁ ≤ m₁' := by
  cases u with
  | move =>
    obtain ⟨pl, hpl, hv, rfl⟩ := operand_move_eq_some.mp h
    refine ⟨_, operand_move_eq_some.mpr ⟨pl, place_mono hle hpl, load_mono (hle _) hv, rfl⟩, ?_⟩
    by_cases hc : F.lvalueIsCopy lv = true
    · rwa [if_pos hc, if_pos hc]
    · rw [if_neg hc, if_neg hc]
      exact fun b => store_mono (hle b)
  | read =>
    obtain ⟨pl, hpl, hv, rfl⟩ := operand_read_eq_some.mp h
    exact ⟨m', operand_read_eq_some.mpr ⟨pl, place_mono hle hpl, load_mono (hle _) hv, rfl⟩, hle⟩
  | borrow =>
    obtain ⟨pl, hpl, hv, rfl⟩ := operand_borrow_eq_some.mp h
    exact ⟨m', operand_borrow_eq_some.mpr ⟨pl, place_mono hle hpl, hv, rfl⟩, hle⟩
  | write => cases h

theorem keep_simulates (lvs : List (LValue P × ValUsage)) (bs : List (LValue P)) :
    keep.Simulates (I.operands F) (fun _ m m' => m ≤ m') (fun _ => True) lvs bs where
  back _ _ _ := trivial
  backBorrow _ _ := trivial
  lvalue _ hle _ h := operand_mono hle h
  paramBorrow _ hle _ h := operand_mono (u := .borrow) hle h

theorem rvalue_mono {rv : RValue T P (LValue P)} {x : RValue T P K} (hle : m ≤ m')
    (h : rv.visit (I.operands F) m = some (x, m₁)) :
    ∃ m₁', rv.visit (I.operands F) m' = some (x, m₁') ∧ m₁ ≤ m₁' := by
  have hk := (keep_simulates rv.lvalues rv.paramBorrows).rvalue (List.Subset.refl _)
    (List.Subset.refl _) (s := ()) hle trivial h
  simpa only [RValue.visit_keep] using hk

theorem params_mono {ps : List (Param P (LValue P))} {xs : List (Param P K)} (hle : m ≤ m')
    (h : visitParams (I.operands F) u m ps = some (xs, m₁)) :
    ∃ m₁', visitParams (I.operands F) u m' ps = some (xs, m₁') ∧ m₁ ≤ m₁' := by
  have hk := (keep_simulates (ps.flatMap (Param.lvalues u)) (ps.flatMap Param.borrows)).params
    (List.Subset.refl _) (List.Subset.refl _) (s := ()) hle trivial h
  simpa only [visitParams_keep] using hk

theorem param_mono {p : Param P (LValue P)} {x : Param P K} (hle : m ≤ m')
    (h : p.visit (I.operands F) u m = some (x, m₁)) :
    ∃ m₁', p.visit (I.operands F) u m' = some (x, m₁') ∧ m₁ ≤ m₁' := by
  have hk := (keep_simulates (p.lvalues u) p.borrows).param
    (List.Subset.refl _) (List.Subset.refl _) (s := ()) hle trivial h
  simpa only [Param.visit_keep] using hk

theorem named_mono {xs : List (Hir.RcString × LValue P)} {ys : List (Hir.RcString × K)} (hle : m ≤ m')
    (h : visitNamed (I.operands F) u m xs = some (ys, m₁)) :
    ∃ m₁', visitNamed (I.operands F) u m' xs = some (ys, m₁') ∧ m₁ ≤ m₁' := by
  have hk := (keep_simulates (xs.map fun x => (x.2, u)) []).named
    (List.Subset.refl _) (s := ()) hle trivial h
  simpa only [visitNamed_keep] using hk

theorem callTarget_mono {c : CallTarget T P (LValue P)} {x : CallTarget T P K} (hle : m ≤ m')
    (h : c.visit (I.operands F) m = some (x, m₁)) :
    ∃ m₁', c.visit (I.operands F) m' = some (x, m₁') ∧ m₁ ≤ m₁' := by
  have hk := (keep_simulates c.lvalues []).callTarget (List.Subset.refl _) (s := ()) hle trivial h
  simpa only [CallTarget.visit_keep] using hk

theorem asmInput_mono {p : AsmParam P (LValue P) (LValue P)} {x : AsmParam P K Unit} (hle : m ≤ m')
    (h : I.asmInput F m p = some x) : I.asmInput F m' p = some x := by
  cases p with
  | const c => exact h
  | sym p => exact h
  | reg dir spec input output =>
    cases input with
    | none => exact h
    | some input =>
      simp only [asmInput, bind, pure, Option.bind_eq_some_iff, Option.some.injEq] at h ⊢
      obtain ⟨⟨y, m₁⟩, hy, rfl⟩ := h
      obtain ⟨m₁', hy', -⟩ := param_mono hle hy
      exact ⟨_, hy', rfl⟩

omit [DecidableEq B] in
theorem action_mono {α : Type} {x : Action B K α} {a : α} (hle : m ≤ m')
    (h : x.run m = some (a, m₁)) : ∃ m₁', x.run m' = some (a, m₁') ∧ m₁ ≤ m₁' := by
  obtain ⟨m₁', h', hw, hle'⟩ := x.mono h fun b _ => hle b
  refine ⟨m₁', h', fun b => ?_⟩
  by_cases hb : b ∈ x.written m
  · exact hle' b hb
  · rw [x.frame h hb, x.frame h' (hw ▸ hb)]
    exact hle b

theorem storeAll_mono {pls : List (Place B π)} {vs : List K} (hle : m ≤ m')
    (h : storeAll m pls vs = some m₁) : ∃ m₁', storeAll m' pls vs = some m₁' ∧ m₁ ≤ m₁' := by
  induction pls generalizing m m' vs with
  | nil =>
    cases vs with
    | nil =>
      cases h
      exact ⟨m', rfl, hle⟩
    | cons v vs => cases h
  | cons pl pls ih =>
    cases vs with
    | nil => cases h
    | cons v vs => exact ih (fun b => store_mono (hle b)) h

variable {st : Statement T P (LValue P)} {sts : List (Statement T P (LValue P))}
  {ev : Event T P B K π E} {evs : List (Event T P B K π E)} {exit : Exit T P B K π}
  {bb : BasicBlock T P (LValue P)} {t : Terminator T P (LValue P)} {fl fl₁ : ℕ → Bool}

theorem step_mono (hle : m ≤ m') (h : I.step F ⟨m, fl⟩ st = some (ev, ⟨m₁, fl₁⟩)) :
    ∃ m₁', I.step F ⟨m', fl⟩ st = some (ev, ⟨m₁', fl₁⟩) ∧ m₁ ≤ m₁' := by
  cases st with
  | assign dst src =>
    simp only [step, bind, pure, Option.bind_eq_some_iff, Option.some.injEq, Prod.mk.injEq,
      State.mk.injEq] at h ⊢
    obtain ⟨⟨rv, mr⟩, hrv, v, hv, pl, hpl, rfl, rfl, rfl⟩ := h
    obtain ⟨mr', hrv', hr⟩ := rvalue_mono hle hrv
    exact ⟨store mr' pl v, ⟨(rv, mr'), hrv', v, hv, pl, place_mono hr hpl, rfl, rfl, rfl⟩,
      fun b => store_mono (hr b)⟩
  | asm tpl outputs inputs clobbers flags =>
    simp only [step, bind, pure, Option.bind_eq_some_iff, Option.some.injEq, Prod.mk.injEq,
      State.mk.injEq] at h ⊢
    obtain ⟨⟨ins, mr⟩, hins, pls, hpls, ⟨⟨e, vs⟩, ma⟩, ha, mo, hmo, rfl, rfl, rfl⟩ := h
    obtain ⟨mr', hins', hr⟩ := named_mono hle hins
    obtain ⟨ma', ha', hma⟩ := action_mono hr ha
    obtain ⟨mo', hmo', hle'⟩ := storeAll_mono hma hmo
    exact ⟨mo', ⟨(ins, mr'), hins', pls, mapM_eq_some (fun _ _ _ => place_mono hr) hpls, ((e, vs), ma'), ha',
      mo', hmo', rfl, rfl, rfl⟩, hle'⟩
  | asm2 options lines params =>
    simp only [step, bind, pure, Option.bind_eq_some_iff, Option.some.injEq, Prod.mk.injEq,
      State.mk.injEq] at h ⊢
    obtain ⟨ins, hins, pls, hpls, ⟨⟨e, vs⟩, ma⟩, ha, mo, hmo, rfl, rfl, rfl⟩ := h
    obtain ⟨ma', ha', hma⟩ := action_mono hle ha
    obtain ⟨mo', hmo', hle'⟩ := storeAll_mono hma hmo
    exact ⟨mo', ⟨ins, mapM_eq_some (fun _ _ _ => asmInput_mono hle) hins, pls,
      mapM_eq_some (fun _ _ _ => place_mono hle) hpls, ((e, vs), ma'), ha', mo', hmo', rfl, rfl, rfl⟩, hle'⟩
  | setDropFlag idx newVal other =>
    cases h
    exact ⟨m', rfl, hle⟩
  | drop kind slot flagIdx =>
    simp only [step] at h ⊢
    by_cases hf : flagIdx.elim true fl = true
    · rw [if_pos hf] at h ⊢
      simp only [bind, pure, Option.bind_eq_some_iff, Option.some.injEq, Prod.mk.injEq,
        State.mk.injEq] at h ⊢
      obtain ⟨pl, hpl, ⟨e, md⟩, hd, rfl, rfl, rfl⟩ := h
      obtain ⟨md', hd', hmd⟩ := action_mono hle hd
      exact ⟨vacate md' pl, ⟨pl, place_mono hle hpl, (e, md'), hd', rfl, rfl, rfl⟩,
        fun b => store_mono (hmd b)⟩
    · rw [if_neg hf] at h ⊢
      cases h
      exact ⟨m', rfl, hle⟩
  | scopeEnd slots =>
    cases h
    exact ⟨m', rfl, hle⟩

theorem steps_mono (hle : m ≤ m') (h : I.steps F ⟨m, fl⟩ sts = some (evs, ⟨m₁, fl₁⟩)) :
    ∃ m₁', I.steps F ⟨m', fl⟩ sts = some (evs, ⟨m₁', fl₁⟩) ∧ m₁ ≤ m₁' := by
  induction sts generalizing m m' fl evs with
  | nil =>
    cases h
    exact ⟨m', rfl, hle⟩
  | cons st sts ih =>
    simp only [steps, bind, pure, Option.bind_eq_some_iff, Option.some.injEq] at h ⊢
    obtain ⟨⟨ev, ⟨m₂, fl₂⟩⟩, hst, ⟨evs, s₂⟩, hsts, h⟩ := h
    cases h
    obtain ⟨m₂', hst', hle₂⟩ := step_mono hle hst
    obtain ⟨m₁', hsts', hle₁⟩ := ih hle₂ hsts
    exact ⟨m₁', ⟨_, hst', _, hsts', rfl⟩, hle₁⟩

theorem leave_mono (hle : m ≤ m') (h : I.leave F ⟨m, fl⟩ t = some (exit, ⟨m₁, fl₁⟩)) :
    ∃ m₁', I.leave F ⟨m', fl⟩ t = some (exit, ⟨m₁', fl₁⟩) ∧ m₁ ≤ m₁' := by
  cases t with
  | if_ cond bbTrue bbFalse | switch val targets | switchValue val defTarget targets values =>
    simp only [leave, bind, pure, Option.bind_eq_some_iff, Option.some.injEq] at h ⊢
    obtain ⟨⟨x, m₂⟩, hx, h⟩ := h
    cases h
    obtain ⟨m₂', hx', -⟩ := operand_mono hle hx
    exact ⟨m', ⟨_, hx', rfl⟩, hle⟩
  | call retBlock panicBlock retVal fcn args =>
    simp only [leave, bind, pure, Option.bind_eq_some_iff, Option.some.injEq] at h ⊢
    obtain ⟨⟨x, m₂⟩, hx, ⟨xs, m₃⟩, hxs, pl, hpl, h⟩ := h
    cases h
    obtain ⟨m₂', hx', hle₂⟩ := callTarget_mono hle hx
    obtain ⟨m₃', hxs', hle₃⟩ := params_mono hle₂ hxs
    exact ⟨m₃', ⟨_, hx', _, hxs', pl, place_mono hle₃ hpl, rfl⟩, hle₃⟩
  | _ =>
    cases h
    exact ⟨m', rfl, hle⟩

end Interp

end Mrustc.Mir
