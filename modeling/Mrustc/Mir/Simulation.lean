import Mrustc.Mir.Visit
import Mathlib.Tactic

/-! # Rewriting visitors and the values of what they rewrite

A visitor that rewrites the lvalues of an rvalue is followed through an evaluation of the rvalue, from
what it does to one lvalue.
-/

namespace Mrustc.Mir

open Hir (RcString)

variable {T P L M σ τ : Type}

section Preserves

variable {v : Visitor Id σ L M} {Q : σ → Prop} {lvs : List (L × ValUsage)}

/-- The visitor keeps a property of its state on the given lvalues. -/
structure Visitor.Preserves (v : Visitor Id σ L M) (Q : σ → Prop) (lvs : List (L × ValUsage)) :
    Prop where
  lvalue {s : σ} {lv : L} {u : ValUsage} (hlv : (lv, u) ∈ lvs) (h : Q s) :
    Q (Id.run (v.lvalue s lv u)).2
  paramBorrow {s : σ} (lv : L) (h : Q s) : Q (Id.run (v.paramBorrow s lv)).2

theorem Visitor.Preserves.sub (hv : v.Preserves Q lvs) {lvs' : List (L × ValUsage)} (hl : lvs' ⊆ lvs) :
    v.Preserves Q lvs' where
  lvalue hlv := hv.lvalue (hl hlv)
  paramBorrow := hv.paramBorrow

theorem Param.visit_preserves {u : ValUsage} {p : Param P L} (hv : v.Preserves Q (p.lvalues u)) {s : σ}
    (h : Q s) : Q (Id.run (p.visit v u s)).2 := by
  cases p with
  | lvalue lv => exact hv.lvalue List.mem_cons_self h
  | borrow type lv => exact hv.paramBorrow lv h
  | constant c => exact h

theorem visitParams_preserves {u : ValUsage} {ps : List (Param P L)}
    (hv : v.Preserves Q (ps.flatMap (Param.lvalues u))) {s : σ} (h : Q s) :
    Q (Id.run (visitParams v u s ps)).2 := by
  induction ps generalizing s with
  | nil => exact h
  | cons p ps ih =>
    rw [List.flatMap_cons] at hv
    exact ih (hv.sub (List.subset_append_right _ _))
      (p.visit_preserves (hv.sub (List.subset_append_left _ _)) h)

theorem RValue.visit_preserves {rv : RValue T P L} (hv : v.Preserves Q rv.lvalues) {s : σ} (h : Q s) :
    Q (Id.run (rv.visit v s)).2 := by
  cases rv with
  | use lv => exact hv.lvalue List.mem_cons_self h
  | borrow type lv => exact hv.lvalue List.mem_cons_self h
  | constant c => exact h
  | sizedArray val count => exact val.visit_preserves hv h
  | cast lv type => exact hv.lvalue List.mem_cons_self h
  | binOp l op r =>
    exact r.visit_preserves (hv.sub (List.subset_append_right _ _))
      (l.visit_preserves (hv.sub (List.subset_append_left _ _)) h)
  | uniOp lv op => exact hv.lvalue List.mem_cons_self h
  | dstMeta lv => exact hv.lvalue List.mem_cons_self h
  | dstPtr lv => exact hv.lvalue List.mem_cons_self h
  | makeDst ptrVal metaVal =>
    exact metaVal.visit_preserves (hv.sub (List.subset_append_right _ _))
      (ptrVal.visit_preserves (hv.sub (List.subset_append_left _ _)) h)
  | tuple vals => exact visitParams_preserves hv h
  | array vals => exact visitParams_preserves hv h
  | unionVariant path index val => exact val.visit_preserves hv h
  | enumVariant path index vals => exact visitParams_preserves hv h
  | struct_ path vals => exact visitParams_preserves hv h

theorem visitNamed_preserves {u : ValUsage} {xs : List (RcString × L)}
    (hv : v.Preserves Q (xs.map fun x => (x.2, u))) {s : σ} (h : Q s) :
    Q (Id.run (visitNamed v u s xs)).2 := by
  induction xs generalizing s with
  | nil => exact h
  | cons x xs ih =>
    exact ih (hv.sub (List.subset_cons_self _ _)) (hv.lvalue List.mem_cons_self h)

theorem CallTarget.visit_preserves {t : CallTarget T P L} (hv : v.Preserves Q t.lvalues) {s : σ}
    (h : Q s) : Q (Id.run (t.visit v s)).2 := by
  cases t with
  | value lv => exact hv.lvalue List.mem_cons_self h
  | path p => exact h
  | intrinsic name params => exact h

end Preserves

section PreservesRewriting

variable {v : Visitor Id σ L L} {Q : σ → Prop}

theorem AsmParam.visit_preserves {p : AsmParam P L L} (hv : v.Preserves Q p.lvalues) {s : σ} (h : Q s) :
    Q (Id.run (p.visit v s)).2 := by
  cases p with
  | const c => exact h
  | sym p => exact h
  | reg dir spec input output =>
    cases input with
    | none =>
      cases output with
      | none => exact h
      | some lv => exact hv.lvalue List.mem_cons_self h
    | some p =>
      have hp := p.visit_preserves (hv.sub (List.subset_append_left _ _)) h
      cases output with
      | none => exact hp
      | some lv => exact hv.lvalue (List.mem_append_right _ List.mem_cons_self) hp

theorem visitAsmParams_preserves {ps : List (AsmParam P L L)}
    (hv : v.Preserves Q (ps.flatMap AsmParam.lvalues)) {s : σ} (h : Q s) :
    Q (Id.run (visitAsmParams v s ps)).2 := by
  induction ps generalizing s with
  | nil => exact h
  | cons p ps ih =>
    rw [List.flatMap_cons] at hv
    exact ih (hv.sub (List.subset_append_right _ _))
      (p.visit_preserves (hv.sub (List.subset_append_left _ _)) h)

theorem Statement.visit_preserves {st : Statement T P L} (hv : v.Preserves Q st.lvalues) {s : σ}
    (h : Q s) : Q (Id.run (st.visit v s)).2 := by
  cases st with
  | assign dst src =>
    exact hv.lvalue (List.mem_append_right _ List.mem_cons_self)
      (src.visit_preserves (hv.sub (List.subset_append_left _ _)) h)
  | asm tpl outputs inputs clobbers flags =>
    exact visitNamed_preserves (hv.sub (List.subset_append_right _ _))
      (visitNamed_preserves (hv.sub (List.subset_append_left _ _)) h)
  | asm2 options lines params => exact visitAsmParams_preserves hv h
  | setDropFlag idx newVal other => exact h
  | drop kind slot flagIdx => exact hv.lvalue List.mem_cons_self h
  | scopeEnd slots => exact h

theorem Terminator.visit_preserves {t : Terminator T P L} (hv : v.Preserves Q t.lvalues) {s : σ}
    (h : Q s) : Q (Id.run (t.visit v s)).2 := by
  cases t with
  | if_ cond bbTrue bbFalse => exact hv.lvalue List.mem_cons_self h
  | switch val targets => exact hv.lvalue List.mem_cons_self h
  | switchValue val defTarget targets values => exact hv.lvalue List.mem_cons_self h
  | call retBlock panicBlock retVal fcn args =>
    have hcall := hv.sub (List.subset_append_left _ _)
    exact hv.lvalue (List.mem_append_right _ List.mem_cons_self)
      (visitParams_preserves (hcall.sub (List.subset_append_right _ _))
        (fcn.visit_preserves (hcall.sub (List.subset_append_left _ _)) h))
  | incomplete => exact h
  | return_ => exact h
  | diverge => exact h
  | goto bb => exact h
  | panic dst => exact h

end PreservesRewriting

section Simulates

variable {v : Visitor Id σ L L} {e : Visitor Option τ L M} {Q : σ → τ → τ → Prop} {Fut : σ → Prop}
  {lvs : List (L × ValUsage)} {bs : List L} {s : σ} {t t₁ t' : τ}

/-- On the given lvalues and borrowed parameters the visitor is followed by the evaluation: where an
operand has a value, the rewritten one has it too. `Fut` is what the rest of the visit leads to. -/
structure Visitor.Simulates (v : Visitor Id σ L L) (e : Visitor Option τ L M) (Q : σ → τ → τ → Prop)
    (Fut : σ → Prop) (lvs : List (L × ValUsage)) (bs : List L) : Prop where
  back {s : σ} (lv : L) (u : ValUsage) (h : Fut (Id.run (v.lvalue s lv u)).2) : Fut s
  backBorrow {s : σ} (lv : L) (h : Fut (Id.run (v.paramBorrow s lv)).2) : Fut s
  lvalue {s : σ} {t t₁ t' : τ} {lv : L} {u : ValUsage} {x : M} (hlv : (lv, u) ∈ lvs)
    (hQ : Q s t t') (hfut : Fut (Id.run (v.lvalue s lv u)).2)
    (he : e.lvalue t lv u = some (x, t₁)) :
    ∃ t₁', e.lvalue t' (Id.run (v.lvalue s lv u)).1 u = some (x, t₁') ∧
      Q (Id.run (v.lvalue s lv u)).2 t₁ t₁'
  paramBorrow {s : σ} {t t₁ t' : τ} {lv : L} {x : M} (hlv : lv ∈ bs)
    (hQ : Q s t t') (hfut : Fut (Id.run (v.paramBorrow s lv)).2)
    (he : e.paramBorrow t lv = some (x, t₁)) :
    ∃ t₁', e.paramBorrow t' (Id.run (v.paramBorrow s lv)).1 = some (x, t₁') ∧
      Q (Id.run (v.paramBorrow s lv)).2 t₁ t₁'

namespace Visitor.Simulates

theorem sub (hv : v.Simulates e Q Fut lvs bs) {lvs' : List (L × ValUsage)} {bs' : List L}
    (hl : lvs' ⊆ lvs) (hb : bs' ⊆ bs) : v.Simulates e Q Fut lvs' bs' where
  back := hv.back
  backBorrow := hv.backBorrow
  lvalue hlv := hv.lvalue (hl hlv)
  paramBorrow hlv := hv.paramBorrow (hb hlv)

theorem backParam (hv : v.Simulates e Q Fut lvs bs) (u : ValUsage) (p : Param P L)
    (h : Fut (Id.run (p.visit v u s)).2) : Fut s := by
  cases p with
  | lvalue lv => exact hv.back lv u h
  | borrow type lv => exact hv.backBorrow lv h
  | constant c => exact h

theorem backParams (hv : v.Simulates e Q Fut lvs bs) (u : ValUsage) (ps : List (Param P L))
    (h : Fut (Id.run (visitParams v u s ps)).2) : Fut s := by
  induction ps generalizing s with
  | nil => exact h
  | cons p ps ih => exact hv.backParam u p (ih h)

theorem backNamed (hv : v.Simulates e Q Fut lvs bs) (u : ValUsage) (xs : List (RcString × L))
    (h : Fut (Id.run (visitNamed v u s xs)).2) : Fut s := by
  induction xs generalizing s with
  | nil => exact h
  | cons x xs ih => exact hv.back x.2 u (ih h)

theorem backAsmParam (hv : v.Simulates e Q Fut lvs bs) (p : AsmParam P L L)
    (h : Fut (Id.run (p.visit v s)).2) : Fut s := by
  cases p with
  | const c => exact h
  | sym p => exact h
  | reg dir spec input output =>
    cases input with
    | none =>
      cases output with
      | none => exact h
      | some lv => exact hv.back lv .write h
    | some p =>
      cases output with
      | none => exact hv.backParam .read p h
      | some lv => exact hv.backParam .read p (hv.back lv .write h)

theorem backAsmParams (hv : v.Simulates e Q Fut lvs bs) (ps : List (AsmParam P L L))
    (h : Fut (Id.run (visitAsmParams v s ps)).2) : Fut s := by
  induction ps generalizing s with
  | nil => exact h
  | cons p ps ih => exact hv.backAsmParam p (ih h)

theorem param (hv : v.Simulates e Q Fut lvs bs) {u : ValUsage} {p : Param P L} {x : Param P M}
    (hl : p.lvalues u ⊆ lvs) (hb : p.borrows ⊆ bs) (hQ : Q s t t')
    (hfut : Fut (Id.run (p.visit v u s)).2) (he : p.visit e u t = some (x, t₁)) :
    ∃ t₁', (Id.run (p.visit v u s)).1.visit e u t' = some (x, t₁') ∧
      Q (Id.run (p.visit v u s)).2 t₁ t₁' := by
  cases p with
  | lvalue lv =>
    simp only [Param.visit, bind, pure, Option.bind_eq_some_iff, Option.some.injEq] at he
    obtain ⟨⟨y, t₂⟩, hy, he⟩ := he
    cases he
    obtain ⟨t₁', hy', hQ'⟩ := hv.lvalue (hl List.mem_cons_self) hQ hfut hy
    refine ⟨t₁', ?_, hQ'⟩
    change (e.lvalue t' (Id.run (v.lvalue s lv u)).1 u).bind _ = _
    rw [hy']
    rfl
  | borrow type lv =>
    simp only [Param.visit, bind, pure, Option.bind_eq_some_iff, Option.some.injEq] at he
    obtain ⟨⟨y, t₂⟩, hy, he⟩ := he
    cases he
    obtain ⟨t₁', hy', hQ'⟩ := hv.paramBorrow (hb List.mem_cons_self) hQ hfut hy
    refine ⟨t₁', ?_, hQ'⟩
    change (e.paramBorrow t' (Id.run (v.paramBorrow s lv)).1).bind _ = _
    rw [hy']
    rfl
  | constant c =>
    cases he
    exact ⟨t', rfl, hQ⟩

theorem params (hv : v.Simulates e Q Fut lvs bs) {u : ValUsage} {ps : List (Param P L)}
    {xs : List (Param P M)} (hl : ps.flatMap (Param.lvalues u) ⊆ lvs)
    (hb : ps.flatMap Param.borrows ⊆ bs) (hQ : Q s t t') (hfut : Fut (Id.run (visitParams v u s ps)).2)
    (he : visitParams e u t ps = some (xs, t₁)) :
    ∃ t₁', visitParams e u t' (Id.run (visitParams v u s ps)).1 = some (xs, t₁') ∧
      Q (Id.run (visitParams v u s ps)).2 t₁ t₁' := by
  induction ps generalizing s t t' xs with
  | nil =>
    cases he
    exact ⟨t', rfl, hQ⟩
  | cons p ps ih =>
    simp only [visitParams, bind, pure, Option.bind_eq_some_iff, Option.some.injEq] at he
    obtain ⟨⟨y, t₂⟩, hy, ⟨ys, t₃⟩, hys, he⟩ := he
    cases he
    rw [List.flatMap_cons, List.append_subset] at hl hb
    obtain ⟨t₂', hy', hQ'⟩ := hv.param hl.1 hb.1 hQ (hv.backParams u ps hfut) hy
    obtain ⟨t₁', hys', hQ''⟩ := ih hl.2 hb.2 hQ' hfut hys
    refine ⟨t₁', ?_, hQ''⟩
    change ((Id.run (p.visit v u s)).1.visit e u t').bind _ = _
    rw [hy']
    change (visitParams e u t₂' (Id.run (visitParams v u (Id.run (p.visit v u s)).2 ps)).1).bind _ = _
    rw [hys']
    rfl

theorem named (hv : v.Simulates e Q Fut lvs bs) {u : ValUsage} {ps : List (RcString × L)}
    {xs : List (RcString × M)} (hl : ps.map (fun p => (p.2, u)) ⊆ lvs) (hQ : Q s t t')
    (hfut : Fut (Id.run (visitNamed v u s ps)).2) (he : visitNamed e u t ps = some (xs, t₁)) :
    ∃ t₁', visitNamed e u t' (Id.run (visitNamed v u s ps)).1 = some (xs, t₁') ∧
      Q (Id.run (visitNamed v u s ps)).2 t₁ t₁' := by
  induction ps generalizing s t t' xs with
  | nil =>
    cases he
    exact ⟨t', rfl, hQ⟩
  | cons p ps ih =>
    simp only [visitNamed, bind, pure, Option.bind_eq_some_iff, Option.some.injEq] at he
    obtain ⟨⟨y, t₂⟩, hy, ⟨ys, t₃⟩, hys, he⟩ := he
    cases he
    rw [List.map_cons, List.cons_subset] at hl
    obtain ⟨t₂', hy', hQ'⟩ := hv.lvalue hl.1 hQ (hv.backNamed u ps hfut) hy
    obtain ⟨t₁', hys', hQ''⟩ := ih hl.2 hQ' hfut hys
    refine ⟨t₁', ?_, hQ''⟩
    change (e.lvalue t' (Id.run (v.lvalue s p.2 u)).1 u).bind _ = _
    rw [hy']
    change (visitNamed e u t₂' (Id.run (visitNamed v u (Id.run (v.lvalue s p.2 u)).2 ps)).1).bind _ = _
    rw [hys']
    rfl

theorem rvalue (hv : v.Simulates e Q Fut lvs bs) {rv : RValue T P L} {x : RValue T P M}
    (hl : rv.lvalues ⊆ lvs) (hb : rv.paramBorrows ⊆ bs) (hQ : Q s t t')
    (hfut : Fut (Id.run (rv.visit v s)).2) (he : rv.visit e t = some (x, t₁)) :
    ∃ t₁', (Id.run (rv.visit v s)).1.visit e t' = some (x, t₁') ∧
      Q (Id.run (rv.visit v s)).2 t₁ t₁' := by
  cases rv with
  | constant c =>
    cases he
    exact ⟨t', rfl, hQ⟩
  | use lv | borrow type lv | cast lv type | uniOp lv op | dstMeta lv | dstPtr lv =>
    simp only [RValue.visit, bind, pure, Option.bind_eq_some_iff, Option.some.injEq] at he
    obtain ⟨⟨y, t₂⟩, hy, he⟩ := he
    cases he
    obtain ⟨t₁', hy', hQ'⟩ := hv.lvalue (hl List.mem_cons_self) hQ hfut hy
    refine ⟨t₁', ?_, hQ'⟩
    change (e.lvalue t' (Id.run (v.lvalue s lv _)).1 _).bind _ = _
    rw [hy']
    rfl
  | sizedArray val count | unionVariant path index val =>
    simp only [RValue.visit, bind, pure, Option.bind_eq_some_iff, Option.some.injEq] at he
    obtain ⟨⟨y, t₂⟩, hy, he⟩ := he
    cases he
    obtain ⟨t₁', hy', hQ'⟩ := hv.param hl hb hQ hfut hy
    refine ⟨t₁', ?_, hQ'⟩
    change ((Id.run (val.visit v _ s)).1.visit e _ t').bind _ = _
    rw [hy']
    rfl
  | binOp l op r =>
    simp only [RValue.visit, bind, pure, Option.bind_eq_some_iff, Option.some.injEq] at he
    obtain ⟨⟨y, t₂⟩, hy, ⟨z, t₃⟩, hz, he⟩ := he
    cases he
    rw [RValue.lvalues, List.append_subset] at hl
    rw [RValue.paramBorrows, List.append_subset] at hb
    obtain ⟨t₂', hy', hQ'⟩ := hv.param hl.1 hb.1 hQ (hv.backParam .read r hfut) hy
    obtain ⟨t₁', hz', hQ''⟩ := hv.param hl.2 hb.2 hQ' hfut hz
    refine ⟨t₁', ?_, hQ''⟩
    change ((Id.run (l.visit v _ s)).1.visit e _ t').bind _ = _
    rw [hy']
    change ((Id.run (r.visit v _ (Id.run (l.visit v _ s)).2)).1.visit e _ t₂').bind _ = _
    rw [hz']
    rfl
  | makeDst l r =>
    simp only [RValue.visit, bind, pure, Option.bind_eq_some_iff, Option.some.injEq] at he
    obtain ⟨⟨y, t₂⟩, hy, ⟨z, t₃⟩, hz, he⟩ := he
    cases he
    rw [RValue.lvalues, List.append_subset] at hl
    rw [RValue.paramBorrows, List.append_subset] at hb
    obtain ⟨t₂', hy', hQ'⟩ := hv.param hl.1 hb.1 hQ (hv.backParam .read r hfut) hy
    obtain ⟨t₁', hz', hQ''⟩ := hv.param hl.2 hb.2 hQ' hfut hz
    refine ⟨t₁', ?_, hQ''⟩
    change ((Id.run (l.visit v _ s)).1.visit e _ t').bind _ = _
    rw [hy']
    change ((Id.run (r.visit v _ (Id.run (l.visit v _ s)).2)).1.visit e _ t₂').bind _ = _
    rw [hz']
    rfl
  | tuple vals | array vals | enumVariant path index vals | struct_ path vals =>
    simp only [RValue.visit, bind, pure, Option.bind_eq_some_iff, Option.some.injEq] at he
    obtain ⟨⟨ys, t₂⟩, hys, he⟩ := he
    cases he
    obtain ⟨t₁', hys', hQ'⟩ := hv.params hl hb hQ hfut hys
    refine ⟨t₁', ?_, hQ'⟩
    change (visitParams e _ t' (Id.run (visitParams v _ s vals)).1).bind _ = _
    rw [hys']
    rfl

theorem callTarget (hv : v.Simulates e Q Fut lvs bs) {c : CallTarget T P L} {x : CallTarget T P M}
    (hl : c.lvalues ⊆ lvs) (hQ : Q s t t') (hfut : Fut (Id.run (c.visit v s)).2)
    (he : c.visit e t = some (x, t₁)) :
    ∃ t₁', (Id.run (c.visit v s)).1.visit e t' = some (x, t₁') ∧ Q (Id.run (c.visit v s)).2 t₁ t₁' := by
  cases c with
  | value lv =>
    simp only [CallTarget.visit, bind, pure, Option.bind_eq_some_iff, Option.some.injEq] at he
    obtain ⟨⟨y, t₂⟩, hy, he⟩ := he
    cases he
    obtain ⟨t₁', hy', hQ'⟩ := hv.lvalue (hl List.mem_cons_self) hQ hfut hy
    refine ⟨t₁', ?_, hQ'⟩
    change (e.lvalue t' (Id.run (v.lvalue s lv _)).1 _).bind _ = _
    rw [hy']
    rfl
  | path p | intrinsic name params =>
    cases he
    exact ⟨t', rfl, hQ⟩

end Visitor.Simulates

end Simulates

end Mrustc.Mir
