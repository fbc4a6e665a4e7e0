import Mrustc.Mir.Cfg

/-! # Rewriting all lvalues

A visitor without a state that may fail. It succeeds where all lvalues are rewritten, and what it makes of
the lvalues can be read off the result.
-/

namespace Mrustc.Mir

variable {T P L α β ρ : Type}

/-- The visitor that rewrites lvalues with `f`, and those of borrowed parameters with `g`. -/
def onLvalues (f g : L → Option L) : Visitor Option Unit L L where
  lvalue s lv _ := (f lv).map (·, s)
  paramBorrow s lv := (g lv).map (·, s)

/-- The visit rewrites the lvalues `lvs` and `bs` of `a`, and nothing else. -/
structure Traverses (visit : Visitor Option Unit L L → Unit → Option (α × Unit)) (lvs bs : α → List L)
    (a : α) : Prop where
  congr {f f' g g' : L → Option L} (hf : ∀ lv ∈ lvs a, f lv = f' lv) (hg : ∀ lv ∈ bs a, g lv = g' lv) :
    visit (onLvalues f g) () = visit (onLvalues f' g') ()
  succeeds {f g : L → Option L} (hf : ∀ lv ∈ lvs a, ∃ lv', f lv = some lv')
    (hg : ∀ lv ∈ bs a, ∃ lv', g lv = some lv') : ∃ a', visit (onLvalues f g) () = some (a', ())
  lvalues {f g : L → Option L} {a' : α} (h : visit (onLvalues f g) () = some (a', ())) :
    (lvs a).mapM f = some (lvs a')
  borrows {f g : L → Option L} {a' : α} (h : visit (onLvalues f g) () = some (a', ())) :
    (bs a).mapM g = some (bs a')

namespace Traverses

variable {va : Visitor Option Unit L L → Unit → Option (α × Unit)}
  {vb : Visitor Option Unit L L → Unit → Option (β × Unit)} {la ba : α → List L} {lb bb : β → List L}
  {p q : ρ → List L} {a : α} {b : β}

theorem pure {r : ρ} (hl : p r = []) (hb : q r = []) : Traverses (fun _ s => some (r, s)) p q r where
  congr _ _ := rfl
  succeeds _ _ := ⟨r, rfl⟩
  lvalues h := by
    obtain rfl := congrArg Prod.fst (Option.some.inj h)
    rw [hl]
    rfl
  borrows h := by
    obtain rfl := congrArg Prod.fst (Option.some.inj h)
    rw [hb]
    rfl

theorem lvalue (u : ValUsage) (lv : L) :
    Traverses (fun v s => v.lvalue s lv u) (fun lv => [lv]) (fun _ => []) lv where
  congr hf _ := by simp [onLvalues, hf lv (List.mem_singleton_self lv)]
  succeeds hf _ := by
    obtain ⟨lv', h⟩ := hf lv (List.mem_singleton_self lv)
    exact ⟨lv', by simp [onLvalues, h]⟩
  lvalues h := by
    obtain ⟨lv', hlv, hr⟩ := Option.map_eq_some_iff.mp h
    obtain rfl := congrArg Prod.fst hr
    simp [hlv]
  borrows _ := rfl

theorem borrow (lv : L) :
    Traverses (fun v s => v.paramBorrow s lv) (fun _ => []) (fun lv => [lv]) lv where
  congr _ hg := by simp [onLvalues, hg lv (List.mem_singleton_self lv)]
  succeeds _ hg := by
    obtain ⟨lv', h⟩ := hg lv (List.mem_singleton_self lv)
    exact ⟨lv', by simp [onLvalues, h]⟩
  lvalues _ := rfl
  borrows h := by
    obtain ⟨lv', hlv, hr⟩ := Option.map_eq_some_iff.mp h
    obtain rfl := congrArg Prod.fst hr
    simp [hlv]

theorem map (C : α → ρ) (h : Traverses va la ba a) (hl : ∀ x, p (C x) = la x) (hb : ∀ x, q (C x) = ba x) :
    Traverses (fun v s => do
      let (x, s) ← va v s
      return (C x, s)) p q (C a) where
  congr hf hg := by
    rw [hl] at hf
    rw [hb] at hg
    dsimp only
    rw [h.congr hf hg]
  succeeds hf hg := by
    rw [hl] at hf
    rw [hb] at hg
    obtain ⟨a', ha⟩ := h.succeeds hf hg
    exact ⟨C a', by simp [ha]⟩
  lvalues hv := by
    obtain ⟨⟨a', u⟩, ha, hr⟩ := Option.bind_eq_some_iff.mp hv
    obtain rfl := congrArg Prod.fst (Option.some.inj hr)
    rw [hl, hl]
    exact h.lvalues ha
  borrows hv := by
    obtain ⟨⟨a', u⟩, ha, hr⟩ := Option.bind_eq_some_iff.mp hv
    obtain rfl := congrArg Prod.fst (Option.some.inj hr)
    rw [hb, hb]
    exact h.borrows ha

theorem mapM_append_eq {α β : Type} {f : α → Option β} {xs ys : List α} {xs' ys' : List β}
    (hx : xs.mapM f = some xs') (hy : ys.mapM f = some ys') : (xs ++ ys).mapM f = some (xs' ++ ys') := by
  simp [List.mapM_append, hx, hy]

/-- One visit after another. -/
theorem map₂ (C : α → β → ρ) (h : Traverses va la ba a) (h' : Traverses vb lb bb b)
    (hl : ∀ x y, p (C x y) = la x ++ lb y) (hb : ∀ x y, q (C x y) = ba x ++ bb y) :
    Traverses (fun v s => do
      let (x, s) ← va v s
      let (y, s) ← vb v s
      return (C x y, s)) p q (C a b) where
  congr hf hg := by
    simp only [hl, hb, List.mem_append] at hf hg
    have hva := h.congr (fun lv hlv => hf lv (.inl hlv)) fun lv hlv => hg lv (.inl hlv)
    have hvb := h'.congr (fun lv hlv => hf lv (.inr hlv)) fun lv hlv => hg lv (.inr hlv)
    dsimp only
    rw [hva]
    exact congrArg _ (funext fun x => congrArg (Option.bind · _) hvb)
  succeeds hf hg := by
    simp only [hl, hb, List.mem_append] at hf hg
    obtain ⟨a', ha⟩ := h.succeeds (fun lv hlv => hf lv (.inl hlv)) fun lv hlv => hg lv (.inl hlv)
    obtain ⟨b', hb⟩ := h'.succeeds (fun lv hlv => hf lv (.inr hlv)) fun lv hlv => hg lv (.inr hlv)
    exact ⟨C a' b', by simp [ha, hb]⟩
  lvalues hv := by
    obtain ⟨⟨a', u⟩, ha, hv⟩ := Option.bind_eq_some_iff.mp hv
    obtain ⟨⟨b', u'⟩, hb', hr⟩ := Option.bind_eq_some_iff.mp hv
    obtain rfl := congrArg Prod.fst (Option.some.inj hr)
    rw [hl, hl]
    exact mapM_append_eq (h.lvalues ha) (h'.lvalues hb')
  borrows hv := by
    obtain ⟨⟨a', u⟩, ha, hv⟩ := Option.bind_eq_some_iff.mp hv
    obtain ⟨⟨b', u'⟩, hb', hr⟩ := Option.bind_eq_some_iff.mp hv
    obtain rfl := congrArg Prod.fst (Option.some.inj hr)
    rw [hb, hb]
    exact mapM_append_eq (h.borrows ha) (h'.borrows hb')

end Traverses

theorem param_traverses (u : ValUsage) (p : Param P L) :
    Traverses (fun v s => p.visit v u s) (fun p => (p.lvalues u).map Prod.fst) Param.borrows p := by
  cases p with
  | lvalue lv => exact (Traverses.lvalue u lv).map Param.lvalue (fun _ => rfl) fun _ => rfl
  | borrow type lv => exact (Traverses.borrow lv).map (Param.borrow type) (fun _ => rfl) fun _ => rfl
  | constant c => exact .pure rfl rfl

theorem params_traverses (u : ValUsage) (ps : List (Param P L)) :
    Traverses (fun v s => visitParams v u s ps)
      (fun ps => (ps.flatMap (Param.lvalues u)).map Prod.fst) (List.flatMap Param.borrows) ps := by
  induction ps with
  | nil => exact .pure rfl rfl
  | cons p ps ih => exact (param_traverses u p).map₂ List.cons ih (by simp) (by simp)

theorem rvalue_traverses (rv : RValue T P L) :
    Traverses (fun v s => rv.visit v s) (fun rv => rv.lvalues.map Prod.fst) RValue.paramBorrows rv := by
  cases rv with
  | use lv => exact (Traverses.lvalue .move lv).map RValue.use (fun _ => rfl) fun _ => rfl
  | borrow type lv =>
    exact (Traverses.lvalue .borrow lv).map (RValue.borrow type) (fun _ => rfl) fun _ => rfl
  | constant c => exact .pure rfl rfl
  | sizedArray val count =>
    exact (param_traverses .read val).map (RValue.sizedArray · count) (fun _ => rfl) fun _ => rfl
  | cast lv type => exact (Traverses.lvalue .read lv).map (RValue.cast · type) (fun _ => rfl) fun _ => rfl
  | binOp l op r =>
    exact (param_traverses .read l).map₂ (RValue.binOp · op ·) (param_traverses .read r)
      (fun _ _ => List.map_append) fun _ _ => rfl
  | uniOp lv op => exact (Traverses.lvalue .read lv).map (RValue.uniOp · op) (fun _ => rfl) fun _ => rfl
  | dstMeta lv => exact (Traverses.lvalue .read lv).map RValue.dstMeta (fun _ => rfl) fun _ => rfl
  | dstPtr lv => exact (Traverses.lvalue .read lv).map RValue.dstPtr (fun _ => rfl) fun _ => rfl
  | makeDst ptrVal metaVal =>
    exact (param_traverses .move ptrVal).map₂ RValue.makeDst (param_traverses .read metaVal)
      (fun _ _ => List.map_append) fun _ _ => rfl
  | tuple vals => exact (params_traverses .move vals).map RValue.tuple (fun _ => rfl) fun _ => rfl
  | array vals => exact (params_traverses .move vals).map RValue.array (fun _ => rfl) fun _ => rfl
  | unionVariant path index val =>
    exact (param_traverses .move val).map (RValue.unionVariant path index) (fun _ => rfl) fun _ => rfl
  | enumVariant path index vals =>
    exact (params_traverses .move vals).map (RValue.enumVariant path index) (fun _ => rfl) fun _ => rfl
  | struct_ path vals =>
    exact (params_traverses .move vals).map (RValue.struct_ path) (fun _ => rfl) fun _ => rfl

theorem named_traverses (u : ValUsage) (xs : List (Hir.RcString × L)) :
    Traverses (fun v s => visitNamed v u s xs) (List.map Prod.snd) (fun _ => []) xs := by
  induction xs with
  | nil => exact .pure rfl rfl
  | cons x xs ih =>
    exact (Traverses.lvalue u x.2).map₂ (p := List.map Prod.snd) (q := fun _ => [])
      (fun lv rest => (x.1, lv) :: rest) ih (fun _ _ => rfl) fun _ _ => rfl

theorem callTarget_traverses (fcn : CallTarget T P L) :
    Traverses (fun v s => fcn.visit v s) (fun fcn => fcn.lvalues.map Prod.fst) (fun _ => []) fcn := by
  cases fcn with
  | value lv => exact (Traverses.lvalue .read lv).map CallTarget.value (fun _ => rfl) fun _ => rfl
  | path p => exact .pure rfl rfl
  | intrinsic name params => exact .pure rfl rfl

theorem asmParam_traverses (p : AsmParam P L L) :
    Traverses (fun v s => p.visit v s) (fun p => p.lvalues.map Prod.fst) AsmParam.borrows p := by
  cases p with
  | const c => exact .pure rfl rfl
  | sym p => exact .pure rfl rfl
  | reg dir spec input output =>
    cases input with
    | none =>
      cases output with
      | none => exact .pure rfl rfl
      | some lv =>
        exact (Traverses.lvalue .write lv).map (fun lv => AsmParam.reg dir spec none (some lv))
          (fun _ => rfl) fun _ => rfl
    | some p =>
      cases output with
      | none =>
        exact (param_traverses .read p).map (p := fun p => p.lvalues.map Prod.fst) (q := AsmParam.borrows)
          (fun p => AsmParam.reg dir spec (some p) none) (by simp [AsmParam.lvalues]) fun _ => rfl
      | some lv =>
        exact (param_traverses .read p).map₂ (p := fun p => p.lvalues.map Prod.fst) (q := AsmParam.borrows)
          (fun p lv => AsmParam.reg dir spec (some p) (some lv)) (Traverses.lvalue .write lv)
          (by simp [AsmParam.lvalues]) (by simp [AsmParam.borrows])

theorem asmParams_traverses (ps : List (AsmParam P L L)) :
    Traverses (fun v s => visitAsmParams v s ps) (fun ps => (ps.flatMap AsmParam.lvalues).map Prod.fst)
      (List.flatMap AsmParam.borrows) ps := by
  induction ps with
  | nil => exact .pure rfl rfl
  | cons p ps ih => exact (asmParam_traverses p).map₂ List.cons ih (by simp) (by simp)

theorem statement_traverses (st : Statement T P L) :
    Traverses (fun v s => st.visit v s) (fun st => st.lvalues.map Prod.fst) Statement.paramBorrows st := by
  cases st with
  | assign dst src =>
    exact (rvalue_traverses src).map₂ (p := fun st => st.lvalues.map Prod.fst)
      (q := Statement.paramBorrows) (fun src dst => Statement.assign dst src) (Traverses.lvalue .write dst)
      (by simp [Statement.lvalues]) (by simp [Statement.paramBorrows])
  | asm tpl outputs inputs clobbers flags =>
    exact (named_traverses .read inputs).map₂ (p := fun st : Statement T P L => st.lvalues.map Prod.fst)
      (q := Statement.paramBorrows) (fun inputs outputs => .asm tpl outputs inputs clobbers flags)
      (named_traverses .write outputs) (by simp [Statement.lvalues, Function.comp_def]) fun _ _ => rfl
  | asm2 options lines params =>
    exact (asmParams_traverses params).map (Statement.asm2 options lines) (fun _ => rfl) fun _ => rfl
  | setDropFlag idx newVal other => exact .pure rfl rfl
  | drop kind slot flagIdx =>
    exact (Traverses.lvalue .write slot).map (Statement.drop kind · flagIdx) (fun _ => rfl) fun _ => rfl
  | scopeEnd slots => exact .pure rfl rfl

theorem terminator_traverses (t : Terminator T P L) :
    Traverses (fun v s => t.visit v s) (fun t => t.lvalues.map Prod.fst) Terminator.paramBorrows t := by
  cases t with
  | if_ cond bbTrue bbFalse =>
    exact (Traverses.lvalue .read cond).map (Terminator.if_ · bbTrue bbFalse) (fun _ => rfl) fun _ => rfl
  | switch val targets =>
    exact (Traverses.lvalue .read val).map (Terminator.switch · targets) (fun _ => rfl) fun _ => rfl
  | switchValue val defTarget targets values =>
    exact (Traverses.lvalue .read val).map (Terminator.switchValue · defTarget targets values)
      (fun _ => rfl) fun _ => rfl
  | call retBlock panicBlock retVal fcn args =>
    have hargs := (params_traverses .move args).map₂
      (p := fun x => (x.1.flatMap (Param.lvalues .move)).map Prod.fst ++ [x.2])
      (q := fun x => x.1.flatMap Param.borrows) Prod.mk (Traverses.lvalue .write retVal) (fun _ _ => rfl)
      (by simp)
    have := (callTarget_traverses fcn).map₂ (p := fun t : Terminator T P L => t.lvalues.map Prod.fst)
      (q := Terminator.paramBorrows) (fun fcn x => .call retBlock panicBlock x.2 fcn x.1) hargs
      (by simp [Terminator.lvalues]) (by simp [Terminator.paramBorrows])
    simpa [Terminator.visit, Option.bind_assoc] using this
  | _ => exact .pure rfl rfl

end Mrustc.Mir
