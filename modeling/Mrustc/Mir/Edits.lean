import Mrustc.Mir.Changes

/-! # Editing lvalues in place

An edit may depend on how an lvalue is used. Where each lvalue is exchanged for one that has the same
value, or the same place where it is written to, the statement does the same.
-/

namespace Mrustc.Mir

open Memory

/-- The visitor that edits each lvalue by itself. Borrowed parameters stay. -/
def edit {L : Type} (f : L → L) : Visitor Id Unit L L where
  lvalue s lv _ := (f lv, s)
  paramBorrow s lv := (lv, s)

/-- The visitor that edits each lvalue by the way it is used. -/
def editUses {L : Type} (f : L → ValUsage → L) : Visitor Id Unit L L where
  lvalue s lv u := (f lv u, s)
  paramBorrow s lv := (lv, s)

section Edited

@[simp] theorem editUses_lvalue {L : Type} (g : L → ValUsage → L) (s : Unit) (lv : L) (u : ValUsage) :
    Id.run ((editUses g).lvalue s lv u) = (g lv u, s) := rfl

@[simp] theorem editUses_paramBorrow {L : Type} (g : L → ValUsage → L) (s : Unit) (lv : L) :
    Id.run ((editUses g).paramBorrow s lv) = (lv, s) := rfl

variable {T P L : Type} {g : L → ValUsage → L} {v : Visitor Option Unit L L}

/-- The visitor edits the lvalues, and keeps the borrowed parameters. -/
structure Visitor.Edits (v : Visitor Option Unit L L) (g : L → ValUsage → L)
    (lvs : List (L × ValUsage)) : Prop where
  lvalue {lv : L} {u : ValUsage} (h : (lv, u) ∈ lvs) : v.lvalue () lv u = some (g lv u, ())
  paramBorrow (lv : L) : v.paramBorrow () lv = some (lv, ())

namespace Visitor.Edits

theorem sub {lvs lvs' : List (L × ValUsage)} (h : v.Edits g lvs) (hsub : lvs' ⊆ lvs) : v.Edits g lvs' :=
  ⟨fun hlv => h.lvalue (hsub hlv), h.paramBorrow⟩

theorem param {u : ValUsage} {p : Param P L} (h : v.Edits g (p.lvalues u)) :
    p.visit v u () = some (Id.run (p.visit (editUses g) u ())) := by
  cases p with
  | lvalue lv => simp [Param.visit, h.lvalue List.mem_cons_self]
  | borrow type lv => simp [Param.visit, h.paramBorrow]
  | constant c => rfl

theorem params {u : ValUsage} {ps : List (Param P L)} (h : v.Edits g (ps.flatMap (Param.lvalues u))) :
    visitParams v u () ps = some (Id.run (visitParams (editUses g) u () ps)) := by
  induction ps with
  | nil => rfl
  | cons p ps ih =>
    rw [List.flatMap_cons] at h
    have hp := (h.sub (List.subset_append_left _ _)).param
    have hps := ih (h.sub (List.subset_append_right _ _))
    simp [visitParams, hp, hps]

theorem rvalue {rv : RValue T P L} (h : v.Edits g rv.lvalues) :
    rv.visit v () = some (Id.run (rv.visit (editUses g) ())) := by
  cases rv with
  | constant c => rfl
  | use lv | borrow type lv | cast lv type | uniOp lv op | dstMeta lv | dstPtr lv =>
    simp [RValue.visit, h.lvalue List.mem_cons_self]
  | sizedArray val count => simp [RValue.visit, param h]
  | unionVariant path index val => simp [RValue.visit, param h]
  | binOp l op r =>
    have hl := (h.sub (List.subset_append_left _ _)).param
    have hr := (h.sub (List.subset_append_right _ _)).param
    simp [RValue.visit, hl, hr]
  | makeDst l r =>
    have hl := (h.sub (List.subset_append_left _ _)).param
    have hr := (h.sub (List.subset_append_right _ _)).param
    simp [RValue.visit, hl, hr]
  | tuple vals | array vals | enumVariant path index vals | struct_ path vals =>
    simp [RValue.visit, params h]

theorem named {u : ValUsage} {xs : List (Hir.RcString × L)} (h : v.Edits g (xs.map fun x => (x.2, u))) :
    visitNamed v u () xs = some (Id.run (visitNamed (editUses g) u () xs)) := by
  induction xs with
  | nil => rfl
  | cons x xs ih =>
    have hx := h.lvalue List.mem_cons_self
    have hxs := ih (h.sub (List.subset_cons_self _ _))
    simp [visitNamed, hx, hxs]

theorem asmParam {p : AsmParam P L L} (h : v.Edits g p.lvalues) :
    p.visit v () = some (Id.run (p.visit (editUses g) ())) := by
  cases p with
  | const c | sym p => rfl
  | reg dir spec input output =>
    have hin := h.sub (List.subset_append_left _ _)
    have hout := h.sub (List.subset_append_right _ _)
    cases input with
    | none =>
      cases output with
      | none => rfl
      | some lv => simp [AsmParam.visit, hout.lvalue List.mem_cons_self]
    | some p =>
      have hp := param hin
      cases output with
      | none => simp [AsmParam.visit, hp]
      | some lv => simp [AsmParam.visit, hp, hout.lvalue List.mem_cons_self]

theorem asmParams {ps : List (AsmParam P L L)} (h : v.Edits g (ps.flatMap AsmParam.lvalues)) :
    visitAsmParams v () ps = some (Id.run (visitAsmParams (editUses g) () ps)) := by
  induction ps with
  | nil => rfl
  | cons p ps ih =>
    rw [List.flatMap_cons] at h
    have hp := (h.sub (List.subset_append_left _ _)).asmParam
    have hps := ih (h.sub (List.subset_append_right _ _))
    simp [visitAsmParams, hp, hps]

/-- A visit that edits every lvalue gives what the edit gives. -/
theorem statement {st : Statement T P L} (h : v.Edits g st.lvalues) :
    st.visit v () = some (Id.run (st.visit (editUses g) ())) := by
  cases st with
  | assign dst src =>
    have hsrc := (h.sub (List.subset_append_left _ _)).rvalue
    have hdst := h.lvalue (List.mem_append_right _ List.mem_cons_self)
    simp [Statement.visit, hsrc, hdst]
  | asm tpl outputs inputs clobbers flags =>
    have hin := (h.sub (List.subset_append_left _ _)).named
    have hout := (h.sub (List.subset_append_right _ _)).named
    simp [Statement.visit, hin, hout]
  | asm2 options lines params => simp [Statement.visit, asmParams h]
  | drop kind slot flagIdx => simp [Statement.visit, h.lvalue List.mem_cons_self]
  | setDropFlag _ _ _ | scopeEnd _ => rfl

end Visitor.Edits

def edited (g : L → ValUsage → L) (x : L × ValUsage) : L × ValUsage := (g x.1 x.2, x.2)

theorem Param.lvalues_edited {u : ValUsage} (p : Param P L) :
    (Id.run (p.visit (editUses g) u ())).1.lvalues u = (p.lvalues u).map (edited g) := by
  cases p <;> rfl

theorem lvalues_editedParams {u : ValUsage} (ps : List (Param P L)) :
    (Id.run (visitParams (editUses g) u () ps)).1.flatMap (Param.lvalues u) =
      (ps.flatMap (Param.lvalues u)).map (edited g) := by
  induction ps with
  | nil => rfl
  | cons p ps ih =>
    change (Id.run (p.visit (editUses g) u ())).1.lvalues u ++
      (Id.run (visitParams (editUses g) u () ps)).1.flatMap (Param.lvalues u) = _
    rw [ih, p.lvalues_edited, List.flatMap_cons, List.map_append]

theorem RValue.lvalues_edited (rv : RValue T P L) :
    (Id.run (rv.visit (editUses g) ())).1.lvalues = rv.lvalues.map (edited g) := by
  cases rv with
  | binOp l op r =>
    change (Id.run (l.visit (editUses g) .read ())).1.lvalues .read ++
      (Id.run (r.visit (editUses g) .read ())).1.lvalues .read = _
    rw [l.lvalues_edited, r.lvalues_edited, RValue.lvalues, List.map_append]
  | makeDst l r =>
    change (Id.run (l.visit (editUses g) .move ())).1.lvalues .move ++
      (Id.run (r.visit (editUses g) .read ())).1.lvalues .read = _
    rw [l.lvalues_edited, r.lvalues_edited, RValue.lvalues, List.map_append]
  | sizedArray val count => exact val.lvalues_edited
  | unionVariant path index val => exact val.lvalues_edited
  | tuple vals | array vals | enumVariant path index vals | struct_ path vals =>
    exact lvalues_editedParams vals
  | _ => rfl

theorem lvalues_editedNamed {u : ValUsage} (xs : List (Hir.RcString × L)) :
    (Id.run (visitNamed (editUses g) u () xs)).1.map (fun x => (x.2, u)) =
      (xs.map fun x => (x.2, u)).map (edited g) := by
  induction xs with
  | nil => rfl
  | cons x xs ih => exact congrArg ((g x.2 u, u) :: ·) ih

theorem AsmParam.lvalues_edited (p : AsmParam P L L) :
    (Id.run (p.visit (editUses g) ())).1.lvalues = p.lvalues.map (edited g) := by
  cases p with
  | const c | sym p => rfl
  | reg dir spec input output =>
    cases input with
    | none => cases output <;> rfl
    | some p => cases p <;> cases output <;> rfl

theorem lvalues_editedAsmParams (ps : List (AsmParam P L L)) :
    (Id.run (visitAsmParams (editUses g) () ps)).1.flatMap AsmParam.lvalues =
      (ps.flatMap AsmParam.lvalues).map (edited g) := by
  induction ps with
  | nil => rfl
  | cons p ps ih =>
    change (Id.run (p.visit (editUses g) ())).1.lvalues ++
      (Id.run (visitAsmParams (editUses g) () ps)).1.flatMap AsmParam.lvalues = _
    rw [ih, p.lvalues_edited, List.flatMap_cons, List.map_append]

theorem Statement.lvalues_edited (st : Statement T P L) :
    (Id.run (st.visit (editUses g) ())).1.lvalues = st.lvalues.map (edited g) := by
  cases st with
  | assign dst src =>
    change (Id.run (src.visit (editUses g) ())).1.lvalues ++ [(g dst .write, .write)] = _
    rw [src.lvalues_edited, Statement.lvalues, List.map_append]
    rfl
  | asm tpl outputs inputs clobbers flags =>
    change (Id.run (visitNamed (editUses g) .read () inputs)).1.map (fun x => (x.2, ValUsage.read)) ++
      (Id.run (visitNamed (editUses g) .write () outputs)).1.map (fun x => (x.2, ValUsage.write)) = _
    rw [lvalues_editedNamed, lvalues_editedNamed, Statement.lvalues, List.map_append]
  | asm2 options lines params => exact lvalues_editedAsmParams params
  | setDropFlag _ _ _ | drop _ _ _ | scopeEnd _ => rfl

theorem editedParams_of_fixed {u : ValUsage} {ps : List (Param P L)} (h : ∀ lv, g lv u = lv) :
    (Id.run (visitParams (editUses g) u () ps)).1 = ps := by
  induction ps with
  | nil => rfl
  | cons p ps ih =>
    have hp : (Id.run (p.visit (editUses g) u ())).1 = p := by
      cases p with
      | lvalue lv => exact congrArg Param.lvalue (h lv)
      | borrow type lv | constant c => rfl
    change (Id.run (p.visit (editUses g) u ())).1 :: (Id.run (visitParams (editUses g) u () ps)).1 = _
    rw [hp, ih]

end Edited

namespace Interp

variable {T P B K π E : Type} [Contents K π] {I : Interp T P B K π E} {F : Frame T P B}
  {f : LValue P → LValue P} {g : LValue P → ValUsage → LValue P} {m m₁ : B → K} {s s₁ : State B K} {st : Statement T P (LValue P)}
  {ev : Event T P B K π E} {lv : LValue P} {u : ValUsage} {v : K}

/-- The edited lvalues have types and the places that the lvalues have. -/
structure SamePlaces (I : Interp T P B K π E) (F : Frame T P B) (f : LValue P → LValue P) (m : B → K)
    (lvs : List (LValue P × ValUsage)) : Prop where
  typed {lv : LValue P} {u : ValUsage} (h : (lv, u) ∈ lvs) : (F.lvalueType lv).isSome = true
  editedTyped {lv : LValue P} {u : ValUsage} {pl : Place B π} (h : (lv, u) ∈ lvs)
    (hpl : I.place F m lv = some pl) : (F.lvalueType (f lv)).isSome = true
  place {lv : LValue P} {u : ValUsage} {pl : Place B π} (h : (lv, u) ∈ lvs)
    (hpl : I.place F m lv = some pl) : I.place F m (f lv) = some pl

theorem SamePlaces.sub {lvs lvs' : List (LValue P × ValUsage)} (h : SamePlaces I F f m lvs)
    (hsub : lvs' ⊆ lvs) : SamePlaces I F f m lvs' :=
  ⟨fun hlv => h.typed (hsub hlv), fun hlv => h.editedTyped (hsub hlv), fun hlv => h.place (hsub hlv)⟩

variable [DecidableEq B]

theorem operand_edit {lvs : List (LValue P × ValUsage)} (hF : ∀ t, F.typeIsCopy t = true)
    (h : SamePlaces I F f m lvs) (hlv : (lv, u) ∈ lvs) (he : I.operand F m lv u = some (v, m₁)) :
    I.operand F m (f lv) u = some (v, m) ∧ m₁ = m := by
  obtain rfl := operand_copies hF (h.typed hlv) he
  refine ⟨?_, rfl⟩
  cases u with
  | move =>
    obtain ⟨pl, hpl, hv, -⟩ := operand_move_eq_some.mp he
    obtain ⟨t, ht⟩ := Option.isSome_iff_exists.mp (h.editedTyped hlv hpl)
    have hcopy : F.lvalueIsCopy (f lv) = true := Frame.lvalueIsCopy_eq_true.mpr ⟨t, ht, hF t⟩
    exact operand_move_eq_some.mpr ⟨pl, h.place hlv hpl, hv, by rw [if_pos hcopy]⟩
  | read =>
    obtain ⟨pl, hpl, hv, -⟩ := operand_read_eq_some.mp he
    exact operand_read_eq_some.mpr ⟨pl, h.place hlv hpl, hv, rfl⟩
  | borrow =>
    obtain ⟨pl, hpl, hv, -⟩ := operand_borrow_eq_some.mp he
    exact operand_borrow_eq_some.mpr ⟨pl, h.place hlv hpl, hv, rfl⟩
  | write => cases he

/-- The edited lvalues have the values and the places that the lvalues have, and reading one leaves the
memory as it is. -/
structure SameOperands (I : Interp T P B K π E) (F : Frame T P B) (g : LValue P → ValUsage → LValue P)
    (m : B → K) (lvs : List (LValue P × ValUsage)) : Prop where
  operand {lv : LValue P} {u : ValUsage} {v : K} {m₁ : B → K} (h : (lv, u) ∈ lvs)
    (he : I.operand F m lv u = some (v, m₁)) : I.operand F m (g lv u) u = some (v, m) ∧ m₁ = m
  written {lv : LValue P} {pl : Place B π} (h : (lv, .write) ∈ lvs) (hpl : I.place F m lv = some pl) :
    I.place F m (g lv .write) = some pl

theorem SameOperands.sub {lvs lvs' : List (LValue P × ValUsage)} (h : SameOperands I F g m lvs)
    (hsub : lvs' ⊆ lvs) : SameOperands I F g m lvs' :=
  ⟨fun hlv => h.operand (hsub hlv), fun hlv => h.written (hsub hlv)⟩

theorem SamePlaces.sameOperands {lvs : List (LValue P × ValUsage)} (h : SamePlaces I F f m lvs)
    (hF : ∀ t, F.typeIsCopy t = true) : SameOperands I F (fun lv _ => f lv) m lvs :=
  ⟨fun hlv he => operand_edit hF h hlv he, fun hlv hpl => h.place hlv hpl⟩

theorem editUses_simulates {lvs : List (LValue P × ValUsage)} (h : SameOperands I F g m lvs)
    (bs : List (LValue P)) :
    (editUses g).Simulates (I.operands F) (fun _ t t' => t = m ∧ t' = m) (fun _ => True) lvs bs where
  back _ _ _ := trivial
  backBorrow _ _ := trivial
  lvalue := by
    rintro _ t t₁ _ lv u x hlv ⟨rfl, rfl⟩ - he
    obtain ⟨he', hm⟩ := h.operand hlv he
    exact ⟨_, he', hm, rfl⟩
  paramBorrow := by
    rintro _ t t₁ _ lv x - ⟨rfl, rfl⟩ - he
    obtain ⟨pl, hpl, hv, rfl⟩ := operand_borrow_eq_some.mp he
    exact ⟨_, he, rfl, rfl⟩

theorem rvalue_editUses {rv : RValue T P (LValue P)} {x : RValue T P K}
    (h : SameOperands I F g m rv.lvalues) (he : rv.visit (I.operands F) m = some (x, m₁)) :
    (Id.run (rv.visit (editUses g) ())).1.visit (I.operands F) m = some (x, m) ∧ m₁ = m := by
  obtain ⟨m₁', he', hm, rfl⟩ := (editUses_simulates h rv.paramBorrows).rvalue (List.Subset.refl _)
    (List.Subset.refl _) (s := ()) ⟨rfl, rfl⟩ trivial he
  exact ⟨he', hm⟩

theorem asmInput_editUses {p : AsmParam P (LValue P) (LValue P)} {x : AsmParam P K Unit}
    (h : SameOperands I F g m p.lvalues)
    (he : I.asmInput F m p = some x) :
    I.asmInput F m (Id.run (p.visit (editUses g) ())).1 = some x := by
  cases p with
  | const c | sym p => exact he
  | reg dir spec input output =>
    cases input with
    | none => cases output <;> exact he
    | some input =>
      simp only [asmInput, bind, pure, Option.bind_eq_some_iff, Option.some.injEq] at he
      obtain ⟨⟨y, m₁⟩, hy, rfl⟩ := he
      obtain ⟨m₁', hy', -, rfl⟩ := (editUses_simulates h input.borrows).param (List.subset_append_left _ _)
        (List.Subset.refl _) (s := ()) ⟨rfl, rfl⟩ trivial hy
      cases output with
      | none | some output =>
        change ((Id.run (input.visit (editUses g) .read ())).1.visit (I.operands F) .read m₁').bind _ = _
        rw [hy']
        rfl

omit [DecidableEq B] in
theorem asmOutput_editUses (p : AsmParam P (LValue P) (LValue P)) :
    asmOutput (Id.run (p.visit (editUses g) ())).1 = (asmOutput p).map (g · .write) := by
  cases p with
  | const c | sym p => rfl
  | reg dir spec input output => cases input <;> cases output <;> rfl

omit [DecidableEq B] in
theorem visitAsmParams_editUses (ps : List (AsmParam P (LValue P) (LValue P))) :
    (Id.run (visitAsmParams (editUses g) () ps)).1 = ps.map fun p => (Id.run (p.visit (editUses g) ())).1 := by
  induction ps with
  | nil => rfl
  | cons p ps ih => exact congrArg ((Id.run (p.visit (editUses g) ())).1 :: ·) ih

omit [DecidableEq B] in
theorem visitNamed_editUses (xs : List (Hir.RcString × LValue P)) :
    (Id.run (visitNamed (editUses g) u () xs)).1 = xs.map fun x => (x.1, g x.2 u) := by
  induction xs with
  | nil => rfl
  | cons x xs ih => exact congrArg ((x.1, g x.2 u) :: ·) ih

omit [DecidableEq B] [Contents K π] in
theorem mapM_map_eq_some {α β γ : Type} {g : α → Option β} {g' : γ → Option β} {h : α → γ} {xs : List α}
    {ys : List β} (hg : ∀ x ∈ xs, ∀ y, g x = some y → g' (h x) = some y) (he : xs.mapM g = some ys) :
    (xs.map h).mapM g' = some ys := by
  rw [List.mapM_map]
  exact mapM_eq_some hg he

/-- An edited statement does the same. -/
theorem step_editUses (h : SameOperands I F g s.mem st.lvalues)
    (he : I.step F s st = some (ev, s₁)) :
    I.step F s (Id.run (st.visit (editUses g) ())).1 = some (ev, s₁) := by
  cases st with
  | assign dst src =>
    simp only [step, bind, pure, Option.bind_eq_some_iff, Option.some.injEq, Prod.mk.injEq] at he
    obtain ⟨⟨rv, mr⟩, hrv, v, hv, pl, hpl, rfl, rfl⟩ := he
    obtain ⟨hrv', hm⟩ := rvalue_editUses (h.sub (List.subset_append_left _ _)) hrv
    obtain rfl : mr = s.mem := hm
    have hpl' := h.written (List.mem_append_right _ List.mem_cons_self) hpl
    change I.step F s (.assign (g dst .write) (Id.run (src.visit (editUses g) ())).1) = _
    simp only [step, bind, pure, Option.bind_eq_some_iff, Option.some.injEq, Prod.mk.injEq]
    exact ⟨(rv, s.mem), hrv', v, hv, pl, hpl', rfl, rfl⟩
  | asm tpl outputs inputs clobbers flags =>
    simp only [step, bind, pure, Option.bind_eq_some_iff, Option.some.injEq, Prod.mk.injEq] at he
    obtain ⟨⟨ins, mr⟩, hins, pls, hpls, ⟨⟨e, vs⟩, ma⟩, ha, mo, hmo, rfl, rfl⟩ := he
    obtain ⟨mr', hins', hm, rfl⟩ := (editUses_simulates (h.sub (List.subset_append_left _ _)) []).named
      (List.Subset.refl _) (s := ()) ⟨rfl, rfl⟩ trivial hins
    obtain rfl : mr = s.mem := hm
    have hpls' : (outputs.map fun x => (x.1, g x.2 .write)).mapM (fun o => I.place F s.mem o.2) = some pls :=
      mapM_map_eq_some (fun o ho pl hpl => h.written (List.mem_append_right _
        (List.mem_map_of_mem (f := fun v => (v.2, ValUsage.write)) ho)) hpl) hpls
    change I.step F s (.asm tpl (Id.run (visitNamed (editUses g) .write () outputs)).1
      (Id.run (visitNamed (editUses g) .read () inputs)).1 clobbers flags) = _
    rw [visitNamed_editUses outputs]
    simp only [step, bind, pure, Option.bind_eq_some_iff, Option.some.injEq, Prod.mk.injEq]
    have hnames : (outputs.map fun x => (x.1, g x.2 .write)).map Prod.fst = outputs.map Prod.fst := by simp
    rw [hnames]
    exact ⟨(ins, s.mem), hins', pls, hpls', ((e, vs), ma), ha, mo, hmo, rfl, rfl⟩
  | asm2 options lines params =>
    simp only [step, bind, pure, Option.bind_eq_some_iff, Option.some.injEq, Prod.mk.injEq] at he
    obtain ⟨ins, hins, pls, hpls, ⟨⟨e, vs⟩, ma⟩, ha, mo, hmo, rfl, rfl⟩ := he
    have hsub : ∀ p ∈ params, p.lvalues ⊆ (Statement.asm2 (T := T) options lines params).lvalues :=
      fun p hp x hx => List.mem_flatMap.mpr ⟨p, hp, hx⟩
    have hins' : (params.map fun p => (Id.run (p.visit (editUses g) ())).1).mapM (I.asmInput F s.mem) =
        some ins :=
      mapM_map_eq_some (fun p hp x hx => asmInput_editUses (h.sub (hsub p hp)) hx) hins
    have hpls' : ((params.map fun p => (Id.run (p.visit (editUses g) ())).1).filterMap asmOutput).mapM
        (I.place F s.mem) = some pls := by
      have houts : (params.map fun p => (Id.run (p.visit (editUses g) ())).1).filterMap asmOutput =
          (params.filterMap asmOutput).map (g · .write) := by
        simp only [List.filterMap_map, Function.comp_def, asmOutput_editUses, List.map_filterMap]
      rw [houts]
      refine mapM_map_eq_some (fun lv hlv pl hpl => ?_) hpls
      obtain ⟨p, hp, hplv⟩ := List.mem_filterMap.mp hlv
      exact h.written (hsub p hp (mem_asmParam_lvalues hplv)) hpl
    change I.step F s (.asm2 options lines (Id.run (visitAsmParams (editUses g) () params)).1) = _
    rw [visitAsmParams_editUses]
    simp only [step, bind, pure, Option.bind_eq_some_iff, Option.some.injEq, Prod.mk.injEq]
    exact ⟨ins, hins', pls, hpls', ((e, vs), ma), ha, mo, hmo, rfl, rfl⟩
  | setDropFlag idx newVal other => exact he
  | drop kind slot flagIdx =>
    change I.step F s (.drop kind (g slot .write) flagIdx) = _
    simp only [step] at he ⊢
    by_cases hf : flagIdx.elim true s.flags = true
    · rw [if_pos hf] at he ⊢
      simp only [bind, pure, Option.bind_eq_some_iff, Option.some.injEq, Prod.mk.injEq] at he ⊢
      obtain ⟨pl, hpl, r, hr, rfl, rfl⟩ := he
      exact ⟨pl, h.written List.mem_cons_self hpl, r, hr, rfl, rfl⟩
    · rw [if_neg hf] at he ⊢
      exact he
  | scopeEnd slots => exact he

theorem leave_editUses {t : Terminator T P (LValue P)} {exit : Exit T P B K π}
    (h : SameOperands I F g s.mem t.lvalues)
    (he : I.leave F s t = some (exit, s₁)) :
    I.leave F s (Id.run (t.visit (editUses g) ())).1 = some (exit, s₁) := by
  cases t with
  | if_ lv _ _ | switch lv _ | switchValue lv _ _ _ =>
    simp only [leave, bind, pure, Option.bind_eq_some_iff, Option.some.injEq] at he
    obtain ⟨⟨x, m₁⟩, hx, he⟩ := he
    cases he
    obtain ⟨hx', -⟩ := h.operand List.mem_cons_self hx
    change (I.operand F s.mem (g lv .read) .read).bind _ = _
    rw [hx']
    rfl
  | call retBlock panicBlock retVal fcn args =>
    simp only [leave, bind, pure, Option.bind_eq_some_iff, Option.some.injEq] at he
    obtain ⟨⟨x, m₁⟩, hx, ⟨xs, m₂⟩, hxs, pl, hpl, he⟩ := he
    have hcall := h.sub (List.subset_append_left _ _)
    obtain ⟨m₁', hx', hm₁, rfl⟩ := (editUses_simulates (hcall.sub (List.subset_append_left _ _))
      []).callTarget (List.Subset.refl _) (s := ()) ⟨rfl, rfl⟩ trivial hx
    obtain rfl : m₁ = s.mem := hm₁
    obtain ⟨m₂', hxs', hm₂, rfl⟩ := (editUses_simulates (hcall.sub (List.subset_append_right _ _))
      (args.flatMap Param.borrows)).params (List.Subset.refl _) (List.Subset.refl _) (s := ())
      ⟨rfl, rfl⟩ trivial hxs
    obtain rfl : m₂ = s.mem := hm₂
    change I.leave F s (.call retBlock panicBlock (g retVal .write) (Id.run (fcn.visit (editUses g) ())).1
      (Id.run (visitParams (editUses g) .move () args)).1) = _
    simp only [leave, bind, pure, Option.bind_eq_some_iff, Option.some.injEq]
    exact ⟨_, hx', _, hxs', pl, h.written (List.mem_append_right _ List.mem_cons_self) hpl, he⟩
  | incomplete | return_ | diverge | goto bb | panic dst => exact he

end Interp

end Mrustc.Mir
