import Mrustc.Mir.Monotone

/-! # What a statement changes

A step writes to its places, and drop glue and inline assembly change more. Everything else keeps its
contents where moving a value leaves it in place, as the generated code does.
-/

namespace Mrustc.Mir

open Memory

variable {T P B K π E : Type} [Contents K π]

/-- The places that a step writes to. -/
def Event.places : Event T P B K π E → List (Place B π)
  | .assign dst _ _ => [dst]
  | .asm _ outputs _ => outputs.map Prod.fst
  | .asm2 _ outputs _ => outputs.map Prod.fst
  | .drop _ slot _ => [slot]
  | .silent => []

/-- The bases that drop glue or inline assembly looks at in a step. -/
def Interp.touched (I : Interp T P B K π E) (m : B → K) :
    Statement T P (LValue P) → Event T P B K π E → Set B
  | .drop kind _ _, .drop _ pl _ => (I.drop kind pl).touched m
  | .asm tpl outputs _ clobbers flags, .asm ins _ _ =>
    (I.asm tpl ins (outputs.map Prod.fst) clobbers flags).touched m
  | .asm2 options lines _, .asm2 ins _ _ => (I.asm2 options lines ins).touched m
  | _, _ => ∅

/-- The bases that drop glue or inline assembly changes in a step. -/
def Interp.changed (I : Interp T P B K π E) (m : B → K) :
    Statement T P (LValue P) → Event T P B K π E → Set B
  | .drop kind _ _, .drop _ pl _ => (I.drop kind pl).written m
  | .asm tpl outputs _ clobbers flags, .asm ins _ _ =>
    (I.asm tpl ins (outputs.map Prod.fst) clobbers flags).written m
  | .asm2 options lines _, .asm2 ins _ _ => (I.asm2 options lines ins).written m
  | _, _ => ∅

/-- Two events that store the same values in the same places. -/
inductive Event.SameStores : Event T P B K π E → Event T P B K π E → Prop
  | refl (ev : Event T P B K π E) : SameStores ev ev
  | assign (pl : Place B π) (rv rv' : RValue T P K) (v : K) :
    SameStores (.assign pl rv v) (.assign pl rv' v)

def Event.stores : Event T P B K π E → List (Place B π × K)
  | .assign dst _ value => [(dst, value)]
  | .asm _ outputs _ => outputs
  | .asm2 _ outputs _ => outputs
  | _ => []

omit [Contents K π] in
theorem Event.SameStores.stores {ev ev' : Event T P B K π E} (h : ev.SameStores ev') :
    ev.stores = ev'.stores := by
  cases h <;> rfl

omit [Contents K π] in
theorem Event.stores_of_forall₂ {evs evs' : List (Event T P B K π E)}
    (h : List.Forall₂ Event.SameStores evs evs') : evs.flatMap Event.stores = evs'.flatMap Event.stores := by
  induction h with
  | nil => rfl
  | cons h _ ih => rw [List.flatMap_cons, List.flatMap_cons, h.stores, ih]

/-- The frame in which every value can be copied, so that moving one leaves it where it is. -/
def Frame.copying (F : Frame T P B) : Frame T P B :=
  { F with
    typeIsCopy := fun _ => true
    typeIsCopy_unwrap := fun _ _ _ => rfl }

@[simp] theorem Frame.lvalueType_copying (F : Frame T P B) (lv : LValue P) :
    F.copying.lvalueType lv = F.lvalueType lv := rfl

theorem Frame.copying_copies (F : Frame T P B) (t : T) : F.copying.typeIsCopy t = true := rfl

/-- The lvalues have types. -/
def Frame.Types (F : Frame T P B) (lvs : List (LValue P)) : Prop :=
  ∀ lv ∈ lvs, (F.lvalueType lv).isSome = true

/-- The lvalues of a block have types. -/
def BasicBlock.Types (F : Frame T P B) (bb : BasicBlock T P (LValue P)) : Prop :=
  ∀ st ∈ bb.statements, F.Types st.mentioned

instance (bb : BasicBlock T P (LValue P)) : Decidable (bb.Types F) :=
  inferInstanceAs (Decidable (∀ st ∈ bb.statements, ∀ lv ∈ st.mentioned, (F.lvalueType lv).isSome = true))

theorem Param.eq_of_mem_lvalues {lv : LValue P} {p : Param P (LValue P)} {u u' : ValUsage} (h : (lv, u') ∈ p.lvalues u) :
    u' = u := by
  cases p <;> simp_all [Param.lvalues]

/-- An rvalue only reads, moves and borrows. -/
theorem RValue.write_notMem_lvalues {lv : LValue P} {rv : RValue T P (LValue P)} : (lv, .write) ∉ rv.lvalues := by
  have hparam {p : Param P (LValue P)} {u : ValUsage} (hu : u ≠ .write) : (lv, .write) ∉ p.lvalues u :=
    fun h => hu (Param.eq_of_mem_lvalues h).symm
  cases rv <;> simp [RValue.lvalues, hparam]

namespace Interp

variable {I : Interp T P B K π E} {F : Frame T P B} {m m₁ m' : B → K} {lv : LValue P} {pl : Place B π}
  {u : ValUsage} {v : K} {b : B} {s s₁ : State B K} {st : Statement T P (LValue P)}
  {ev : Event T P B K π E}

/-- The bases that an lvalue is read from, or found with. -/
def readFrom (I : Interp T P B K π E) (F : Frame T P B) (m : B → K) (lv : LValue P) : List B :=
  F.base lv.root :: lv.indexLocals.map (fun l => F.base (.local_ l)) ++ I.throughPointers F m lv

theorem place_congr (h : ∀ b ∈ I.readFrom F m lv, m b = m' b) (hpl : I.place F m lv = some pl) :
    I.place F m' lv = some pl ∧ m pl.base = m' pl.base ∧ I.readFrom F m' lv = I.readFrom F m lv := by
  have hroot : m (F.base lv.root) = m' (F.base lv.root) := h _ List.mem_cons_self
  have hreached : ∀ b ∈ I.throughPointers F m lv, m b = m' b := fun b hb =>
    h b (List.mem_cons_of_mem _ (List.mem_append_right _ hb))
  have hindex : ∀ l, .index l ∈ lv.wrappers → m (F.base (.local_ l)) = m' (F.base (.local_ l)) := by
    intro l hl
    apply h
    exact List.mem_cons_of_mem _
      (List.mem_append_left _ (List.mem_map_of_mem (LValue.mem_indexLocals.mpr hl)))
  have hu := unwraps_mono hroot.le (fun l hl => (hindex l hl).le) (fun b hb => (hreached b hb).le) hpl
  refine ⟨hu.1, ?_, ?_⟩
  · by_cases hd : .deref ∈ lv.wrappers
    · exact hreached _ (unwraps_mem_reached hd hpl)
    · rwa [unwraps_base hd hpl]
  · rw [readFrom, readFrom, throughPointers, throughPointers, hu.2]

variable [DecidableEq B]

theorem operand_copies (hF : ∀ t, F.typeIsCopy t = true) (ht : (F.lvalueType lv).isSome = true)
    (h : I.operand F m lv u = some (v, m₁)) : m₁ = m := by
  cases u with
  | move =>
    obtain ⟨pl, -, -, rfl⟩ := operand_move_eq_some.mp h
    obtain ⟨t, ht⟩ := Option.isSome_iff_exists.mp ht
    rw [if_pos (Frame.lvalueIsCopy_eq_true.mpr ⟨t, ht, hF t⟩)]
  | read =>
    obtain ⟨pl, -, -, rfl⟩ := operand_read_eq_some.mp h
    rfl
  | borrow =>
    obtain ⟨pl, -, -, rfl⟩ := operand_borrow_eq_some.mp h
    rfl
  | write => cases h

/-- Reading the operands of an rvalue changes nothing. -/
theorem rvalue_copies {rv : RValue T P (LValue P)} {x : RValue T P K}
    (hF : ∀ t, F.typeIsCopy t = true) (ht : F.Types (rv.lvalues.map Prod.fst))
    (h : rv.visit (I.operands F) m = some (x, m₁)) : m₁ = m := by
  have hkeep : keep.Simulates (I.operands F) (fun _ t t' => t = m ∧ t' = m) (fun _ => True) rv.lvalues
      rv.paramBorrows := {
    back := fun _ _ _ => trivial
    backBorrow := fun _ _ => trivial
    lvalue := by
      rintro _ _ t₁ _ lv u x hlv ⟨rfl, rfl⟩ - he
      have hm : t₁ = _ := operand_copies hF (ht lv (List.mem_map_of_mem hlv)) he
      exact ⟨t₁, he, hm, hm⟩
    paramBorrow := by
      rintro _ _ t₁ _ lv x - ⟨rfl, rfl⟩ - he
      obtain ⟨pl, hpl, hv, rfl⟩ := operand_borrow_eq_some.mp he
      exact ⟨_, he, rfl, rfl⟩ }
  obtain ⟨m₁', -, hm, -⟩ := hkeep.rvalue (List.Subset.refl _) (List.Subset.refl _) (s := ()) ⟨rfl, rfl⟩
    trivial h
  exact hm

theorem step_assign_copies {dst : LValue P} {src : RValue T P (LValue P)}
    (hF : ∀ t, F.typeIsCopy t = true) (ht : F.Types (src.lvalues.map Prod.fst)) :
    I.step F s (.assign dst src) = some (ev, s₁) ↔
      ∃ rv v pl, src.visit (I.operands F) s.mem = some (rv, s.mem) ∧ I.compute rv = some v ∧
        I.place F s.mem dst = some pl ∧ ev = .assign pl rv v ∧
        s₁ = { s with mem := store s.mem pl v } := by
  simp only [step, bind, pure, Option.bind_eq_some_iff, Option.some.injEq, Prod.mk.injEq]
  constructor
  · rintro ⟨⟨rv, m⟩, hrv, v, hv, pl, hpl, rfl, rfl⟩
    obtain rfl : m = s.mem := rvalue_copies hF ht hrv
    exact ⟨rv, v, pl, hrv, hv, hpl, rfl, rfl⟩
  · rintro ⟨rv, v, pl, hrv, hv, hpl, rfl, rfl⟩
    exact ⟨(rv, s.mem), hrv, v, hv, pl, hpl, rfl, rfl⟩

theorem step_use {dst val : LValue P} (ht : (F.lvalueType val).isSome = true) :
    I.step F.copying s (.assign dst (.use val)) = some (ev, s₁) ↔
      ∃ pl' v pl, I.place F.copying s.mem val = some pl' ∧ load s.mem pl' = some v ∧
        I.place F.copying s.mem dst = some pl ∧ ev = .assign pl (.use v) v ∧
        s₁ = { s with mem := store s.mem pl v } := by
  have hcopy : F.copying.lvalueIsCopy val = true := by
    obtain ⟨t, ht⟩ := Option.isSome_iff_exists.mp ht
    exact Frame.lvalueIsCopy_eq_true.mpr ⟨t, ht, rfl⟩
  rw [step_assign_copies F.copying_copies (by simpa [Frame.Types, RValue.lvalues] using ht)]
  simp only [RValue.visit, operands, bind, pure, Option.bind_eq_some_iff, Option.some.injEq,
    Prod.mk.injEq]
  constructor
  · rintro ⟨rv, v, pl, ⟨⟨w, mw⟩, hw, rfl, rfl⟩, hv, hpl, rfl, rfl⟩
    obtain ⟨pl', hpl', hload, -⟩ := operand_move_eq_some.mp hw
    cases hv
    exact ⟨pl', w, pl, hpl', hload, hpl, rfl, rfl⟩
  · rintro ⟨pl', v, pl, hpl', hload, hpl, rfl, rfl⟩
    have hop : I.operand F.copying s.mem val .move = some (v, s.mem) :=
      operand_move_eq_some.mpr ⟨pl', hpl', hload, by rw [if_pos hcopy]⟩
    exact ⟨.use v, v, pl, ⟨(v, s.mem), hop, rfl, rfl⟩, rfl, hpl, rfl, rfl⟩

theorem step_cast {dst val : LValue P} {type : T} (h : I.step F s (.assign dst (.cast val type)) = some (ev, s₁)) :
    ∃ pl' k v pl, I.place F s.mem val = some pl' ∧ load s.mem pl' = some k ∧
      I.rvalue (.cast k type) = some v ∧ I.place F s.mem dst = some pl ∧
      ev = .assign pl (.cast k type) v ∧ s₁ = { s with mem := store s.mem pl v } := by
  simp only [step, RValue.visit, operands, bind, pure, Option.bind_eq_some_iff,
    Option.some.injEq, Prod.mk.injEq] at h
  obtain ⟨⟨rv, mr⟩, ⟨⟨k, mk⟩, hk, rfl, rfl⟩, v, hv, pl, hpl, rfl, rfl⟩ := h
  obtain ⟨pl', hpl', hload, rfl⟩ := operand_read_eq_some.mp hk
  exact ⟨pl', k, v, pl, hpl', hload, hv, hpl, rfl, rfl⟩

theorem step_borrow {dst val : LValue P} {bt : Hir.BorrowType}
    (h : I.step F s (.assign dst (.borrow bt val)) = some (ev, s₁)) :
    ∃ pl' v pl, I.place F s.mem val = some pl' ∧ I.rvalue (.borrow bt (I.address pl')) = some v ∧
      I.place F s.mem dst = some pl ∧ ev = .assign pl (.borrow bt (I.address pl')) v ∧
      s₁ = { s with mem := store s.mem pl v } := by
  simp only [step, RValue.visit, operands, bind, pure, Option.bind_eq_some_iff,
    Option.some.injEq, Prod.mk.injEq] at h
  obtain ⟨⟨rv, mr⟩, ⟨⟨k, mk⟩, hk, rfl, rfl⟩, v, hv, pl, hpl, rfl, rfl⟩ := h
  obtain ⟨pl', hpl', rfl, rfl⟩ := operand_borrow_eq_some.mp hk
  exact ⟨pl', v, pl, hpl', hv, hpl, rfl, rfl⟩

omit [Contents K π] [DecidableEq B] in
theorem mem_of_mapM {α β : Type} {f : α → Option β} {xs : List α} {ys : List β} {y : β}
    (h : xs.mapM f = some ys) (hy : y ∈ ys) : ∃ x ∈ xs, f x = some y := by
  induction xs generalizing ys with
  | nil =>
    cases h
    cases hy
  | cons x xs ih =>
    simp only [List.mapM_cons, bind, pure, Option.bind_eq_some_iff, Option.some.injEq] at h
    obtain ⟨z, hz, zs, hzs, rfl⟩ := h
    rcases List.mem_cons.mp hy with rfl | hy
    · exact ⟨x, List.mem_cons_self, hz⟩
    · obtain ⟨x', hx', hy'⟩ := ih hzs hy
      exact ⟨x', List.mem_cons_of_mem _ hx', hy'⟩

theorem storeAll_frame {pls : List (Place B π)} {vs : List K} (h : storeAll m pls vs = some m₁)
    (hb : ∀ pl ∈ pls, b ≠ pl.base) : m₁ b = m b := by
  induction pls generalizing m vs with
  | nil =>
    cases vs with
    | nil =>
      cases h
      rfl
    | cons v vs => cases h
  | cons pl pls ih =>
    cases vs with
    | nil => cases h
    | cons v vs =>
      rw [ih h fun pl hpl => hb pl (List.mem_cons_of_mem _ hpl), store_of_ne (hb pl List.mem_cons_self)]

theorem mem_asmParam_lvalues {p : AsmParam P (LValue P) (LValue P)} (h : asmOutput p = some lv) :
    (lv, .write) ∈ p.lvalues := by
  cases p with
  | const c | sym p => cases h
  | reg dir spec input output =>
    cases h
    exact List.mem_append_right _ List.mem_cons_self

/-- The places that a step writes to are those of the lvalues that the statement writes. -/
theorem step_places (hF : ∀ t, F.typeIsCopy t = true) (ht : F.Types st.mentioned)
    (h : I.step F s st = some (ev, s₁)) (hpl : pl ∈ ev.places) :
    ∃ lv, (lv, .write) ∈ st.lvalues ∧ I.place F s.mem lv = some pl := by
  cases st with
  | assign dst src =>
    have hsrc : F.Types (src.lvalues.map Prod.fst) := fun lv hlv => ht lv (by
      simp only [Statement.mentioned, Statement.lvalues, List.map_append, List.mem_append]
      exact .inl (.inl hlv))
    obtain ⟨rv, v, pl', -, -, hpl', rfl, -⟩ := (step_assign_copies hF hsrc).mp h
    cases List.mem_singleton.mp hpl
    exact ⟨dst, List.mem_append_right _ List.mem_cons_self, hpl'⟩
  | asm tpl outputs inputs clobbers flags =>
    simp only [step, bind, pure, Option.bind_eq_some_iff, Option.some.injEq, Prod.mk.injEq] at h
    obtain ⟨⟨ins, mr⟩, hins, pls, hpls, ⟨⟨e, vs⟩, ma⟩, -, mo, hmo, rfl, -⟩ := h
    obtain rfl := visitNamed_read hins
    rw [Event.places, storeAll_zip hmo] at hpl
    obtain ⟨o, ho, hpl⟩ := mem_of_mapM hpls hpl
    exact ⟨o.2, List.mem_append_right _ (List.mem_map_of_mem (f := fun v => (v.2, ValUsage.write)) ho),
      hpl⟩
  | asm2 options lines params =>
    simp only [step, bind, pure, Option.bind_eq_some_iff, Option.some.injEq, Prod.mk.injEq] at h
    obtain ⟨ins, -, pls, hpls, ⟨⟨e, vs⟩, ma⟩, -, mo, hmo, rfl, -⟩ := h
    rw [Event.places, storeAll_zip hmo] at hpl
    obtain ⟨lv, hlv, hpl⟩ := mem_of_mapM hpls hpl
    obtain ⟨p, hp, hplv⟩ := List.mem_filterMap.mp hlv
    exact ⟨lv, List.mem_flatMap.mpr ⟨p, hp, mem_asmParam_lvalues hplv⟩, hpl⟩
  | setDropFlag idx newVal other =>
    cases h
    cases hpl
  | drop kind slot flagIdx =>
    simp only [step] at h
    by_cases hf : flagIdx.elim true s.flags = true
    · rw [if_pos hf] at h
      simp only [bind, pure, Option.bind_eq_some_iff, Option.some.injEq, Prod.mk.injEq] at h
      obtain ⟨pl', hpl', r, -, rfl, -⟩ := h
      cases List.mem_singleton.mp hpl
      exact ⟨slot, List.mem_cons_self, hpl'⟩
    · rw [if_neg hf] at h
      cases h
      cases hpl
  | scopeEnd slots =>
    cases h
    cases hpl

/-- What a step neither writes to nor changes in passing keeps its contents. -/
theorem step_frame (hF : ∀ t, F.typeIsCopy t = true) (ht : F.Types st.mentioned)
    (h : I.step F s st = some (ev, s₁)) (hb : ∀ pl ∈ ev.places, b ≠ pl.base)
    (hc : b ∉ I.changed s.mem st ev) : s₁.mem b = s.mem b := by
  cases st with
  | assign dst src =>
    have hsrc : F.Types (src.lvalues.map Prod.fst) := fun lv hlv => ht lv (by
      simp only [Statement.mentioned, Statement.lvalues, List.map_append, List.mem_append]
      exact .inl (.inl hlv))
    obtain ⟨rv, v, pl, -, -, -, rfl, rfl⟩ := (step_assign_copies hF hsrc).mp h
    exact store_of_ne (hb pl List.mem_cons_self)
  | asm tpl outputs inputs clobbers flags =>
    simp only [step, bind, pure, Option.bind_eq_some_iff, Option.some.injEq, Prod.mk.injEq] at h
    obtain ⟨⟨ins, mr⟩, hins, pls, -, ⟨⟨e, vs⟩, ma⟩, ha, mo, hmo, rfl, rfl⟩ := h
    obtain rfl := visitNamed_read hins
    rw [Event.places, storeAll_zip hmo] at hb
    exact (storeAll_frame hmo hb).trans (Action.frame _ ha hc)
  | asm2 options lines params =>
    simp only [step, bind, pure, Option.bind_eq_some_iff, Option.some.injEq, Prod.mk.injEq] at h
    obtain ⟨ins, -, pls, -, ⟨⟨e, vs⟩, ma⟩, ha, mo, hmo, rfl, rfl⟩ := h
    rw [Event.places, storeAll_zip hmo] at hb
    exact (storeAll_frame hmo hb).trans (Action.frame _ ha hc)
  | setDropFlag idx newVal other =>
    cases h
    rfl
  | drop kind slot flagIdx =>
    simp only [step] at h
    by_cases hf : flagIdx.elim true s.flags = true
    · rw [if_pos hf] at h
      simp only [bind, pure, Option.bind_eq_some_iff, Option.some.injEq, Prod.mk.injEq] at h
      obtain ⟨pl, -, ⟨e, md⟩, hd, rfl, rfl⟩ := h
      exact (vacate_of_ne (hb pl List.mem_cons_self)).trans (Action.frame _ hd hc)
    · rw [if_neg hf] at h
      cases h
      rfl
  | scopeEnd slots =>
    cases h
    rfl

end Interp

end Mrustc.Mir
