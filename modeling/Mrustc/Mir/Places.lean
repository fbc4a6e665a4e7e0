import Mrustc.Mir.Semantics
import Mathlib.Tactic

/-! # The places of lvalues

An lvalue reads the locals it is indexed by and the pointers it goes through. Its place is the same in
a memory that holds at least as much there.
-/

namespace Mrustc.Mir

open Memory

theorem mapM_eq_some {α β : Type} {f g : α → Option β} {xs : List α} {ys : List β}
    (h : ∀ x ∈ xs, ∀ y, f x = some y → g x = some y) (he : xs.mapM f = some ys) :
    xs.mapM g = some ys := by
  induction xs generalizing ys with
  | nil => exact he
  | cons x xs ih =>
    simp only [List.mapM_cons, bind, pure, Option.bind_eq_some_iff, Option.some.injEq] at he ⊢
    obtain ⟨y, hy, zs, hzs, rfl⟩ := he
    exact ⟨y, h x List.mem_cons_self y hy, zs,
      ih (fun x hx => h x (List.mem_cons_of_mem _ hx)) hzs, rfl⟩

variable {T P B K π E : Type} [Contents K π]

namespace Frame

variable {F : Frame T P B} {lv lv' : LValue P} {ws : List Wrapper} {t : T}

theorem lvalueType_cloneWrapped :
    F.lvalueType (lv.cloneWrapped ws) = (F.lvalueType lv).bind fun t => ws.foldlM F.unwrapType t := by
  simp [lvalueType, LValue.cloneWrapped, List.foldlM_append]

theorem lvalueIsCopy_eq_true : F.lvalueIsCopy lv = true ↔
    ∃ t, F.lvalueType lv = some t ∧ F.typeIsCopy t = true := by
  simp [lvalueIsCopy, Option.any_eq_true]

theorem lvalueIsCopy_congr (h : F.lvalueType lv = F.lvalueType lv') :
    F.lvalueIsCopy (lv.cloneWrapped ws) = F.lvalueIsCopy (lv'.cloneWrapped ws) := by
  rw [lvalueIsCopy, lvalueIsCopy, lvalueType_cloneWrapped, lvalueType_cloneWrapped, h]

theorem typeIsCopy_foldlM (hws : .deref ∉ ws) (ht : F.typeIsCopy t = true) {t' : T}
    (h : ws.foldlM F.unwrapType t = some t') : F.typeIsCopy t' = true := by
  induction ws generalizing t with
  | nil =>
    cases h
    exact ht
  | cons w ws ih =>
    rw [List.mem_cons, not_or] at hws
    rw [List.foldlM_cons, Option.bind_eq_bind, Option.bind_eq_some_iff] at h
    obtain ⟨u, hu, h⟩ := h
    exact ih hws.2 (F.typeIsCopy_unwrap ht (Ne.symm hws.1) hu) h

/-- The parts of a Copy value are Copy. -/
theorem lvalueIsCopy_part (h : F.lvalueIsCopy lv = true) (hws : .deref ∉ ws)
    (ht : (F.lvalueType (lv.cloneWrapped ws)).isSome = true) :
    F.lvalueIsCopy (lv.cloneWrapped ws) = true := by
  obtain ⟨t, hlv, hcopy⟩ := lvalueIsCopy_eq_true.mp h
  obtain ⟨t', ht'⟩ := Option.isSome_iff_exists.mp ht
  refine lvalueIsCopy_eq_true.mpr ⟨t', ht', ?_⟩
  rw [lvalueType_cloneWrapped, hlv] at ht'
  exact typeIsCopy_foldlM hws hcopy ht'

theorem base_ne {x y : Storage P} (h : x ≠ y) : F.base x ≠ F.base y := fun he => h (F.base_injective he)

end Frame

namespace LValue

variable {P : Type} {lv : LValue P} {l : ℕ}

theorem mem_indexLocals : l ∈ lv.indexLocals ↔ .index l ∈ lv.wrappers := by
  rw [indexLocals, List.mem_filterMap]
  constructor
  · intro ⟨w, hw, h⟩
    cases w with
    | index i =>
      cases h
      exact hw
    | deref | field i | downcast i => cases h
  · intro h
    exact ⟨_, h, rfl⟩

theorem hasDeref_eq_false : lv.hasDeref = false ↔ .deref ∉ lv.wrappers := by simp [hasDeref]

theorem isLocal_iff : lv.isLocal = true ↔ ∃ n, lv = .newLocal n := by
  obtain ⟨root, ws⟩ := lv
  cases ws with
  | nil => cases root <;> simp [isLocal, newLocal]
  | cons w ws => simp [isLocal, newLocal]

theorem isDeref_iff : lv.isDeref = true ↔ lv = lv.cloneUnwrapped.cloneWrapped [.deref] := by
  obtain ⟨root, ws⟩ := lv
  simp only [isDeref, cloneUnwrapped, cloneWrapped, beq_iff_eq, mk.injEq,
    true_and]
  constructor
  · intro h
    exact (List.dropLast_append_getLast? _ h).symm
  · intro h
    rw [h]
    simp

@[simp] theorem cloneWrapped_nil : lv.cloneWrapped [] = lv := by simp [cloneWrapped]

@[simp] theorem cloneWrapped_root (ws : List Wrapper) : (lv.cloneWrapped ws).root = lv.root := rfl

@[simp] theorem newLocal_cloneWrapped (n : ℕ) (ws : List Wrapper) :
    (newLocal n : LValue P).cloneWrapped ws = ⟨.local_ n, ws⟩ := rfl

end LValue

namespace Interp

variable (I : Interp T P B K π E) (F : Frame T P B)

/-- The bases that the wrappers lead to through pointers. -/
def reached (m : B → K) : List Wrapper → Place B π → List B
  | [], _ => []
  | w :: ws, pl =>
    match I.unwrap F m pl w with
    | none => []
    | some pl' => (if w = .deref then [pl'.base] else []) ++ reached m ws pl'

/-- The bases that an lvalue reaches through pointers. -/
def throughPointers (m : B → K) (lv : LValue P) : List B :=
  I.reached F m lv.wrappers ⟨F.base lv.root, []⟩

variable {I F} {m m' : B → K} {pl pl' : Place B π} {w : Wrapper} {ws : List Wrapper} {lv : LValue P}
  {b : B} {p q : List π}

theorem reached_cons (h : I.unwrap F m pl w = some pl') :
    I.reached F m (w :: ws) pl = (if w = .deref then [pl'.base] else []) ++ I.reached F m ws pl' := by
  rw [reached, h]

theorem unwrap_base (hw : w ≠ .deref) (h : I.unwrap F m pl w = some pl') : pl'.base = pl.base := by
  cases w with
  | deref => exact absurd rfl hw
  | field i | downcast i =>
    cases h
    rfl
  | index l =>
    obtain ⟨i, -, rfl⟩ := Option.map_eq_some_iff.mp h
    rfl

theorem unwraps_cons (h : I.unwrap F m pl w = some pl') :
    I.unwraps F m (w :: ws) pl = I.unwraps F m ws pl' := by
  rw [unwraps, h]
  rfl

/-- Without a pointer on the way, the place is a part of the slot. -/
theorem unwraps_base (hws : .deref ∉ ws) (h : I.unwraps F m ws pl = some pl') :
    pl'.base = pl.base := by
  induction ws generalizing pl with
  | nil =>
    cases h
    rfl
  | cons w ws ih =>
    rw [List.mem_cons, not_or] at hws
    obtain ⟨pl₁, h₁, h⟩ := Option.bind_eq_some_iff.mp h
    exact (ih hws.2 h).trans (unwrap_base (Ne.symm hws.1) h₁)

/-- With a pointer on the way, the place is in a base that was reached through one. -/
theorem unwraps_mem_reached (hws : .deref ∈ ws) (h : I.unwraps F m ws pl = some pl') :
    pl'.base ∈ I.reached F m ws pl := by
  induction ws generalizing pl with
  | nil => cases hws
  | cons w ws ih =>
    obtain ⟨pl₁, h₁, h⟩ := Option.bind_eq_some_iff.mp h
    rw [reached_cons h₁]
    by_cases hd : .deref ∈ ws
    · exact List.mem_append_right _ (ih hd h)
    · have hw : w = .deref := by
        rcases List.mem_cons.mp hws with hw | hw
        · exact hw.symm
        · exact absurd hw hd
      rw [if_pos hw, unwraps_base hd h]
      exact List.mem_append_left _ List.mem_cons_self

theorem reached_eq_nil (hws : .deref ∉ ws) : I.reached F m ws pl = [] := by
  induction ws generalizing pl with
  | nil => rfl
  | cons w ws ih =>
    rw [List.mem_cons, not_or] at hws
    rw [reached]
    cases I.unwrap F m pl w with
    | none => rfl
    | some pl' => simp [Ne.symm hws.1, ih hws.2]

theorem unwrap_mono (hb : m pl.base ≤ m' pl.base)
    (hi : ∀ l, w = .index l → m (F.base (.local_ l)) ≤ m' (F.base (.local_ l)))
    (h : I.unwrap F m pl w = some pl') : I.unwrap F m' pl w = some pl' := by
  cases w with
  | deref =>
    obtain ⟨k, hk, h⟩ := Option.bind_eq_some_iff.mp h
    rw [unwrap, load_mono hb hk]
    exact h
  | field i | downcast i => exact h
  | index l =>
    obtain ⟨i, hl, rfl⟩ := Option.map_eq_some_iff.mp h
    obtain ⟨k, hk, hl⟩ := Option.bind_eq_some_iff.mp hl
    have hk' : load m' ⟨F.base (.local_ l), []⟩ = some k := load_mono (hi l rfl) hk
    rw [unwrap, hk', Option.bind_some, hl]
    rfl

theorem unwraps_mono (hb : m pl.base ≤ m' pl.base)
    (hi : ∀ l, .index l ∈ ws → m (F.base (.local_ l)) ≤ m' (F.base (.local_ l)))
    (hr : ∀ b ∈ I.reached F m ws pl, m b ≤ m' b) (h : I.unwraps F m ws pl = some pl') :
    I.unwraps F m' ws pl = some pl' ∧ I.reached F m' ws pl = I.reached F m ws pl := by
  induction ws generalizing pl with
  | nil => exact ⟨h, rfl⟩
  | cons w ws ih =>
    obtain ⟨pl₁, h₁, h⟩ := Option.bind_eq_some_iff.mp h
    have h₁' : I.unwrap F m' pl w = some pl₁ :=
      unwrap_mono hb (fun l hl => hi l (hl ▸ List.mem_cons_self)) h₁
    rw [reached_cons h₁] at hr
    have hb₁ : m pl₁.base ≤ m' pl₁.base := by
      by_cases hw : w = .deref
      · exact hr _ (by simp [hw])
      · rwa [unwrap_base hw h₁]
    obtain ⟨hu, hreached⟩ := ih hb₁ (fun l hl => hi l (List.mem_cons_of_mem _ hl))
      (fun b hb => hr b (List.mem_append_right _ hb)) h
    rw [unwraps_cons h₁', reached_cons h₁', reached_cons h₁, hreached]
    exact ⟨hu, rfl⟩

/-- Wrappers without a pointer depend only on the locals that they are indexed by. -/
theorem unwraps_congr (hws : .deref ∉ ws)
    (hi : ∀ l, .index l ∈ ws → m (F.base (.local_ l)) = m' (F.base (.local_ l))) :
    I.unwraps F m ws pl = I.unwraps F m' ws pl := by
  induction ws generalizing pl with
  | nil => rfl
  | cons w ws ih =>
    rw [List.mem_cons, not_or] at hws
    have hw : I.unwrap F m pl w = I.unwrap F m' pl w := by
      cases w with
      | deref => exact absurd rfl hws.1
      | field i | downcast i => rfl
      | index l =>
        have hl : load m ⟨F.base (.local_ l), []⟩ = load (π := π) m' ⟨F.base (.local_ l), []⟩ := by
          rw [load, load, hi l List.mem_cons_self]
        rw [unwrap, unwrap, hl]
    rw [unwraps, unwraps, hw]
    exact congrArg _ (funext fun pl₁ => ih hws.2 fun l hl => hi l (List.mem_cons_of_mem _ hl))

theorem unwraps_append {ws' : List Wrapper} : I.unwraps F m (ws ++ ws') pl =
    (I.unwraps F m ws pl).bind (I.unwraps F m ws') := by
  induction ws generalizing pl with
  | nil => rfl
  | cons w ws ih =>
    rw [List.cons_append, unwraps, unwraps]
    cases I.unwrap F m pl w with
    | none => rfl
    | some pl₁ => exact ih

/-- Where a base holds a copy of a part of another, wrappers lead to the same value in both. -/
theorem unwraps_copied {b b' : B} (hb : m b ≤ Contents.get p (m' b'))
    (hi : ∀ l, .index l ∈ ws → m (F.base (.local_ l)) ≤ m' (F.base (.local_ l)))
    (hr : ∀ c ∈ I.reached F m ws ⟨b, q⟩, m c ≤ m' c) (h : I.unwraps F m ws ⟨b, q⟩ = some pl) :
    (.deref ∉ ws ∧ ∃ q', pl = ⟨b, q'⟩ ∧ I.unwraps F m' ws ⟨b', p ++ q⟩ = some ⟨b', p ++ q'⟩) ∨
      (.deref ∈ ws ∧ I.unwraps F m' ws ⟨b', p ++ q⟩ = some pl) := by
  induction ws generalizing q with
  | nil =>
    cases h
    exact .inl ⟨List.not_mem_nil, q, rfl, rfl⟩
  | cons w ws ih =>
    obtain ⟨pl₁, h₁, h₂⟩ := Option.bind_eq_some_iff.mp h
    rw [reached_cons h₁] at hr
    have hi' : ∀ l, .index l ∈ ws → m (F.base (.local_ l)) ≤ m' (F.base (.local_ l)) :=
      fun l hl => hi l (List.mem_cons_of_mem _ hl)
    by_cases hw : w = .deref
    · subst hw
      obtain ⟨k, hk, hpl₁⟩ := Option.bind_eq_some_iff.mp h₁
      obtain ⟨hinit, hget⟩ := load_eq_some.mp hk
      have hk' : load m' ⟨b', p ++ q⟩ = some k := by
        refine load_eq_some.mpr ⟨hinit, ?_⟩
        have hle : k ≤ Contents.get (p ++ q) (m' b') := by
          rw [Contents.get_append, ← hget]
          exact Contents.get_mono q hb
        exact (Contents.eq_of_init hinit hle).symm
      have h₁' : I.unwrap F m' ⟨b', p ++ q⟩ .deref = some pl₁ := by
        rw [unwrap, hk']
        exact hpl₁
      refine .inr ⟨List.mem_cons_self, ?_⟩
      rw [unwraps_cons h₁']
      exact (unwraps_mono (hr _ (by simp)) hi' (fun c hc => hr c (List.mem_append_right _ hc)) h₂).1
    · obtain ⟨x, hx, hx'⟩ : ∃ x : List π, pl₁ = ⟨b, q ++ x⟩ ∧
          I.unwrap F m' ⟨b', p ++ q⟩ w = some ⟨b', p ++ (q ++ x)⟩ := by
        cases w with
        | deref => exact absurd rfl hw
        | field i | downcast i =>
          cases h₁
          exact ⟨_, rfl, by simp [unwrap, Place.push]⟩
        | index l =>
          obtain ⟨i, hl, rfl⟩ := Option.map_eq_some_iff.mp h₁
          obtain ⟨k, hk, hl⟩ := Option.bind_eq_some_iff.mp hl
          have hk' : load m' ⟨F.base (.local_ l), []⟩ = some k :=
            load_mono (hi l List.mem_cons_self) hk
          refine ⟨_, rfl, ?_⟩
          rw [unwrap, hk', Option.bind_some, hl]
          simp [Place.push]
      subst hx
      have hr' := fun c hc => hr c (List.mem_append_right _ hc)
      rw [unwraps_cons hx']
      rcases ih hi' hr' h₂ with ⟨hd, q', rfl, h'⟩ | ⟨hd, h'⟩
      · refine .inl ⟨?_, q', rfl, h'⟩
        rw [List.mem_cons, not_or]
        exact ⟨Ne.symm hw, hd⟩
      · exact .inr ⟨List.mem_cons_of_mem _ hd, h'⟩

section Operands

variable [DecidableEq B] {u : ValUsage} {v : K} {m₁ : B → K}

theorem operand_move_eq_some : I.operand F m lv .move = some (v, m₁) ↔
    ∃ pl, I.place F m lv = some pl ∧ load m pl = some v ∧
      (if F.lvalueIsCopy lv then m else vacate m pl) = m₁ := by
  simp only [operand, bind, pure, Option.bind_eq_some_iff, Option.some.injEq, Prod.mk.injEq]
  constructor
  · intro ⟨pl, hpl, v', hv, hv', hm⟩
    exact ⟨pl, hpl, hv' ▸ hv, hm⟩
  · intro ⟨pl, hpl, hv, hm⟩
    exact ⟨pl, hpl, v, hv, rfl, hm⟩

theorem operand_read_eq_some : I.operand F m lv .read = some (v, m₁) ↔
    ∃ pl, I.place F m lv = some pl ∧ load m pl = some v ∧ m = m₁ := by
  simp only [operand, bind, pure, Option.bind_eq_some_iff, Option.some.injEq, Prod.mk.injEq]
  constructor
  · intro ⟨pl, hpl, v', hv, hv', hm⟩
    exact ⟨pl, hpl, hv' ▸ hv, hm⟩
  · intro ⟨pl, hpl, hv, hm⟩
    exact ⟨pl, hpl, v, hv, rfl, hm⟩

theorem operand_borrow_eq_some : I.operand F m lv .borrow = some (v, m₁) ↔
    ∃ pl, I.place F m lv = some pl ∧ I.address pl = v ∧ m = m₁ := by
  simp only [operand, bind, pure, Option.bind_eq_some_iff, Option.some.injEq, Prod.mk.injEq]

/-- An operand that has a value has a place, and leaves at most what was there. -/
theorem operand_place (h : I.operand F m lv u = some (v, m₁)) :
    (∃ pl, I.place F m lv = some pl) ∧ ∀ b, m₁ b ≤ m b := by
  cases u with
  | move =>
    obtain ⟨pl, hpl, -, rfl⟩ := operand_move_eq_some.mp h
    refine ⟨⟨pl, hpl⟩, fun b => ?_⟩
    by_cases hc : F.lvalueIsCopy lv = true
    · rw [if_pos hc]
    · rw [if_neg hc]
      exact vacate_le m pl b
  | read =>
    obtain ⟨pl, hpl, -, rfl⟩ := operand_read_eq_some.mp h
    exact ⟨⟨pl, hpl⟩, fun b => le_rfl⟩
  | borrow =>
    obtain ⟨pl, hpl, -, rfl⟩ := operand_borrow_eq_some.mp h
    exact ⟨⟨pl, hpl⟩, fun b => le_rfl⟩
  | write => cases h

/-- Reading changes nothing. -/
theorem visitNamed_read {xs : List (Hir.RcString × LValue P)} {ys : List (Hir.RcString × K)}
    (h : visitNamed (I.operands F) .read m xs = some (ys, m₁)) : m₁ = m := by
  induction xs generalizing m ys with
  | nil =>
    cases h
    rfl
  | cons x xs ih =>
    simp only [visitNamed, bind, pure, Option.bind_eq_some_iff, Option.some.injEq] at h
    obtain ⟨⟨y, m₂⟩, hy, ⟨zs, m₃⟩, hzs, h⟩ := h
    cases h
    obtain ⟨pl, -, -, rfl⟩ := operand_read_eq_some.mp hy
    exact ih hzs

theorem visitParam_read {p : Param P (LValue P)} {x : Param P K}
    (h : p.visit (I.operands F) .read m = some (x, m₁)) : m₁ = m := by
  cases p with
  | lvalue lv =>
    simp only [Param.visit, bind, pure, Option.bind_eq_some_iff, Option.some.injEq] at h
    obtain ⟨⟨y, m₂⟩, hy, h⟩ := h
    cases h
    obtain ⟨pl, -, -, rfl⟩ := operand_read_eq_some.mp hy
    rfl
  | borrow type lv =>
    simp only [Param.visit, bind, pure, Option.bind_eq_some_iff, Option.some.injEq] at h
    obtain ⟨⟨y, m₂⟩, hy, h⟩ := h
    cases h
    obtain ⟨pl, -, -, rfl⟩ := operand_borrow_eq_some.mp hy
    rfl
  | constant c =>
    cases h
    rfl

theorem storeAll_zip {pls : List (Place B π)} {vs : List K} (h : storeAll m pls vs = some m₁) :
    (pls.zip vs).map Prod.fst = pls := by
  induction pls generalizing m vs with
  | nil => rfl
  | cons pl pls ih =>
    cases vs with
    | nil => cases h
    | cons v vs => rw [List.zip_cons_cons, List.map_cons, ih h]

end Operands

end Interp

end Mrustc.Mir
