import Mrustc.Mir.KnownSources
import Mrustc.Mir.Points

/-! # Sources of tuple fields on a run

A run that comes to a position has come by the positions that a walk back from it visits. From the
assignment of a tuple to a use of its field the steps are quiet, and where they change the slots only that
they name, the source keeps what the field holds.
-/

namespace Mrustc.Mir

open Depth Memory Trace Relation

variable {T P B K π E W : Type} [DecidableEq B] [Contents K π] {env : Env T P B K π E W} {I : Interp T P B K π E}
  {F : Frame T P B} {blocks : Blocks T P} {f : Function T P (LValue P)}
  {origins : BasicBlockId → Option BasicBlockId} {s : State B K} {w : W} {m m' m₁ : B → K}
  {p p' q q₁ u : Point B K W} {pos : Position} {quiet : Item T P → Prop} {n field : ℕ} {src lv : LValue P}

section Runs

omit [DecidableEq B] [Contents K π] in
theorem Position.Follows.edge {pos pos' : Position} (h : Position.Follows blocks pos pos') :
    pos'.bb = pos.bb ∨ pos'.bb ∈ succs blocks pos.bb := by
  cases h with
  | statement h => exact .inl rfl
  | terminator h hbb _ =>
    obtain ⟨code, hcode, -, rfl⟩ := itemAt_eq_terminator.mp h
    rw [succs, hcode]
    exact .inr hbb

/-- A step that performs a quiet item. -/
def Env.Quietly (env : Env T P B K π E W) (F : Frame T P B) (blocks : Blocks T P) (quiet : Item T P → Prop)
    (p p' : Point B K W) : Prop :=
  env.Advances F blocks p p' ∧ ∃ item, itemAt blocks p.pos = some item ∧ quiet item

theorem Env.Reaches.reached (h : env.Reaches F blocks (.entry s w) p) : Reached blocks p.pos.bb := by
  induction h with
  | refl => exact .refl
  | tail _ hadv ih =>
    rcases hadv.follows.edge with h | h
    · exact h ▸ ih
    · exact ih.tail h

/-- The position before is where the run has come from. -/
theorem Env.Reaches.behind (ho : Origins f origins) (h : env.Reaches F f.blocks (.entry s w) u)
    (hback : stepBack f.blocks origins u.pos = some pos) :
    ∃ p, env.Reaches F f.blocks (.entry s w) p ∧ p.pos = pos ∧ env.Advances F f.blocks p u := by
  cases h with
  | refl =>
    rw [Point.entry, stepBack, ho.entry] at hback
    cases hback
  | tail hp hadv =>
    rename_i p
    refine ⟨p, hp, ?_, hadv⟩
    have hfollows := hadv.follows
    cases hpos : u.pos
    rw [hpos] at hfollows hback
    cases hfollows with
    | statement _ => exact Option.some.inj hback
    | terminator h hbb _ =>
      obtain ⟨code, hcode, hend, rfl⟩ := itemAt_eq_terminator.mp h
      simp only [stepBack, Option.bind_eq_bind, Option.bind_eq_some_iff] at hback
      obtain ⟨origin, horigin, code', hcode', hback⟩ := hback
      have hsuccs : succs f.blocks p.pos.bb = code.terminator.targets := by
        rw [succs, hcode]
        rfl
      obtain rfl := ho.unique horigin (Env.Reaches.reached hp) (hsuccs ▸ hbb)
      obtain rfl := Option.some.inj (hcode.symm.trans hcode')
      rw [← Option.some.inj hback, ← hend]

/-- The walk back to a position leads along the run. -/
theorem Back.along (ho : Origins f origins) {stop : Position} (h : Back f.blocks origins quiet stop pos)
    (hu : env.Reaches F f.blocks (.entry s w) u) (hpos : u.pos = pos) :
    ∃ q q₁, env.Reaches F f.blocks (.entry s w) q ∧ q.pos = stop ∧ env.Advances F f.blocks q q₁ ∧
      ReflTransGen (env.Quietly F f.blocks quiet) q₁ u := by
  induction h generalizing u with
  | here hback =>
    obtain ⟨q, hq, hqpos, hadv⟩ := Env.Reaches.behind ho hu (hpos ▸ hback)
    exact ⟨q, u, hq, hqpos, hadv, .refl⟩
  | further hback hitem hquiet _ ih =>
    obtain ⟨p, hp, hppos, hadv⟩ := Env.Reaches.behind ho hu (hpos ▸ hback)
    obtain ⟨q, q₁, hq, hqpos, hq₁, hrun⟩ := ih hp hppos
    exact ⟨q, q₁, hq, hqpos, hq₁, hrun.tail ⟨hadv, _, hppos ▸ hitem, hquiet⟩⟩

end Runs

/-- The source and the field hold the same value. -/
def Interp.HoldsField (I : Interp T P B K π E) (F : Frame T P B) (m : B → K) (n field : ℕ) (src : LValue P) :
    Prop :=
  ∃ pl v, I.place F m src = some pl ∧ load m pl = some v ∧
    load m ⟨F.base (.local_ n), [I.field field]⟩ = some v

/-- The fields of a tuple are the values that it is made from. -/
def Interp.MakesTuples (I : Interp T P B K π E) : Prop :=
  ∀ vals v, I.rvalue (.tuple vals) = some v → ∀ (field : ℕ) x, vals[field]? = some (.lvalue x) →
    Contents.get [I.field field] v = x

namespace Interp

omit [DecidableEq B] in
theorem HoldsField.congr (h : I.HoldsField F m n field src)
    (hm : ∀ b ∈ F.base (.local_ n) :: I.readFrom F m src, m b = m' b) : I.HoldsField F m' n field src := by
  obtain ⟨pl, v, hpl, hv, hfield⟩ := h
  obtain ⟨hpl', hbase, -⟩ := place_congr (fun b hb => hm b (List.mem_cons_of_mem _ hb)) hpl
  refine ⟨pl, v, hpl', (load_congr hbase).symm.trans hv, Eq.trans (Eq.symm (load_congr ?_)) hfield⟩
  exact hm _ List.mem_cons_self

omit [DecidableEq B] in
/-- Wrappers lead to the same value from places with the same contents. -/
theorem load_unwraps_congr {b b' : B} {x x' y : List π} {ws : List Wrapper} {pl : Place B π}
    (h : Contents.get x (m b) = Contents.get x' (m b')) (hpl : I.unwraps F m ws ⟨b, x ++ y⟩ = some pl) :
    ∃ pl', I.unwraps F m ws ⟨b', x' ++ y⟩ = some pl' ∧ load m pl' = load m pl := by
  have hload (y : List π) : load m ⟨b', x' ++ y⟩ = load m ⟨b, x ++ y⟩ := by
    rw [load, load, Contents.get_append, Contents.get_append, h]
  induction ws generalizing y with
  | nil =>
    cases hpl
    exact ⟨_, rfl, hload y⟩
  | cons w ws ih =>
    obtain ⟨pl₁, h₁, hrest⟩ := Option.bind_eq_some_iff.mp hpl
    cases w with
    | deref =>
      have h₁' : I.unwrap F m ⟨b', x' ++ y⟩ .deref = some pl₁ := by rw [unwrap, hload, ← unwrap, h₁]
      exact ⟨pl, by rw [unwraps_cons h₁', hrest], rfl⟩
    | field i | downcast i =>
      cases h₁
      rw [Place.push, List.append_assoc] at hrest
      obtain ⟨pl', hpl', hv⟩ := ih hrest
      refine ⟨pl', ?_, hv⟩
      rw [← hpl', ← List.append_assoc]
      rfl
    | index l =>
      obtain ⟨i, hi, rfl⟩ := Option.map_eq_some_iff.mp h₁
      rw [Place.push, List.append_assoc] at hrest
      obtain ⟨pl', hpl', hv⟩ := ih hrest
      refine ⟨pl', ?_, hv⟩
      rw [unwraps, unwrap, hi, Option.map_some, Option.bind_some, ← hpl', ← List.append_assoc]
      rfl

/-- Reading the source gives what reading the field gives. -/
theorem HoldsField.read {ws : List Wrapper} {v : K} (h : I.HoldsField F m n field src)
    (hv : I.operand F m ⟨.local_ n, .field field :: ws⟩ .read = some (v, m₁)) :
    I.operand F m (src.cloneWrapped ws) .read = some (v, m) ∧ m₁ = m := by
  obtain ⟨pl, hpl, hload, rfl⟩ := operand_read_eq_some.mp hv
  obtain ⟨pl₀, x, hpl₀, hx, hfield⟩ := h
  have hget : Contents.get [I.field field] (m (F.base (.local_ n))) = Contents.get pl₀.path (m pl₀.base) :=
    (load_eq_some.mp hfield).2.trans (load_eq_some.mp hx).2.symm
  have hws : I.unwraps F m ws ⟨F.base (.local_ n), [I.field field] ++ []⟩ = some pl := hpl
  obtain ⟨pl', hpl', hsame⟩ := load_unwraps_congr hget hws
  refine ⟨operand_read_eq_some.mpr ⟨pl', ?_, hsame.trans hload, rfl⟩, rfl⟩
  change I.unwraps F m (src.wrappers ++ ws) ⟨F.base src.root, []⟩ = some pl'
  rw [unwraps_append]
  change (I.place F m src).bind _ = _
  rw [hpl₀, Option.bind_some, ← hpl', List.append_nil]

/-- What the operands of a tuple are evaluated to. -/
theorem visitParams_copies {u : ValUsage} {vals : List (Param P (LValue P))} {xs : List (Param P K)}
    (hF : ∀ t, F.typeIsCopy t = true) (ht : F.Types ((vals.flatMap (Param.lvalues u)).map Prod.fst))
    (h : visitParams (I.operands F) u m vals = some (xs, m₁)) :
    m₁ = m ∧ ∀ (i : ℕ) lv, vals[i]? = some (.lvalue lv) →
      ∃ x, xs[i]? = some (.lvalue x) ∧ I.operand F m lv u = some (x, m) := by
  induction vals generalizing m xs with
  | nil =>
    cases h
    exact ⟨rfl, by simp⟩
  | cons val vals ih =>
    simp only [visitParams, bind, pure, Option.bind_eq_some_iff, Option.some.injEq] at h
    obtain ⟨⟨x, m₂⟩, hx, ⟨xs, m₃⟩, hxs, h⟩ := h
    cases h
    rw [List.flatMap_cons, List.map_append] at ht
    have hhead : m₂ = m ∧ ∀ lv, val = .lvalue lv → ∃ y, x = .lvalue y ∧ I.operand F m lv u = some (y, m) := by
      cases val with
      | lvalue lv =>
        simp only [Param.visit, bind, pure, Option.bind_eq_some_iff, Option.some.injEq] at hx
        obtain ⟨⟨y, m₄⟩, hy, hx⟩ := hx
        cases hx
        obtain rfl := operand_copies hF (ht lv (List.mem_append_left _ List.mem_cons_self)) hy
        refine ⟨rfl, fun lv' h => ?_⟩
        cases h
        exact ⟨y, rfl, hy⟩
      | borrow type lv =>
        simp only [Param.visit, bind, pure, Option.bind_eq_some_iff, Option.some.injEq] at hx
        obtain ⟨⟨y, m₄⟩, hy, hx⟩ := hx
        cases hx
        obtain ⟨pl, -, -, rfl⟩ := operand_borrow_eq_some.mp hy
        refine ⟨rfl, fun _ h => ?_⟩
        cases h
      | constant c =>
        cases hx
        refine ⟨rfl, fun _ h => ?_⟩
        cases h
    obtain ⟨rfl, hhead⟩ := hhead
    obtain ⟨rfl, htail⟩ := ih (fun lv hlv => ht lv (List.mem_append_right _ hlv)) hxs
    refine ⟨rfl, fun i lv hi => ?_⟩
    cases i with
    | zero =>
      obtain ⟨y, rfl, hy⟩ := hhead lv (Option.some.inj hi)
      exact ⟨y, rfl, hy⟩
    | succ i => exact htail i lv hi

/-- A tuple has just been assigned from the source. -/
theorem HoldsField.of_assign {vals : List (Param P (LValue P))} {ev : Event T P B K π E} {s₁ : State B K}
    (hI : I.MakesTuples) (hF : ∀ t, F.typeIsCopy t = true)
    (ht : F.Types ((vals.flatMap (Param.lvalues .move)).map Prod.fst)) (hsrc : vals[field]? = some (.lvalue src))
    (happart : src = ⟨.local_ n, [.field field]⟩ ∨ F.base (.local_ n) ∉ I.readFrom F s.mem src)
    (h : I.step F s (.assign (.newLocal n) (.tuple vals)) = some (ev, s₁)) :
    I.HoldsField F s₁.mem n field src := by
  have ht' : F.Types ((RValue.tuple vals : RValue T P (LValue P)).lvalues.map Prod.fst) := ht
  obtain ⟨rv, v, pl, hrv, hv, hpl, -, rfl⟩ := (step_assign_copies hF ht').mp h
  obtain rfl : (⟨F.base (.local_ n), []⟩ : Place B π) = pl := Option.some.inj hpl
  simp only [RValue.visit, bind, pure, Option.bind_eq_some_iff, Option.some.injEq] at hrv
  obtain ⟨⟨xs, m₁⟩, hxs, hrv⟩ := hrv
  cases hrv
  obtain ⟨-, hvals⟩ := visitParams_copies hF ht hxs
  obtain ⟨x, hx, hop⟩ := hvals field src hsrc
  obtain ⟨pl, hpl, hload, -⟩ := operand_move_eq_some.mp hop
  have hget : Contents.get [I.field field] v = x := hI xs v hv field x hx
  have hstored : load (store s.mem ⟨F.base (.local_ n), []⟩ v) ⟨F.base (.local_ n), [I.field field]⟩ =
      some x := by
    rw [load_eq_some]
    exact ⟨(load_eq_some.mp hload).1, by rw [store_whole, hget]⟩
  rcases happart with rfl | happart
  · exact ⟨_, x, rfl, hstored, hstored⟩
  · have hkept : ∀ b ∈ I.readFrom F s.mem src, s.mem b = store s.mem ⟨F.base (.local_ n), []⟩ v b := by
      intro b hb
      refine (store_of_ne ?_).symm
      rintro rfl
      exact happart hb
    obtain ⟨hpl', hbase, -⟩ := place_congr hkept hpl
    exact ⟨pl, x, hpl', (load_congr hbase).symm.trans hload, hstored⟩

end Interp

end Mrustc.Mir
