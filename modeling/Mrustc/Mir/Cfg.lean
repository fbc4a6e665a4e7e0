import Mrustc.Mir.Semantics
import Mrustc.Trace.Simulation

/-! # Runs of a function

A run goes from block to block. How calls end depends on a world that they change. Every statement but
`ScopeEnd` is an event of the run, and so is every call.
-/

namespace Mrustc.Mir

open Memory Trace

abbrev Blocks (T P : Type) := List (BasicBlock T P (LValue P))

theorem mapM_eq_map {α β : Type} {f : α → Option β} {g : α → β} {xs : List α}
    (h : ∀ x ∈ xs, f x = some (g x)) : xs.mapM f = some (xs.map g) := by
  induction xs with
  | nil => rfl
  | cons x xs ih =>
    have hxs := ih fun y hy => h y (List.mem_cons_of_mem _ hy)
    simp [List.mapM_cons, h x List.mem_cons_self, hxs]

namespace Terminator

variable {T P L : Type}

/-- `visit_terminator_target` -/
def targets : Terminator T P L → List BasicBlockId
  | .incomplete => []
  | .return_ => []
  | .diverge => []
  | .goto bb => [bb]
  | .panic dst => [dst]
  | .if_ _ bbTrue bbFalse => [bbTrue, bbFalse]
  | .switch _ targets => targets
  | .switchValue _ defTarget targets _ => targets ++ [defTarget]
  | .call retBlock panicBlock _ _ _ => [retBlock, panicBlock]

/-- `visit_terminator_target_mut` -/
def mapTargets (cb : BasicBlockId → BasicBlockId) : Terminator T P L → Terminator T P L
  | .incomplete => .incomplete
  | .return_ => .return_
  | .diverge => .diverge
  | .goto bb => .goto (cb bb)
  | .panic dst => .panic (cb dst)
  | .if_ cond bbTrue bbFalse => .if_ cond (cb bbTrue) (cb bbFalse)
  | .switch val targets => .switch val (targets.map cb)
  | .switchValue val defTarget targets values =>
    .switchValue val (cb defTarget) (targets.map cb) values
  | .call retBlock panicBlock retVal fcn args => .call (cb retBlock) (cb panicBlock) retVal fcn args

/-- `visit_terminator_target_mut` with a callback that need not return. -/
def mapTargetsM (cb : BasicBlockId → Option BasicBlockId) :
    Terminator T P L → Option (Terminator T P L)
  | .incomplete => return .incomplete
  | .return_ => return .return_
  | .diverge => return .diverge
  | .goto bb => return .goto (← cb bb)
  | .panic dst => return .panic (← cb dst)
  | .if_ cond bbTrue bbFalse => return .if_ cond (← cb bbTrue) (← cb bbFalse)
  | .switch val targets => return .switch val (← targets.mapM cb)
  | .switchValue val defTarget targets values => do
    let targets ← targets.mapM cb
    return .switchValue val (← cb defTarget) targets values
  | .call retBlock panicBlock retVal fcn args =>
    return .call (← cb retBlock) (← cb panicBlock) retVal fcn args

variable {cb : BasicBlockId → BasicBlockId} {cbM : BasicBlockId → Option BasicBlockId}
  {t t' : Terminator T P L}

theorem targets_mapTargets : (t.mapTargets cb).targets = t.targets.map cb := by
  cases t with
  | switchValue val bb ts values =>
    show ts.map cb ++ [bb].map cb = (ts ++ [bb]).map cb
    rw [List.map_append]
  | _ => rfl

theorem mapTargets_eq_self (h : ∀ e ∈ t.targets, cb e = e) : t.mapTargets cb = t := by
  have hmap (ts : List BasicBlockId) (h : ∀ e ∈ ts, cb e = e) : ts.map cb = ts := by
    rw [List.map_congr_left h, List.map_id']
  delta targets at h
  delta mapTargets
  cases t <;> simp_all

theorem mapTargets_id : t.mapTargets id = t := mapTargets_eq_self fun _ _ => rfl

theorem isSome_of_mapM {ts ts' : List BasicBlockId} (h : ts.mapM cbM = some ts') :
    ∀ e ∈ ts, (cbM e).isSome := by
  induction ts generalizing ts' with
  | nil => simp
  | cons e ts ih =>
    simp only [List.mapM_cons, Option.bind_eq_bind, Option.bind_eq_some_iff] at h
    obtain ⟨e', he, ts'', hts, -⟩ := h
    simpa [he] using ih hts

/-- A callback that returns on every target rewrites each of them. -/
theorem mapTargetsM_eq (h : ∀ e ∈ t.targets, cbM e = some (cb e)) :
    t.mapTargetsM cbM = some (t.mapTargets cb) := by
  delta targets at h
  delta mapTargetsM mapTargets
  cases t with
  | switch val ts =>
    have hts : ts.mapM cbM = some (ts.map cb) := mapM_eq_map h
    simp [hts]
  | switchValue val bb ts values =>
    simp only [List.mem_append, List.mem_singleton] at h
    have hts := mapM_eq_map fun e he => h e (.inl he)
    simp [hts, h bb (.inr rfl)]
  | _ => simp_all

theorem isSome_of_mapTargetsM (h : t.mapTargetsM cbM = some t') :
    ∀ e ∈ t.targets, (cbM e).isSome := by
  cases t with
  | switch val ts =>
    simp only [mapTargetsM, Option.bind_eq_bind, Option.bind_eq_some_iff] at h
    obtain ⟨ts', hts, -⟩ := h
    exact isSome_of_mapM hts
  | switchValue val bb ts values =>
    simp only [mapTargetsM, Option.bind_eq_bind, Option.bind_eq_some_iff] at h
    obtain ⟨ts', hts, bb', hbb, -⟩ := h
    simp only [targets, List.mem_append, List.mem_singleton]
    rintro e (he | rfl)
    · exact isSome_of_mapM hts e he
    · simp [hbb]
  | _ =>
    simp only [mapTargetsM, Option.bind_eq_bind, Option.bind_eq_some_iff] at h
    simp only [targets]
    grind

theorem mapTargetsM_some (h : t.mapTargetsM cbM = some t') :
    t' = t.mapTargets fun e => (cbM e).getD e := by
  have heq : t.mapTargetsM cbM = some (t.mapTargets fun e => (cbM e).getD e) := by
    apply mapTargetsM_eq
    intro e he
    obtain ⟨e', he'⟩ := Option.isSome_iff_exists.mp (isSome_of_mapTargetsM h e he)
    rw [he', Option.getD_some]
  exact Option.some.inj (h.symm.trans heq)

end Terminator

/-- What control needs to know of values and calls. A call may never come back, and it comes back with a
value or unwinding. -/
structure Env (T P B K π E W : Type) [Contents K π] extends Interp T P B K π E where
  isTrue : K → Option Bool
  variant : K → Option ℕ
  matchedValue : K → SwitchValues → Option (Option ℕ)
  call : W → CallTarget T P K → List (Param P K) → (B → K) → Option (W × (B → K) × Option K)

inductive Label (T P B K π E : Type)
  | statement (stmt : Statement T P (LValue P)) (event : Event T P B K π E)
  | call (retVal : Place B π) (fcn : CallTarget T P K) (args : List (Param P K))

inductive Outcome (B K W : Type)
  | returned (s : State B K) (w : W)
  | diverged (s : State B K) (w : W)
  | neverReturns (w : W)
  | incomplete
  | stuck

/-- What is left of the block, and the state. -/
structure Config (T P B K W : Type) where
  code : BasicBlock T P (LValue P)
  state : State B K
  world : W

/-- Where a terminator leads to. -/
inductive Departure (T P B K π E W : Type)
  | halt (o : Outcome B K W)
  | goes (l : Option (Label T P B K π E)) (bb : BasicBlockId) (s : State B K) (w : W)

variable {T P B K π E W : Type} [DecidableEq B] [Contents K π]

def Statement.label : Statement T P (LValue P) → Event T P B K π E → Option (Label T P B K π E)
  | .scopeEnd _, _ => none
  | st, ev => some (.statement st ev)

namespace Env

variable (env : Env T P B K π E W) (F : Frame T P B)

/-- `Interp.leave`, and the target that the values select. -/
def depart (s : State B K) (w : W) (t : Terminator T P (LValue P)) : Departure T P B K π E W :=
  match env.leave F s t with
  | none => .halt .stuck
  | some (exit, s) =>
    match exit with
    | .incomplete => .halt .incomplete
    | .return_ => .halt (.returned s w)
    | .diverge => .halt (.diverged s w)
    | .goto bb => .goes none bb s w
    | .panic dst => .goes none dst s w
    | .if_ cond bbTrue bbFalse =>
      match env.isTrue cond with
      | none => .halt .stuck
      | some b => .goes none (if b then bbTrue else bbFalse) s w
    | .switch val targets =>
      match (env.variant val).bind (targets[·]?) with
      | none => .halt .stuck
      | some bb => .goes none bb s w
    | .switchValue val defTarget targets values =>
      match (env.matchedValue val values).bind fun i => i.elim (some defTarget) (targets[·]?) with
      | none => .halt .stuck
      | some bb => .goes none bb s w
    | .call retBlock panicBlock retVal fcn args =>
      match env.call w fcn args s.mem with
      | none => .halt (.neverReturns w)
      | some (w, m, some v) =>
        .goes (some (.call retVal fcn args)) retBlock { s with mem := store m retVal v } w
      | some (w, m, none) => .goes (some (.call retVal fcn args)) panicBlock { s with mem := m } w

def arrive (bbs : Blocks T P) :
    Departure T P B K π E W → Next (Config T P B K W) (Label T P B K π E) (Outcome B K W)
  | .halt o => .halt o
  | .goes l bb s w =>
    match bbs[bb]? with
    | none => .halt .stuck
    | some code => .step l ⟨code, s, w⟩

def next (bbs : Blocks T P) (c : Config T P B K W) :
    Next (Config T P B K W) (Label T P B K π E) (Outcome B K W) :=
  match c.code.statements with
  | [] => arrive bbs (env.depart F c.state c.world c.code.terminator)
  | st :: sts =>
    match env.step F c.state st with
    | none => .halt .stuck
    | some (ev, s) => .step (st.label ev) ⟨⟨sts, c.code.terminator⟩, s, c.world⟩

end Env

/-- The functions have the same executions from their first blocks. -/
def Preserves (bbs bbs' : Blocks T P) : Prop :=
  ∀ (B K π E W : Type) [DecidableEq B] [Contents K π] (env : Env T P B K π E W) (F : Frame T P B)
    (s : State B K) (w : W),
    SameBehaviour (env.next F bbs) (env.next F bbs') ⟨⟨[], .goto 0⟩, s, w⟩ ⟨⟨[], .goto 0⟩, s, w⟩

namespace Preserves

variable {bbs bbs' bbs'' : Blocks T P}

theorem refl (bbs : Blocks T P) : Preserves bbs bbs := fun _ _ _ _ _ _ _ _ _ _ _ => .refl _ _

theorem trans (h : Preserves bbs bbs') (h' : Preserves bbs' bbs'') : Preserves bbs bbs'' :=
  fun B K π E W _ _ env F s w => (h B K π E W env F s w).trans (h' B K π E W env F s w)

end Preserves

def Departure.mapTarget (cb : BasicBlockId → BasicBlockId) :
    Departure T P B K π E W → Departure T P B K π E W
  | .halt o => .halt o
  | .goes l bb s w => .goes l (cb bb) s w

namespace Env

variable {env : Env T P B K π E W} {F : Frame T P B} {bbs bbs' : Blocks T P} {s s' : State B K}
  {w w' : W} {t t' : Terminator T P (LValue P)} {st : Statement T P (LValue P)}
  {sts : List (Statement T P (LValue P))} {l : Option (Label T P B K π E)} {bb : BasicBlockId}
  {code : BasicBlock T P (LValue P)} {c c' d : Config T P B K W} {o : Outcome B K W}

theorem next_nil : env.next F bbs ⟨⟨[], t⟩, s, w⟩ = arrive bbs (env.depart F s w t) := rfl

theorem next_cons : env.next F bbs ⟨⟨st :: sts, t⟩, s, w⟩ =
    match env.step F s st with
    | none => .halt .stuck
    | some (ev, s) => .step (st.label ev) ⟨⟨sts, t⟩, s, w⟩ := rfl

omit [DecidableEq B] [Contents K π] in
theorem arrive_goes (h : bbs[bb]? = some code) :
    arrive bbs (.goes l bb s w) = .step l ⟨code, s, w⟩ := by
  simp only [arrive, h]

theorem next_goto (h : bbs[bb]? = some code) :
    env.next F bbs ⟨⟨[], .goto bb⟩, s, w⟩ = .step none ⟨code, s, w⟩ := arrive_goes h

theorem depart_mapTargets (cb : BasicBlockId → BasicBlockId) :
    env.depart F s w (t.mapTargets cb) = (env.depart F s w t).mapTarget cb := by
  cases t with
  | if_ cond bbTrue bbFalse =>
    simp only [depart, Interp.leave, Terminator.mapTargets]
    cases env.operand F s.mem cond .read with
    | none => rfl
    | some r =>
      cases hb : env.isTrue r.1 with
      | none => simp [hb, Departure.mapTarget]
      | some b => cases b <;> simp [hb, Departure.mapTarget]
  | switch val targets =>
    simp only [depart, Interp.leave, Terminator.mapTargets]
    cases env.operand F s.mem val .read with
    | none => rfl
    | some r =>
      cases hv : env.variant r.1 with
      | none => simp [hv, Departure.mapTarget]
      | some i => cases ht : targets[i]? <;> simp [hv, ht, Departure.mapTarget]
  | switchValue val defTarget targets values =>
    simp only [depart, Interp.leave, Terminator.mapTargets]
    cases env.operand F s.mem val .read with
    | none => rfl
    | some r =>
      rcases hv : env.matchedValue r.1 values with _ | _ | i
      · simp [hv, Departure.mapTarget]
      · simp [hv, Departure.mapTarget]
      · cases ht : targets[i]? <;> simp [hv, ht, Departure.mapTarget]
  | call retBlock panicBlock retVal fcn args =>
    simp only [depart, Interp.leave, Terminator.mapTargets]
    cases fcn.visit (env.operands F) s.mem with
    | none => rfl
    | some r =>
      cases ha : visitParams (env.operands F) .move r.2 args with
      | none => simp [ha, Departure.mapTarget]
      | some r₁ =>
        cases hp : env.place F r₁.2 retVal with
        | none => simp [ha, hp, Departure.mapTarget]
        | some pl =>
          rcases hc : env.call w r.1 r₁.1 r₁.2 with _ | ⟨w, m, _ | v⟩ <;>
            simp [ha, hp, hc, Departure.mapTarget]
  | _ => rfl

theorem mem_targets_of_depart (h : env.depart F s w t = .goes l bb s' w') : bb ∈ t.targets := by
  cases t with
  | if_ cond bbTrue bbFalse =>
    simp only [depart, Interp.leave] at h
    cases hr : env.operand F s.mem cond .read with
    | none => simp [hr] at h
    | some r =>
      cases hb : env.isTrue r.1 with
      | none => simp [hr, hb] at h
      | some b => cases b <;> simp [hr, hb] at h <;> simp [Terminator.targets, h]
  | switch val targets =>
    simp only [depart, Interp.leave] at h
    cases hr : env.operand F s.mem val .read with
    | none => simp [hr] at h
    | some r =>
      cases hv : env.variant r.1 with
      | none => simp [hr, hv] at h
      | some i =>
        cases ht : targets[i]? with
        | none => simp [hr, hv, ht] at h
        | some bb =>
          simp only [hr, hv, ht, Option.bind_eq_bind, Option.bind_some, Option.pure_def,
            Departure.goes.injEq] at h
          exact h.2.1 ▸ List.mem_of_getElem? ht
  | switchValue val defTarget targets values =>
    simp only [depart, Interp.leave] at h
    cases hr : env.operand F s.mem val .read with
    | none => simp [hr] at h
    | some r =>
      rcases hv : env.matchedValue r.1 values with _ | _ | i
      · simp [hr, hv] at h
      · simp only [hr, hv, Option.bind_eq_bind, Option.bind_some, Option.pure_def, Option.elim_none,
          Departure.goes.injEq] at h
        simp [Terminator.targets, h.2.1]
      · cases ht : targets[i]? with
        | none => simp [hr, hv, ht] at h
        | some bb =>
          simp only [hr, hv, ht, Option.bind_eq_bind, Option.bind_some, Option.pure_def,
            Option.elim_some, Departure.goes.injEq] at h
          exact List.mem_append_left _ (h.2.1 ▸ List.mem_of_getElem? ht)
  | call retBlock panicBlock retVal fcn args =>
    simp only [depart, Interp.leave] at h
    cases hf : fcn.visit (env.operands F) s.mem with
    | none => simp [hf] at h
    | some r =>
      cases ha : visitParams (env.operands F) .move r.2 args with
      | none => simp [hf, ha] at h
      | some r₁ =>
        cases hp : env.place F r₁.2 retVal with
        | none => simp [hf, ha, hp] at h
        | some pl =>
          rcases hc : env.call w r.1 r₁.1 r₁.2 with _ | ⟨w, m, _ | v⟩
          · simp [hf, ha, hp, hc] at h
          · simp [hf, ha, hp, hc] at h
            simp [Terminator.targets, h]
          · simp [hf, ha, hp, hc] at h
            simp [Terminator.targets, h]
  | _ => simp_all [depart, Interp.leave, Terminator.targets]

/-- The variant that a switch on the lvalue sees. -/
def selected (env : Env T P B K π E W) (F : Frame T P B) (s : State B K) (val : LValue P) : Option ℕ :=
  (env.operand F s.mem val .read).bind fun r => env.variant r.1

theorem depart_switch {val : LValue P} {ts : List BasicBlockId} :
    env.depart F s w (.switch val ts) =
      match (env.selected F s val).bind (ts[·]?) with
      | none => .halt .stuck
      | some bb => .goes none bb s w := by
  simp only [depart, Interp.leave, selected]
  cases env.operand F s.mem val .read <;> rfl

/-- A simulation in which statements are matched by the same statements. -/
theorem simulation_of_code {R : ℕ → Config T P B K W → Config T P B K W → Prop}
    (hstmt : ∀ {n st sts t s w d}, R n ⟨⟨st :: sts, t⟩, s, w⟩ d →
      ∃ sts' t', d = ⟨⟨st :: sts', t'⟩, s, w⟩ ∧
        ∀ s', ∃ m, R m ⟨⟨sts, t⟩, s', w⟩ ⟨⟨sts', t'⟩, s', w⟩)
    (hhalt : ∀ {n t s w d o}, R n ⟨⟨[], t⟩, s, w⟩ d →
      env.next F bbs ⟨⟨[], t⟩, s, w⟩ = .halt o → Ends (env.next F bbs') d [] o)
    (hstep : ∀ {n t s w d l c}, R n ⟨⟨[], t⟩, s, w⟩ d →
      env.next F bbs ⟨⟨[], t⟩, s, w⟩ = .step l c →
        (l = none ∧ ∃ m < n, R m c d) ∨
          ∃ m d', Steps (env.next F bbs') d l.toList d' ∧ R m c d') :
    Simulation (env.next F bbs) (env.next F bbs') R where
  halt {n c d o} h hs := by
    obtain ⟨⟨sts, t⟩, s, w⟩ := c
    cases sts with
    | nil => exact hhalt h hs
    | cons st sts =>
      obtain ⟨sts', t', rfl, -⟩ := hstmt h
      apply Ends.halt
      rw [next_cons] at hs ⊢
      cases hst : env.step F s st with
      | none => simpa only [hst] using hs
      | some r => simp [hst] at hs
  step {n c d l c'} h hs := by
    obtain ⟨⟨sts, t⟩, s, w⟩ := c
    cases sts with
    | nil => exact hstep h hs
    | cons st sts =>
      obtain ⟨sts', t', rfl, hnext⟩ := hstmt h
      rw [next_cons] at hs
      cases hst : env.step F s st with
      | none => simp [hst] at hs
      | some r =>
        simp only [hst, Next.step.injEq] at hs
        obtain ⟨rfl, rfl⟩ := hs
        obtain ⟨m, hm⟩ := hnext r.2
        refine .inr ⟨m, _, .one ?_, hm⟩
        rw [next_cons, hst]

end Env

end Mrustc.Mir
