import Mrustc.Mir.PropagateKnownValues

/-! # Runs of a function from position to position

The same runs as those of a function, with the position in the place of what is left of the block. The
events are what the statements and calls do, without the statements themselves.
-/

namespace Mrustc.Mir

open Memory Trace Relation

variable {T P B K π E W : Type} [DecidableEq B] [Contents K π]

structure Point (B K W : Type) where
  pos : Position
  state : State B K
  world : W

/-- What a statement or a call does. -/
inductive Effect (T P B K π E : Type)
  | statement (event : Event T P B K π E)
  | call (retVal : Place B π) (fcn : CallTarget T P K) (args : List (Param P K))

def Label.effect : Label T P B K π E → Effect T P B K π E
  | .statement _ event => .statement event
  | .call retVal fcn args => .call retVal fcn args

def Point.entry (s : State B K) (w : W) : Point B K W := ⟨⟨0, 0⟩, s, w⟩

namespace Env

variable (env : Env T P B K π E W) (F : Frame T P B)

/-- Where control comes to. -/
def land (blocks : Blocks T P) :
    Departure T P B K π E W → Next (Point B K W) (Effect T P B K π E) (Outcome B K W)
  | .halt o => .halt o
  | .goes l bb s w =>
    if bb < blocks.length then .step (l.map Label.effect) ⟨⟨bb, 0⟩, s, w⟩ else .halt .stuck

/-- What an item does to the state. -/
def perform (blocks : Blocks T P) (p : Point B K W) :
    Item T P → Next (Point B K W) (Effect T P B K π E) (Outcome B K W)
  | .statement st =>
    match env.step F p.state st with
    | none => .halt .stuck
    | some (ev, s) => .step ((st.label ev).map Label.effect) ⟨⟨p.pos.bb, p.pos.stmt + 1⟩, s, p.world⟩
  | .terminator t => land blocks (env.depart F p.state p.world t)

def walk (blocks : Blocks T P) (p : Point B K W) :
    Next (Point B K W) (Effect T P B K π E) (Outcome B K W) :=
  match itemAt blocks p.pos with
  | none => .halt .stuck
  | some item => env.perform F blocks p item

abbrev Advances (blocks : Blocks T P) : Point B K W → Point B K W → Prop := Moves (env.walk F blocks)

/-- The run from the entry comes to the point. -/
def Reaches (blocks : Blocks T P) : Point B K W → Point B K W → Prop := ReflTransGen (env.Advances F blocks)

end Env

/-- What is left of the block. -/
def Point.config (code : BasicBlock T P (LValue P)) (p : Point B K W) : Config T P B K W :=
  ⟨⟨code.statements.drop p.pos.stmt, code.terminator⟩, p.state, p.world⟩

variable {env : Env T P B K π E W} {F : Frame T P B} {blocks : Blocks T P} {p p' : Point B K W}
  {item : Item T P} {code : BasicBlock T P (LValue P)} {e : Option (Effect T P B K π E)}
  {o : Outcome B K W} {pos : Position} {st : Statement T P (LValue P)} {t : Terminator T P (LValue P)}

omit [DecidableEq B] [Contents K π] in
theorem itemAt_eq_statement : itemAt blocks pos = some (.statement st) ↔
    ∃ code, blocks[pos.bb]? = some code ∧ code.statements[pos.stmt]? = some st := by
  simp only [itemAt, Option.bind_eq_bind, Option.bind_eq_some_iff]
  constructor
  · intro ⟨code, hcode, h⟩
    cases hst : code.statements[pos.stmt]? with
    | none =>
      rw [hst] at h
      by_cases hend : pos.stmt = code.statements.length <;> simp [hend] at h
    | some st' =>
      rw [hst] at h
      obtain rfl := Item.statement.inj (Option.some.inj h)
      exact ⟨code, hcode, hst⟩
  · intro ⟨code, hcode, hst⟩
    exact ⟨code, hcode, by rw [hst]; rfl⟩

omit [DecidableEq B] [Contents K π] in
theorem itemAt_eq_terminator : itemAt blocks pos = some (.terminator t) ↔
    ∃ code, blocks[pos.bb]? = some code ∧ pos.stmt = code.statements.length ∧ code.terminator = t := by
  simp only [itemAt, Option.bind_eq_bind, Option.bind_eq_some_iff]
  constructor
  · intro ⟨code, hcode, h⟩
    cases hst : code.statements[pos.stmt]? with
    | none =>
      rw [hst] at h
      by_cases hend : pos.stmt = code.statements.length
      · rw [if_pos hend] at h
        exact ⟨code, hcode, hend, Item.terminator.inj (Option.some.inj h)⟩
      · simp [hend] at h
    | some st' => simp [hst] at h
  · rintro ⟨code, hcode, hend, rfl⟩
    exact ⟨code, hcode, by simp [hend]⟩

theorem Env.walk_eq (h : itemAt blocks p.pos = some item) :
    env.walk F blocks p = env.perform F blocks p item := by
  rw [walk, h]

/-- A walk over the positions does what the function does. -/
theorem Env.next_config (hcode : blocks[p.pos.bb]? = some code) (hle : p.pos.stmt ≤ code.statements.length) :
    match env.walk F blocks p with
    | .halt o => env.next F blocks (p.config code) = .halt o
    | .step e p' => ∃ l code', blocks[p'.pos.bb]? = some code' ∧ p'.pos.stmt ≤ code'.statements.length ∧
        l.map Label.effect = e ∧ env.next F blocks (p.config code) = .step l (p'.config code') := by
  rcases hle.lt_or_eq with hlt | hend
  · have hst : code.statements[p.pos.stmt]? = some code.statements[p.pos.stmt] := List.getElem?_eq_getElem hlt
    have hitem : itemAt blocks p.pos = some (.statement code.statements[p.pos.stmt]) :=
      itemAt_eq_statement.mpr ⟨code, hcode, hst⟩
    rw [walk_eq hitem, perform, Point.config, List.drop_eq_getElem_cons hlt, next_cons]
    cases env.step F p.state code.statements[p.pos.stmt] with
    | none => rfl
    | some r => exact ⟨_, code, hcode, hlt, rfl, rfl⟩
  · have hitem : itemAt blocks p.pos = some (.terminator code.terminator) :=
      itemAt_eq_terminator.mpr ⟨code, hcode, hend, rfl⟩
    rw [walk_eq hitem, perform, Point.config, hend, List.drop_length, next_nil]
    cases env.depart F p.state p.world code.terminator with
    | halt o => rfl
    | goes l bb s w =>
      by_cases hbb : bb < blocks.length
      · rw [land, if_pos hbb]
        have hcode' := List.getElem?_eq_getElem hbb
        exact ⟨l, blocks[bb], hcode', Nat.zero_le _, rfl, arrive_goes hcode'⟩
      · rw [land, if_neg hbb]
        simp [arrive, List.getElem?_eq_none (Nat.le_of_not_lt hbb)]

/-- A step goes to the next statement of the block, or along an edge to the start of a block. -/
inductive Position.Follows (blocks : Blocks T P) : Position → Position → Prop
  | statement {pos : Position} {st : Statement T P (LValue P)} (h : itemAt blocks pos = some (.statement st)) :
    Follows blocks pos ⟨pos.bb, pos.stmt + 1⟩
  | terminator {pos : Position} {t : Terminator T P (LValue P)} {bb : BasicBlockId}
    (h : itemAt blocks pos = some (.terminator t)) (hbb : bb ∈ t.targets) (hlt : bb < blocks.length) :
    Follows blocks pos ⟨bb, 0⟩

theorem Env.Advances.follows (h : env.Advances F blocks p p') : Position.Follows blocks p.pos p'.pos := by
  obtain ⟨e, h⟩ := h
  rw [walk] at h
  cases hitem : itemAt blocks p.pos with
  | none =>
    rw [hitem] at h
    cases h
  | some item =>
    rw [hitem] at h
    cases item with
    | statement st =>
      simp only [perform] at h
      cases hst : env.step F p.state st with
      | none => simp [hst] at h
      | some r =>
        rw [hst] at h
        cases h
        exact .statement hitem
    | terminator t =>
      simp only [perform] at h
      cases hd : env.depart F p.state p.world t with
      | halt o =>
        rw [hd] at h
        cases h
      | goes l bb s w =>
        rw [hd, land] at h
        by_cases hbb : bb < blocks.length
        · rw [if_pos hbb] at h
          cases h
          exact .terminator hitem (mem_targets_of_depart hd) hbb
        · rw [if_neg hbb] at h
          cases h

end Mrustc.Mir
