import Mrustc.Mir.BlockTargets

/-! # Rewriting the contents of blocks

The contents of a block may take the place of a goto to it, a block that is not reached may become
anything, and `ScopeEnd`s do nothing.
-/

namespace Mrustc.Mir

open Trace BlockSimplify

variable {T P : Type} {blocks blocks' : Blocks T P} {i tgt : BasicBlockId}

def Terminator.isExit {L : Type} : Terminator T P L → Bool
  | .incomplete => true
  | .return_ => true
  | .diverge => true
  | _ => false

/-- Blocks whose terminators are exits or those of other blocks. -/
theorem WellFormed.of_terminators (hwf : WellFormed blocks) (hlen : blocks'.length = blocks.length)
    (h : ∀ (i : ℕ) (code : BasicBlock T P (LValue P)), blocks'[i]? = some code →
      code.terminator.isExit ∨
        ∃ (j : ℕ) (code' : BasicBlock T P (LValue P)), blocks[j]? = some code' ∧
          code'.terminator = code.terminator) : WellFormed blocks' where
  nonempty := hlen ▸ hwf.nonempty
  targets_lt {i code} hi e he := by
    rcases h i code hi with hexit | ⟨j, code', hj, heq⟩
    · cases ht : code.terminator <;> simp [ht, Terminator.isExit, Terminator.targets] at hexit he
    · exact hlen ▸ hwf.targets_lt hj e (heq ▸ he)
  switch_length {i j sts sts' val ts ts'} hi hj := by
    rcases h i _ hi with hexit | ⟨i', code, hi', heq⟩
    · cases hexit
    · rcases h j _ hj with hexit | ⟨j', code', hj', heq'⟩
      · cases hexit
      · obtain ⟨sts, t⟩ := code
        obtain ⟨sts', t'⟩ := code'
        subst heq heq'
        exact hwf.switch_length hi' hj'

section Appended

variable {B K π E W : Type}

/-- The runs are in the same block, or the second one is in a block with more of the code appended. -/
inductive AheadOfGoto (tgt : BasicBlockId) (src : BasicBlock T P (LValue P)) :
    ℕ → Config T P B K W → Config T P B K W → Prop
  | same {c} : AheadOfGoto tgt src 0 c c
  | appended {sts s w} : AheadOfGoto tgt src 1 ⟨⟨sts, .goto tgt⟩, s, w⟩
      ⟨⟨sts ++ src.statements, src.terminator⟩, s, w⟩

variable [DecidableEq B] [Memory.Contents K π] {env : Env T P B K π E W} {F : Frame T P B}
  {sts : List (Statement T P (LValue P))} {src : BasicBlock T P (LValue P)}

theorem aheadOfGoto_simulation (hi : blocks[i]? = some ⟨sts, .goto tgt⟩)
    (htgt : blocks[tgt]? = some src)
    (hi' : blocks'[i]? = some ⟨sts ++ src.statements, src.terminator⟩)
    (hother : ∀ j ≠ i, blocks'[j]? = blocks[j]?) :
    Simulation (env.next F blocks) (env.next F blocks') (AheadOfGoto tgt src) := by
  have harrive (l : Option (Label T P B K π E)) (e : BasicBlockId) (s : State B K) (w : W) :
      (Env.arrive blocks (.goes l e s w) = .halt .stuck ∧
        Env.arrive blocks' (.goes l e s w) = .halt .stuck) ∨
      ∃ c d n, Env.arrive blocks (.goes l e s w) = .step l c ∧
        Env.arrive blocks' (.goes l e s w) = .step l d ∧ AheadOfGoto tgt src n c d := by
    by_cases he : e = i
    · subst he
      exact .inr ⟨_, _, 1, Env.arrive_goes hi, Env.arrive_goes hi', .appended⟩
    · have := hother e he
      cases hcode : blocks[e]? with
      | none =>
        rw [hcode] at this
        simp [Env.arrive, this, hcode]
      | some code =>
        rw [hcode] at this
        exact .inr ⟨_, _, 0, Env.arrive_goes hcode, Env.arrive_goes this, .same⟩
  apply Env.simulation_of_code
  · intro n st sts t s w d h
    cases h with
    | same => exact ⟨sts, t, rfl, fun s' => ⟨0, .same⟩⟩
    | appended => exact ⟨sts ++ src.statements, src.terminator, rfl, fun s' => ⟨1, .appended⟩⟩
  · intro n t s w d o h hs
    cases h with
    | same =>
      apply Ends.halt
      rw [Env.next_nil] at hs ⊢
      cases hd : env.depart F s w t with
      | halt o' => rwa [hd] at hs
      | goes l e s' w' =>
        rw [hd] at hs
        rcases harrive l e s' w' with ⟨h, h'⟩ | ⟨c, d, n, h, -, -⟩
        · exact h'.trans (h.symm.trans hs)
        · rw [h] at hs
          cases hs
    | appended =>
      rw [Env.next_goto htgt] at hs
      cases hs
  · intro n t s w d l c h hs
    cases h with
    | same =>
      rw [Env.next_nil] at hs
      cases hd : env.depart F s w t with
      | halt o =>
        rw [hd] at hs
        cases hs
      | goes l' e s' w' =>
        rw [hd] at hs
        rcases harrive l' e s' w' with ⟨h, -⟩ | ⟨c, d, n, h, h', hn⟩
        · rw [h] at hs
          cases hs
        · rw [h, Next.step.injEq] at hs
          obtain ⟨rfl, rfl⟩ := hs
          refine .inr ⟨n, d, .one ?_, hn⟩
          rw [Env.next_nil, hd, h']
    | appended =>
      rw [Env.next_goto htgt, Next.step.injEq] at hs
      obtain ⟨rfl, rfl⟩ := hs
      exact .inl ⟨rfl, 0, Nat.one_pos, .same⟩

end Appended

/-- Appending a block where another one goes to it keeps the executions. -/
theorem preserves_of_appended {sts : List (Statement T P (LValue P))}
    {src : BasicBlock T P (LValue P)} (hi : blocks[i]? = some ⟨sts, .goto tgt⟩)
    (htgt : blocks[tgt]? = some src)
    (hi' : blocks'[i]? = some ⟨sts ++ src.statements, src.terminator⟩)
    (hother : ∀ j ≠ i, blocks'[j]? = blocks[j]?) : Preserves blocks blocks' := by
  intro B K π E W _ _ env F s w
  exact (aheadOfGoto_simulation hi htgt hi' hother).sameBehaviour .same

/-- The blocks that the block may go to. -/
def succs (blocks : Blocks T P) (bb : BasicBlockId) : List BasicBlockId :=
  (blocks[bb]?).elim [] fun code => code.terminator.targets

/-- What is not reached from the first block does not matter. -/
theorem preserves_of_unreached {V : BasicBlockId → Prop} (h₀ : V 0)
    (hclosed : ∀ b, V b → ∀ e ∈ succs blocks b, V e) (h : ∀ b, V b → blocks'[b]? = blocks[b]?) :
    Preserves blocks blocks' := by
  intro B K π E W _ _ env F s w
  let R (_ : ℕ) (c d : Config T P B K W) : Prop := c = d ∧ ∀ e ∈ c.code.terminator.targets, V e
  have hR : Simulation (env.next F blocks) (env.next F blocks') R := by
    apply Env.simulation_of_code
    · rintro n st sts t s w d ⟨rfl, hV⟩
      exact ⟨sts, t, rfl, fun s' => ⟨0, rfl, hV⟩⟩
    · rintro n t s w d o ⟨rfl, hV⟩ hs
      apply Ends.halt
      rw [Env.next_nil] at hs ⊢
      cases hd : env.depart F s w t with
      | halt o' => rwa [hd] at hs
      | goes l e s' w' =>
        rw [hd] at hs
        rwa [Env.arrive, h e (hV e (Env.mem_targets_of_depart hd))]
    · rintro n t s w d l c ⟨rfl, hV⟩ hs
      rw [Env.next_nil] at hs
      cases hd : env.depart F s w t with
      | halt o =>
        rw [hd] at hs
        cases hs
      | goes l' e s' w' =>
        have he := hV e (Env.mem_targets_of_depart hd)
        rw [hd] at hs
        cases hcode : blocks[e]? with
        | none => simp [Env.arrive, hcode] at hs
        | some code =>
          rw [Env.arrive_goes hcode, Next.step.injEq] at hs
          obtain ⟨rfl, rfl⟩ := hs
          refine .inr ⟨0, _, .one ?_, rfl, fun x hx => hclosed e he x ?_⟩
          · rw [Env.next_nil, hd, Env.arrive_goes ((h e he).trans hcode)]
          · rwa [succs, hcode]
  apply hR.sameBehaviour (n := 0)
  refine ⟨rfl, fun e he => ?_⟩
  rw [Terminator.targets, List.mem_singleton] at he
  exact he ▸ h₀

section ScopeEnds

def Statement.isScopeEnd : Statement T P (LValue P) → Bool
  | .scopeEnd _ => true
  | _ => false

/-- The statements that do something. -/
def withoutScopeEnds (sts : List (Statement T P (LValue P))) : List (Statement T P (LValue P)) :=
  sts.filter fun st => !st.isScopeEnd

theorem withoutScopeEnds_unifyFrom (prev : Statement T P (LValue P))
    (sts : List (Statement T P (LValue P))) :
    withoutScopeEnds (unifyFrom prev sts) = withoutScopeEnds (prev :: sts) := by
  induction sts generalizing prev with
  | nil => rfl
  | cons st sts ih =>
    unfold unifyFrom
    split
    · rw [ih]
      rfl
    · simp only [withoutScopeEnds, List.filter_cons] at ih ⊢
      rw [ih]

theorem withoutScopeEnds_unifyScopeEnds (sts : List (Statement T P (LValue P))) :
    withoutScopeEnds (unifyScopeEnds sts) = withoutScopeEnds sts := by
  cases sts with
  | nil => rfl
  | cons st sts => exact withoutScopeEnds_unifyFrom st sts

variable {B K π E W : Type} [DecidableEq B] [Memory.Contents K π] {env : Env T P B K π E W}
  {F : Frame T P B} {sts rest : List (Statement T P (LValue P))} {t : Terminator T P (LValue P)}
  {s : State B K} {w : W} {o : Outcome B K W} {l : Option (Label T P B K π E)}
  {c : Config T P B K W}

theorem next_scopeEnd {slots : List ℕ} :
    env.next F blocks ⟨⟨.scopeEnd slots :: rest, t⟩, s, w⟩ = .step none ⟨⟨rest, t⟩, s, w⟩ := rfl

theorem ends_scopeEnds (h : ∀ st ∈ sts, st.isScopeEnd)
    (hs : env.next F blocks ⟨⟨rest, t⟩, s, w⟩ = .halt o) :
    Ends (env.next F blocks) ⟨⟨sts ++ rest, t⟩, s, w⟩ [] o := by
  induction sts with
  | nil => exact .halt hs
  | cons st sts ih =>
    have hst := h st List.mem_cons_self
    cases st with
    | scopeEnd slots => exact .step next_scopeEnd (ih fun x hx => h x (List.mem_cons_of_mem _ hx))
    | _ => cases hst

theorem steps_scopeEnds (h : ∀ st ∈ sts, st.isScopeEnd)
    (hs : env.next F blocks ⟨⟨rest, t⟩, s, w⟩ = .step l c) :
    Steps (env.next F blocks) ⟨⟨sts ++ rest, t⟩, s, w⟩ l.toList c := by
  induction sts with
  | nil => exact .one hs
  | cons st sts ih =>
    have hst := h st List.mem_cons_self
    cases st with
    | scopeEnd slots => exact .cons next_scopeEnd (ih fun x hx => h x (List.mem_cons_of_mem _ hx))
    | _ => cases hst

/-- The runs are at the same place but for `ScopeEnd`s. -/
inductive SameButScopeEnds : ℕ → Config T P B K W → Config T P B K W → Prop
  | mk {sts sts' t s w} (h : withoutScopeEnds sts' = withoutScopeEnds sts) :
    SameButScopeEnds sts.length ⟨⟨sts, t⟩, s, w⟩ ⟨⟨sts', t⟩, s, w⟩

omit [DecidableEq B] [Memory.Contents K π] in
theorem arrive_unified (blocks : Blocks T P) (d : Departure T P B K π E W) :
    (∃ o, Env.arrive blocks d = .halt o ∧ Env.arrive (unified blocks) d = .halt o) ∨
      ∃ l c c' n, Env.arrive blocks d = .step l c ∧ Env.arrive (unified blocks) d = .step l c' ∧
        SameButScopeEnds n c c' := by
  cases d with
  | halt o => exact .inl ⟨o, rfl, rfl⟩
  | goes l e s w =>
    cases hcode : blocks[e]? with
    | none =>
      have hcode' : (unified blocks)[e]? = none := by rw [unified, List.getElem?_map, hcode]; rfl
      exact .inl ⟨.stuck, by rw [Env.arrive, hcode], by rw [Env.arrive, hcode']⟩
    | some code =>
      have hcode' : (unified blocks)[e]? =
          some { code with statements := unifyScopeEnds code.statements } := by
        rw [unified, List.getElem?_map, hcode]
        rfl
      exact .inr ⟨l, _, _, _, Env.arrive_goes hcode, Env.arrive_goes hcode',
        .mk (withoutScopeEnds_unifyScopeEnds _)⟩

/-- Before a statement that does something the other run is before it too, but for `ScopeEnd`s. -/
theorem withoutScopeEnds_cons {st : Statement T P (LValue P)}
    {sts sts' : List (Statement T P (LValue P))} (hst : st.isScopeEnd = false)
    (h : withoutScopeEnds sts' = withoutScopeEnds (st :: sts)) :
    ∃ ss rest, sts' = ss ++ st :: rest ∧ (∀ x ∈ ss, x.isScopeEnd) ∧
      withoutScopeEnds rest = withoutScopeEnds sts := by
  have hcons : withoutScopeEnds (st :: sts) = st :: withoutScopeEnds sts := by
    simp [withoutScopeEnds, hst]
  rw [hcons] at h
  obtain ⟨ss, rest, rfl, hss, -, hrest⟩ := List.filter_eq_cons_iff.mp h
  exact ⟨ss, rest, rfl, fun x hx => by simpa using hss x hx, hrest⟩

theorem withoutScopeEnds_eq_nil {sts : List (Statement T P (LValue P))}
    (h : withoutScopeEnds sts = []) : ∀ st ∈ sts, st.isScopeEnd := by
  simpa [withoutScopeEnds] using h

theorem scopeEnds_simulation :
    Simulation (env.next F blocks) (env.next F (unified blocks)) SameButScopeEnds where
  halt {n c d o} h hs := by
    cases h with
    | @mk sts sts' t s w h =>
      cases sts with
      | nil =>
        rw [← List.append_nil sts']
        apply ends_scopeEnds (withoutScopeEnds_eq_nil h)
        rw [Env.next_nil] at hs ⊢
        rcases arrive_unified blocks (env.depart F s w t) with
          ⟨o', ho, ho'⟩ | ⟨l, c, c', n, hc, -, -⟩
        · exact ho'.trans (ho.symm.trans hs)
        · rw [hc] at hs
          cases hs
      | cons st sts =>
        by_cases hst : st.isScopeEnd
        · cases st with
          | scopeEnd slots => cases hs
          | _ => cases hst
        · obtain ⟨ss, rest, rfl, hss, -⟩ := withoutScopeEnds_cons (Bool.not_eq_true _ ▸ hst) h
          apply ends_scopeEnds hss
          rw [Env.next_cons] at hs ⊢
          cases hr : env.step F s st with
          | none => rwa [hr] at hs
          | some r =>
            rw [hr] at hs
            cases hs
  step {n c d l c'} h hs := by
    cases h with
    | @mk sts sts' t s w h =>
      cases sts with
      | nil =>
        rw [Env.next_nil] at hs
        rcases arrive_unified blocks (env.depart F s w t) with
          ⟨o, ho, -⟩ | ⟨l', c, d, n, hc, hd, hn⟩
        · rw [ho] at hs
          cases hs
        · rw [hc, Next.step.injEq] at hs
          obtain ⟨rfl, rfl⟩ := hs
          refine .inr ⟨n, d, ?_, hn⟩
          rw [← List.append_nil sts']
          exact steps_scopeEnds (withoutScopeEnds_eq_nil h) hd
      | cons st sts =>
        by_cases hst : st.isScopeEnd
        · cases st with
          | scopeEnd slots =>
            rw [next_scopeEnd, Next.step.injEq] at hs
            obtain ⟨rfl, rfl⟩ := hs
            exact .inl ⟨rfl, sts.length, Nat.lt_succ_self _, .mk h⟩
          | _ => cases hst
        · obtain ⟨ss, rest, rfl, hss, hrest⟩ := withoutScopeEnds_cons (Bool.not_eq_true _ ▸ hst) h
          rw [Env.next_cons] at hs
          cases hr : env.step F s st with
          | none =>
            rw [hr] at hs
            cases hs
          | some r =>
            rw [hr, Next.step.injEq] at hs
            obtain ⟨rfl, rfl⟩ := hs
            refine .inr ⟨sts.length, ⟨⟨rest, t⟩, r.2, w⟩, steps_scopeEnds hss ?_, .mk hrest⟩
            rw [Env.next_cons, hr]

end ScopeEnds

/-- Unifying `ScopeEnd`s keeps the executions. -/
theorem preserves_unified (blocks : Blocks T P) : Preserves blocks (unified blocks) := by
  intro B K π E W _ _ env F s w
  exact scopeEnds_simulation.sameBehaviour (.mk rfl)

theorem wellFormed_unified (hwf : WellFormed blocks) : WellFormed (unified blocks) := by
  apply hwf.of_terminators
  · exact List.length_map _
  · intro i code h
    rw [unified, List.getElem?_map, Option.map_eq_some_iff] at h
    obtain ⟨code', hcode, rfl⟩ := h
    exact .inr ⟨i, code', hcode, rfl⟩

/-- A block that ends with a `Return` or `Diverge` instead of a goto to one. -/
theorem shortcutExit_some (hwf : WellFormed blocks) (hi : i < blocks.length) :
    ∃ blocks', shortcutExit blocks i = some blocks' ∧ blocks'.length = blocks.length ∧
      WellFormed blocks' ∧ Preserves blocks blocks' := by
  obtain ⟨sts, t, hcode⟩ : ∃ sts t, blocks[i]? = some ⟨sts, t⟩ :=
    ⟨_, _, List.getElem?_eq_getElem hi⟩
  simp only [shortcutExit, hcode, Option.bind_eq_bind, Option.bind_some, Option.pure_def]
  split
  · next tgt =>
    have hlt := hwf.targets_lt hcode tgt (List.mem_singleton_self _)
    obtain ⟨sts', t', htgt⟩ : ∃ sts' t', blocks[tgt]? = some ⟨sts', t'⟩ :=
      ⟨_, _, List.getElem?_eq_getElem hlt⟩
    simp only [htgt, Option.bind_some]
    have hset {t : Terminator T P (LValue P)} (ht : t.isExit)
        (htgt : blocks[tgt]? = some ⟨[], t⟩) : WellFormed (blocks.set i ⟨sts, t⟩) ∧
          Preserves blocks (blocks.set i ⟨sts, t⟩) := by
      refine ⟨hwf.of_terminators List.length_set fun j code hj => ?_, ?_⟩
      · by_cases hij : i = j
        · subst hij
          rw [List.getElem?_set_self hi, Option.some.injEq] at hj
          exact .inl (hj ▸ ht)
        · rw [List.getElem?_set_ne hij] at hj
          exact .inr ⟨j, code, hj, rfl⟩
      · apply preserves_of_appended hcode htgt
        · rw [List.getElem?_set_self hi, List.append_nil]
        · exact fun j hj => List.getElem?_set_ne hj.symm
    split
    · exact ⟨_, rfl, List.length_set, hset rfl htgt⟩
    · exact ⟨_, rfl, List.length_set, hset rfl htgt⟩
    · exact ⟨blocks, rfl, rfl, hwf, .refl blocks⟩
  · exact ⟨blocks, rfl, rfl, hwf, .refl blocks⟩

end Mrustc.Mir
