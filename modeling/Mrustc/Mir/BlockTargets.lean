import Mrustc.Mir.BlockSimplify

/-! # Rewriting the targets of blocks

A target may be exchanged for one that a chain of gotos leads to, and a target of a switch for the one
that a further switch on the same value selects.
-/

namespace Mrustc.Mir

open Trace BlockSimplify Relation

variable {T P : Type} {blocks blocks' : Blocks T P} {a b c : BasicBlockId} {n : ℕ}

/-- What the builder of the MIR ensures: targets are blocks, and the switches on a value have a target for
each of its variants. -/
structure WellFormed (blocks : Blocks T P) : Prop where
  nonempty : 0 < blocks.length
  targets_lt {i : ℕ} {code : BasicBlock T P (LValue P)} (h : blocks[i]? = some code) :
    ∀ e ∈ code.terminator.targets, e < blocks.length
  switch_length {i j : ℕ} {sts sts' : List (Statement T P (LValue P))} {val : LValue P}
    {ts ts' : List BasicBlockId} (h : blocks[i]? = some ⟨sts, .switch val ts⟩)
    (h' : blocks[j]? = some ⟨sts', .switch val ts'⟩) : ts.length = ts'.length

/-- The block is just a goto to another one. -/
def Forwards (blocks : Blocks T P) (a b : BasicBlockId) : Prop :=
  blocks[a]? = some ⟨[], .goto b⟩ ∧ a ≠ b

/-- So many gotos lead from one block to the other. -/
inductive LeadsTo (blocks : Blocks T P) : ℕ → BasicBlockId → BasicBlockId → Prop
  | refl (a : BasicBlockId) : LeadsTo blocks 0 a a
  | step {n : ℕ} {a b c : BasicBlockId} (h : Forwards blocks a b) (hs : LeadsTo blocks n b c) :
    LeadsTo blocks (n + 1) a c

theorem LeadsTo.reflTransGen (h : LeadsTo blocks n a b) : ReflTransGen (Forwards blocks) a b := by
  induction h with
  | refl a => exact .refl
  | step h _ ih => exact .head h ih

theorem LeadsTo.lt (hwf : WellFormed blocks) (h : LeadsTo blocks n a b) (ha : a < blocks.length) :
    b < blocks.length := by
  induction h with
  | refl a => exact ha
  | step h _ ih => exact ih (hwf.targets_lt h.1 _ (List.mem_singleton_self _))

/-- Every target was exchanged for one that gotos lead to. -/
def Retargeted (blocks blocks' : Blocks T P) : Prop :=
  ∀ (i : ℕ) (code : BasicBlock T P (LValue P)), blocks[i]? = some code →
    ∃ cb : BasicBlockId → BasicBlockId, (∀ e ∈ code.terminator.targets, ∃ n, LeadsTo blocks n e (cb e)) ∧
      blocks'[i]? = some { code with terminator := code.terminator.mapTargets cb }

section Retargeted

variable {B K π E W : Type}

/-- The first run is in the same block, or it still follows gotos to the block that the second run has
reached. -/
inductive Behind (blocks blocks' : Blocks T P) : ℕ → Config T P B K W → Config T P B K W → Prop
  | here {sts t s w} (cb : BasicBlockId → BasicBlockId) (ht : ∀ e ∈ Terminator.targets t, e < blocks.length)
    (h : ∀ e ∈ Terminator.targets t, ∃ n, LeadsTo blocks n e (cb e)) :
    Behind blocks blocks' 0 ⟨⟨sts, t⟩, s, w⟩ ⟨⟨sts, t.mapTargets cb⟩, s, w⟩
  | gotos {n : ℕ} {e e' : BasicBlockId} {code : BasicBlock T P (LValue P)} {s w}
    (he : e < blocks.length) (h : LeadsTo blocks n e e') (hcode : blocks'[e']? = some code) :
    Behind blocks blocks' (n + 1) ⟨⟨[], .goto e⟩, s, w⟩ ⟨code, s, w⟩

/-- A block that leads to another one is behind it. -/
theorem Behind.arrive (hwf : WellFormed blocks) (hr : Retargeted blocks blocks') (s : State B K)
    (w : W) (ha : a < blocks.length) (h : LeadsTo blocks n a b) :
    ∃ code code' m, blocks[a]? = some code ∧ blocks'[b]? = some code' ∧ m ≤ n ∧
      Behind blocks blocks' m ⟨code, s, w⟩ ⟨code', s, w⟩ := by
  have hb := h.lt hwf ha
  obtain ⟨cb, hcb, hcode'⟩ := hr b _ (List.getElem?_eq_getElem hb)
  cases h with
  | refl =>
    exact ⟨_, _, 0, List.getElem?_eq_getElem ha, hcode', le_rfl,
      .here cb (hwf.targets_lt (List.getElem?_eq_getElem ha)) hcb⟩
  | step h hs =>
    have he := hwf.targets_lt h.1 _ (List.mem_singleton_self _)
    exact ⟨_, _, _, h.1, hcode', le_rfl, .gotos he hs hcode'⟩

variable [DecidableEq B] [Memory.Contents K π] {env : Env T P B K π E W} {F : Frame T P B}

theorem behind_simulation (hwf : WellFormed blocks) (hr : Retargeted blocks blocks') :
    Simulation (env.next F blocks) (env.next F blocks') (Behind blocks blocks') := by
  apply Env.simulation_of_code
  · intro n st sts t s w d h
    cases h with
    | here cb ht h => exact ⟨sts, _, rfl, fun s' => ⟨0, .here cb ht h⟩⟩
  · intro n t s w d o h hs
    cases h with
    | here cb ht h =>
      apply Ends.halt
      rw [Env.next_nil] at hs ⊢
      rw [Env.depart_mapTargets]
      cases hd : env.depart F s w t with
      | halt o' =>
        rw [hd] at hs
        exact hs
      | goes l e s' w' =>
        -- a target of the terminator is a block
        have he := Env.mem_targets_of_depart hd
        rw [hd, Env.arrive_goes (List.getElem?_eq_getElem (ht e he))] at hs
        cases hs
    | gotos he h hcode =>
      rw [Env.next_goto (List.getElem?_eq_getElem he)] at hs
      cases hs
  · intro n t s w d l c h hs
    cases h with
    | here cb ht h =>
      rw [Env.next_nil] at hs
      cases hd : env.depart F s w t with
      | halt o =>
        rw [hd] at hs
        cases hs
      | goes l' e s' w' =>
        have he := Env.mem_targets_of_depart hd
        obtain ⟨k, hk⟩ := h e he
        obtain ⟨code, code', m, hc, hc', -, hm⟩ := Behind.arrive hwf hr s' w' (ht e he) hk
        rw [hd, Env.arrive_goes hc, Next.step.injEq] at hs
        obtain ⟨rfl, rfl⟩ := hs
        refine .inr ⟨m, _, .one ?_, hm⟩
        rw [Env.next_nil, Env.depart_mapTargets, hd]
        exact Env.arrive_goes hc'
    | gotos he h hcode =>
      obtain ⟨code, code', m, hc, hc', hle, hm⟩ := Behind.arrive hwf hr s w he h
      rw [Env.next_goto hc, Next.step.injEq] at hs
      obtain ⟨rfl, rfl⟩ := hs
      obtain rfl := Option.some.inj (hcode.symm.trans hc')
      exact .inl ⟨rfl, m, by omega, hm⟩

end Retargeted

/-- Skipping gotos keeps the executions. -/
theorem preserves_of_retargeted (hwf : WellFormed blocks) (hr : Retargeted blocks blocks') :
    Preserves blocks blocks' := by
  intro B K π E W _ _ env F s w
  apply (behind_simulation hwf hr).sameBehaviour
  apply Behind.here id
  · intro e he
    rw [Terminator.targets, List.mem_singleton] at he
    exact he ▸ hwf.nonempty
  · intro e he
    exact ⟨0, .refl e⟩

namespace Retargeted

variable (hr : Retargeted blocks blocks') (hlen : blocks'.length = blocks.length)

include hr hlen in
theorem source {i : ℕ} {sts : List (Statement T P (LValue P))} {t' : Terminator T P (LValue P)}
    (h : blocks'[i]? = some ⟨sts, t'⟩) : ∃ t cb, blocks[i]? = some ⟨sts, t⟩ ∧
      (∀ e ∈ t.targets, ∃ n, LeadsTo blocks n e (cb e)) ∧ t' = t.mapTargets cb := by
  have hi : i < blocks.length := hlen ▸ (List.getElem?_eq_some_iff.mp h).1
  obtain ⟨cb, hcb, hcode⟩ := hr i _ (List.getElem?_eq_getElem hi)
  rw [h, Option.some.injEq, BasicBlock.mk.injEq] at hcode
  obtain ⟨rfl, rfl⟩ := hcode
  exact ⟨_, cb, List.getElem?_eq_getElem hi, hcb, rfl⟩

include hr hlen in
theorem wellFormed (hwf : WellFormed blocks) : WellFormed blocks' where
  nonempty := hlen ▸ hwf.nonempty
  targets_lt {i code} h e he := by
    obtain ⟨t, cb, ht, hcb, heq⟩ := hr.source hlen h
    rw [heq, Terminator.targets_mapTargets, List.mem_map] at he
    obtain ⟨e, he, rfl⟩ := he
    obtain ⟨n, hn⟩ := hcb e he
    exact hlen ▸ hn.lt hwf (hwf.targets_lt ht e he)
  switch_length {i j sts sts' val ts ts'} h h' := by
    obtain ⟨t, cb, ht, -, heq⟩ := hr.source hlen h
    obtain ⟨t', cb', ht', -, heq'⟩ := hr.source hlen h'
    cases t with
    | switch val ts =>
      cases t' with
      | switch val' ts' =>
        simp only [Terminator.mapTargets, Terminator.switch.injEq] at heq heq'
        obtain ⟨rfl, rfl⟩ := heq
        obtain ⟨rfl, rfl⟩ := heq'
        rw [List.length_map, List.length_map]
        exact hwf.switch_length ht ht'
      | _ => cases heq'
    | _ => cases heq

include hr hlen in
/-- No goto leads further than gotos led before. -/
theorem forwards (h : Forwards blocks' a b) : TransGen (Forwards blocks) a b := by
  obtain ⟨hcode, hne⟩ := h
  obtain ⟨t, cb, ht, hcb, heq⟩ := hr.source hlen hcode
  cases t with
  | goto e =>
    simp only [Terminator.mapTargets, Terminator.goto.injEq] at heq
    obtain ⟨n, hn⟩ := hcb e (List.mem_singleton_self _)
    rw [← heq] at hn
    by_cases hae : a = e
    · -- a block that is a goto to itself leads nowhere else
      subst hae
      cases hn with
      | refl => exact absurd rfl hne
      | step h _ =>
        obtain ⟨h, hne'⟩ := h
        rw [ht, Option.some.injEq, BasicBlock.mk.injEq, Terminator.goto.injEq] at h
        exact absurd h.2 hne'
    · exact .head' ⟨ht, hae⟩ hn.reflTransGen
  | _ => cases heq

end Retargeted

/-- A switch may take the target of a switch on the same value that it went on to. -/
def ChainedTerminator (blocks : Blocks T P) (t t' : Terminator T P (LValue P)) : Prop :=
  t' = t ∨ ∃ val ts ts', t = .switch val ts ∧ t' = .switch val ts' ∧ ts'.length = ts.length ∧
    ∀ (v : ℕ) (e e' : BasicBlockId), ts[v]? = some e → ts'[v]? = some e' → e' = e ∨
      ∃ nTs, blocks[e]? = some ⟨[], .switch val nTs⟩ ∧ nTs[v]? = some e'

def Chained (blocks blocks' : Blocks T P) : Prop :=
  ∀ (i : ℕ) (sts : List (Statement T P (LValue P))) (t : Terminator T P (LValue P)),
    blocks[i]? = some ⟨sts, t⟩ → ∃ t', blocks'[i]? = some ⟨sts, t'⟩ ∧ ChainedTerminator blocks t t'

section Chained

variable {B K π E W : Type} [DecidableEq B] [Memory.Contents K π] {env : Env T P B K π E W}
  {F : Frame T P B}

/-- The first run is in the same block, or before a switch that takes it where the second run is. -/
inductive BeforeSwitch (env : Env T P B K π E W) (F : Frame T P B) (blocks blocks' : Blocks T P) :
    ℕ → Config T P B K W → Config T P B K W → Prop
  | here {sts t t' s w} (ht : ∀ e ∈ Terminator.targets t, e < blocks.length)
    (h : ChainedTerminator blocks t t') :
    BeforeSwitch env F blocks blocks' 0 ⟨⟨sts, t⟩, s, w⟩ ⟨⟨sts, t'⟩, s, w⟩
  | switch {val : LValue P} {ts : List BasicBlockId} {v : ℕ} {e : BasicBlockId}
    {code : BasicBlock T P (LValue P)} {s w} (ht : ∀ e ∈ ts, e < blocks.length)
    (hv : env.selected F s val = some v) (he : ts[v]? = some e) (hcode : blocks'[e]? = some code) :
    BeforeSwitch env F blocks blocks' 1 ⟨⟨[], .switch val ts⟩, s, w⟩ ⟨code, s, w⟩

variable (env F) in
theorem BeforeSwitch.arrive (hwf : WellFormed blocks) (hc : Chained blocks blocks') (s : State B K)
    (w : W) (ha : a < blocks.length) :
    ∃ code code', blocks[a]? = some code ∧ blocks'[a]? = some code' ∧
      BeforeSwitch env F blocks blocks' 0 ⟨code, s, w⟩ ⟨code', s, w⟩ := by
  obtain ⟨t', ht', hc⟩ := hc a _ _ (List.getElem?_eq_getElem ha)
  exact ⟨_, _, List.getElem?_eq_getElem ha, ht',
    .here (hwf.targets_lt (List.getElem?_eq_getElem ha)) hc⟩

variable (env F) in
/-- Either target is the same, or the first run comes to the other switch. -/
theorem ChainedTerminator.depart {t t' : Terminator T P (LValue P)}
    (h : ChainedTerminator blocks t t') (s : State B K) (w : W) :
    (∃ o, env.depart F s w t = .halt o ∧ env.depart F s w t' = .halt o) ∨
      ∃ l e e' s' w', env.depart F s w t = .goes l e s' w' ∧ env.depart F s w t' = .goes l e' s' w' ∧
        (e' = e ∨ ∃ val ts v, blocks[e]? = some ⟨[], .switch val ts⟩ ∧
          env.selected F s' val = some v ∧ ts[v]? = some e') := by
  rcases h with rfl | ⟨val, ts, ts', rfl, rfl, hlen, h⟩
  · cases hd : env.depart F s w t' with
    | halt o => exact .inl ⟨o, rfl, rfl⟩
    | goes l e s' w' => exact .inr ⟨l, e, e, s', w', rfl, rfl, .inl rfl⟩
  · rw [Env.depart_switch, Env.depart_switch]
    cases hv : env.selected F s val with
    | none => exact .inl ⟨.stuck, rfl, rfl⟩
    | some v =>
      by_cases hlt : v < ts.length
      · have he := List.getElem?_eq_getElem hlt
        have he' := List.getElem?_eq_getElem (hlen ▸ hlt)
        rw [Option.bind_some, he, Option.bind_some, he']
        refine .inr ⟨none, _, _, s, w, rfl, rfl, ?_⟩
        rcases h v _ _ he he' with heq | ⟨nTs, hcode, hn⟩
        · exact .inl heq
        · exact .inr ⟨val, nTs, v, hcode, hv, hn⟩
      · have he := List.getElem?_eq_none (not_lt.mp hlt)
        have he' := List.getElem?_eq_none (not_lt.mp (hlen ▸ hlt))
        rw [Option.bind_some, he, Option.bind_some, he']
        exact .inl ⟨.stuck, rfl, rfl⟩

theorem beforeSwitch_simulation (hwf : WellFormed blocks) (hchain : Chained blocks blocks') :
    Simulation (env.next F blocks) (env.next F blocks') (BeforeSwitch env F blocks blocks') := by
  apply Env.simulation_of_code
  · intro n st sts t s w d h
    cases h with
    | here ht h => exact ⟨sts, _, rfl, fun s' => ⟨0, .here ht h⟩⟩
  · intro n t s w d o h hs
    cases h with
    | here ht h =>
      apply Ends.halt
      rw [Env.next_nil] at hs ⊢
      rcases h.depart env F s w with ⟨o', hd, hd'⟩ | ⟨l, e, e', s', w', hd, hd', -⟩
      · rw [hd']
        rw [hd] at hs
        exact hs
      · rw [hd, Env.arrive_goes (List.getElem?_eq_getElem (ht e (Env.mem_targets_of_depart hd)))] at hs
        cases hs
    | switch ht hv he hcode =>
      have hlt := ht _ (List.mem_of_getElem? he)
      rw [Env.next_nil, Env.depart_switch, hv, Option.bind_some, he,
        Env.arrive_goes (List.getElem?_eq_getElem hlt)] at hs
      cases hs
  · intro n t s w d l c h hs
    cases h with
    | here ht h =>
      rw [Env.next_nil] at hs
      rcases h.depart env F s w with ⟨o', hd, hd'⟩ | ⟨l', e, e', s', w', hd, hd', he⟩
      · rw [hd] at hs
        cases hs
      · have hlt := ht e (Env.mem_targets_of_depart hd)
        obtain ⟨code, code', hc, hc', hm⟩ := BeforeSwitch.arrive env F hwf hchain s' w' hlt
        rw [hd, Env.arrive_goes hc, Next.step.injEq] at hs
        obtain ⟨rfl, rfl⟩ := hs
        rcases he with rfl | ⟨val, ts, v, hcode, hv, he⟩
        · refine .inr ⟨0, _, .one ?_, hm⟩
          rw [Env.next_nil, hd']
          exact Env.arrive_goes hc'
        · have hts := hwf.targets_lt hcode
          obtain rfl := Option.some.inj (hcode.symm.trans hc)
          have hlt' := hts e' (List.mem_of_getElem? he)
          obtain ⟨_, code'', -, hc'', -⟩ := BeforeSwitch.arrive env F hwf hchain s' w' hlt'
          refine .inr ⟨1, _, .one ?_, .switch hts hv he hc''⟩
          rw [Env.next_nil, hd']
          exact Env.arrive_goes hc''
    | switch ht hv he hcode =>
      have hlt := ht _ (List.mem_of_getElem? he)
      obtain ⟨code, code', hc, hc', hm⟩ := BeforeSwitch.arrive env F hwf hchain s w hlt
      rw [Env.next_nil, Env.depart_switch, hv, Option.bind_some, he, Env.arrive_goes hc,
        Next.step.injEq] at hs
      obtain ⟨rfl, rfl⟩ := hs
      obtain rfl := Option.some.inj (hcode.symm.trans hc')
      exact .inl ⟨rfl, 0, Nat.one_pos, hm⟩

end Chained

/-- Short-cutting switches keeps the executions. -/
theorem preserves_of_chained (hwf : WellFormed blocks) (hc : Chained blocks blocks') :
    Preserves blocks blocks' := by
  intro B K π E W _ _ env F s w
  apply (beforeSwitch_simulation hwf hc).sameBehaviour (n := 0)
  apply BeforeSwitch.here _ (.inl rfl)
  intro e he
  rw [Terminator.targets, List.mem_singleton] at he
  exact he ▸ hwf.nonempty

namespace Chained

variable (hc : Chained blocks blocks') (hlen : blocks'.length = blocks.length)

include hc hlen in
theorem source {i : ℕ} {sts : List (Statement T P (LValue P))} {t' : Terminator T P (LValue P)}
    (h : blocks'[i]? = some ⟨sts, t'⟩) :
    ∃ t, blocks[i]? = some ⟨sts, t⟩ ∧ ChainedTerminator blocks t t' := by
  have hi : i < blocks.length := hlen ▸ (List.getElem?_eq_some_iff.mp h).1
  obtain ⟨t'', ht, hct⟩ := hc i _ _ (List.getElem?_eq_getElem hi)
  rw [h, Option.some.injEq, BasicBlock.mk.injEq] at ht
  obtain ⟨hsts, rfl⟩ := ht
  exact ⟨_, hsts ▸ List.getElem?_eq_getElem hi, hct⟩

include hc hlen in
theorem wellFormed (hwf : WellFormed blocks) : WellFormed blocks' where
  nonempty := hlen ▸ hwf.nonempty
  targets_lt {i code} h e he := by
    obtain ⟨t, ht, heq | ⟨val, ts, ts', rfl, heq, hts, hsel⟩⟩ := hc.source hlen h
    · exact hlen ▸ hwf.targets_lt ht e (heq ▸ he)
    · rw [heq] at he
      obtain ⟨v, hv⟩ := List.getElem?_of_mem he
      have hlt : v < ts.length := hts ▸ (List.getElem?_eq_some_iff.mp hv).1
      have hv' := List.getElem?_eq_getElem hlt
      rw [hlen]
      rcases hsel v _ e hv' hv with rfl | ⟨nTs, hcode, hn⟩
      · exact hwf.targets_lt ht _ (List.mem_of_getElem? hv')
      · exact hwf.targets_lt hcode e (List.mem_of_getElem? hn)
  switch_length {i j sts sts' val ts ts'} h h' := by
    have hsource {i : ℕ} {sts val ts} (h : blocks'[i]? = some ⟨sts, .switch val ts⟩) :
        ∃ ts₀, blocks[i]? = some ⟨sts, .switch val ts₀⟩ ∧ ts.length = ts₀.length := by
      obtain ⟨t, ht, rfl | ⟨val', ts₀, ts', rfl, heq, hts, -⟩⟩ := hc.source hlen h
      · exact ⟨ts, ht, rfl⟩
      · rw [Terminator.switch.injEq] at heq
        obtain ⟨rfl, rfl⟩ := heq
        exact ⟨ts₀, ht, hts⟩
    obtain ⟨ts₀, h₀, hts₀⟩ := hsource h
    obtain ⟨ts₁, h₁, hts₁⟩ := hsource h'
    rw [hts₀, hts₁]
    exact hwf.switch_length h₀ h₁

include hc hlen in
theorem forwards (h : Forwards blocks' a b) : Forwards blocks a b := by
  obtain ⟨t, ht, rfl | ⟨val, ts, ts', -, heq, -⟩⟩ := hc.source hlen h.1
  · exact ⟨ht, h.2⟩
  · cases heq

end Chained

end Mrustc.Mir
