import Mrustc.Depth.Loops
import Mrustc.Mir.BlockTargets

/-! # Following gotos

The loop that skips gotos returns unless some gotos go round in a circle, and then it never returns.
-/

namespace Mrustc.Mir

open BlockSimplify Relation Depth Filter

variable {T P : Type} {blocks blocks' : Blocks T P} {a b : BasicBlockId} {fuel i : ℕ}

/-- Blocks that are just gotos, and go round in a circle of more than one block. -/
def OnCycle (blocks : Blocks T P) (a : BasicBlockId) : Prop := TransGen (Forwards blocks) a a

theorem Forwards.unique {b' : BasicBlockId} (h : Forwards blocks a b) (h' : Forwards blocks a b') :
    b = b' := by
  have := h.1.symm.trans h'.1
  rw [Option.some.injEq, BasicBlock.mk.injEq, Terminator.goto.injEq] at this
  exact this.2

theorem getNewTarget_forwards (h : Forwards blocks a b) :
    getNewTarget blocks (fuel + 1) a = getNewTarget blocks fuel b := by
  simp [getNewTarget, h.1, h.2]

theorem getNewTarget_of_not_forwards (ha : a < blocks.length) (h : ∀ b, ¬ Forwards blocks a b) :
    getNewTarget blocks (fuel + 1) a = some a := by
  rw [getNewTarget, List.getElem?_eq_getElem ha, Option.bind_eq_bind, Option.bind_some]
  split
  · rfl
  · next hsts =>
    split
    · next next hterm =>
      split
      · rfl
      · next hne =>
        -- otherwise the block would forward
        refine absurd ⟨?_, hne⟩ (h next)
        rw [List.getElem?_eq_getElem ha, Option.some.injEq, BasicBlock.mk.injEq]
        exact ⟨List.eq_nil_of_length_eq_zero (not_not.mp hsts), hterm⟩
    · rfl

section Returns

variable (hwf : WellFormed blocks) (hcycle : ∀ a, ¬ OnCycle blocks a)

include hwf hcycle in
theorem getNewTarget_yields (ha : a < blocks.length) :
    ∃ n b, LeadsTo blocks n a b ∧ Yields (getNewTarget blocks · a) b := by
  let r (x y : Fin blocks.length) : Prop := TransGen (Forwards blocks) y x
  have : IsTrans _ r := ⟨fun x y z hxy hyz => hyz.trans hxy⟩
  have : Std.Irrefl r := ⟨fun x => hcycle x⟩
  have hr : WellFounded r := Finite.wellFounded_of_trans_of_irrefl r
  lift a to Fin blocks.length using ha
  induction a using hr.induction with
  | _ a ih =>
    by_cases h : ∃ b, Forwards blocks a b
    · obtain ⟨b, hb⟩ := h
      have hlt := hwf.targets_lt hb.1 b (List.mem_singleton_self _)
      obtain ⟨n, c, hc, hy⟩ := ih ⟨b, hlt⟩ (.single hb)
      refine ⟨n + 1, c, .step hb hc, .of_succ ?_⟩
      simp only [getNewTarget_forwards hb]
      exact hy
    · exact ⟨0, a, .refl _, .of_succ (.of_forall fun n =>
        getNewTarget_of_not_forwards a.2 (not_exists.mp h))⟩

include hwf hcycle in
theorem retarget_yields (hi : i < blocks.length) :
    ∃ blocks', Yields (retarget · blocks i) blocks' ∧ Retargeted blocks blocks' ∧
      blocks'.length = blocks.length := by
  have htarget (e : BasicBlockId) : ∃ e' n, e < blocks.length → LeadsTo blocks n e e' ∧
      Yields (fun fuel => if e = i then some e else getNewTarget blocks fuel e) e' := by
    by_cases he : e < blocks.length
    · by_cases hei : e = i
      · exact ⟨e, 0, fun _ => ⟨.refl e, .of_forall fun _ => if_pos hei⟩⟩
      · obtain ⟨n, e', hn, hy⟩ := getNewTarget_yields hwf hcycle he
        simp only [if_neg hei]
        exact ⟨e', n, fun _ => ⟨hn, hy⟩⟩
    · exact ⟨e, 0, fun h => absurd h he⟩
  choose cb n hcb using htarget
  have hcode := List.getElem?_eq_getElem hi
  have hlt := hwf.targets_lt hcode
  have hall : ∀ᶠ fuel in atTop, ∀ e ∈ blocks[i].terminator.targets,
      (if e = i then some e else getNewTarget blocks fuel e) = some (cb e) := by
    apply (eventually_all_finite (List.finite_toSet blocks[i].terminator.targets)).mpr
    exact fun e he => (hcb e (hlt e he)).2
  refine ⟨blocks.set i ⟨blocks[i].statements, blocks[i].terminator.mapTargets cb⟩, ?_, ?_, ?_⟩
  · filter_upwards [hall] with fuel hfuel
    simp only [retarget, hcode, Option.bind_eq_bind, Option.bind_some,
      Terminator.mapTargetsM_eq hfuel, Option.pure_def]
  · intro j code hj
    by_cases hij : i = j
    · subst hij
      obtain rfl := Option.some.inj (hcode.symm.trans hj)
      exact ⟨cb, fun e he => ⟨n e, (hcb e (hlt e he)).1⟩, List.getElem?_set_self hi⟩
    · refine ⟨id, fun e he => ⟨0, .refl e⟩, ?_⟩
      rw [List.getElem?_set_ne hij, hj, Terminator.mapTargets_id]
  · exact List.length_set

end Returns

theorem chainedTarget_some [DecidableEq P] (hwf : WellFormed blocks)
    {sts : List (Statement T P (LValue P))} {val : LValue P} {ts : List BasicBlockId} {idx e : ℕ}
    (hi : blocks[i]? = some ⟨sts, .switch val ts⟩) (he : ts[idx]? = some e) :
    ∃ e', chainedTarget blocks val idx e = some e' ∧
      (e' = e ∨ ∃ nTs, blocks[e]? = some ⟨[], .switch val nTs⟩ ∧ nTs[idx]? = some e') := by
  have hlt := hwf.targets_lt hi e (List.mem_of_getElem? he)
  obtain ⟨sts', t, hcode⟩ : ∃ sts' t, blocks[e]? = some ⟨sts', t⟩ :=
    ⟨_, _, List.getElem?_eq_getElem hlt⟩
  simp only [chainedTarget, hcode, Option.bind_eq_bind, Option.bind_some, Option.pure_def]
  split
  · next nVal nTs =>
    by_cases hval : nVal = val
    · subst hval
      have hidx : idx < nTs.length :=
        hwf.switch_length hi hcode ▸ (List.getElem?_eq_some_iff.mp he).1
      have hn := List.getElem?_eq_getElem hidx
      rw [if_pos rfl, hn]
      exact ⟨_, rfl, .inr ⟨nTs, rfl, hn⟩⟩
    · rw [if_neg hval]
      exact ⟨e, rfl, .inl rfl⟩
  · exact ⟨e, rfl, .inl rfl⟩

/-- A block that keeps its statements and gets a terminator with other switch targets. -/
theorem Chained.set {code : BasicBlock T P (LValue P)} {t' : Terminator T P (LValue P)}
    (hi : blocks[i]? = some code) (h : ChainedTerminator blocks code.terminator t') :
    Chained blocks (blocks.set i { code with terminator := t' }) := by
  intro j sts t hj
  by_cases hij : i = j
  · subst hij
    obtain rfl := Option.some.inj (hi.symm.trans hj)
    exact ⟨t', List.getElem?_set_self (List.getElem?_eq_some_iff.mp hi).1, h⟩
  · exact ⟨t, by rw [List.getElem?_set_ne hij, hj], .inl rfl⟩

theorem chainSwitches_some [DecidableEq P] (hwf : WellFormed blocks) (hi : i < blocks.length) :
    ∃ blocks', chainSwitches blocks i = some blocks' ∧ Chained blocks blocks' ∧
      blocks'.length = blocks.length := by
  obtain ⟨sts, t, hcode⟩ : ∃ sts t, blocks[i]? = some ⟨sts, t⟩ :=
    ⟨_, _, List.getElem?_eq_getElem hi⟩
  simp only [chainSwitches, hcode, Option.bind_eq_bind, Option.bind_some, Option.pure_def]
  split
  · next val ts =>
    have hts : ts.zipIdx.mapM (fun x => chainedTarget blocks val x.2 x.1) =
        some (ts.zipIdx.map fun x => (chainedTarget blocks val x.2 x.1).getD x.1) := by
      apply mapM_eq_map
      intro x hx
      obtain ⟨e', he', -⟩ := chainedTarget_some hwf hcode (List.mem_zipIdx_iff_getElem?.mp hx)
      rw [he', Option.getD_some]
    rw [hts]
    refine ⟨_, rfl, .set hcode (.inr ⟨val, ts, _, rfl, rfl, by simp, ?_⟩), List.length_set⟩
    intro v e e' he he'
    obtain ⟨e'', he'', hor⟩ := chainedTarget_some hwf hcode he
    simp only [List.getElem?_map, List.getElem?_zipIdx, he, Option.map_some, Nat.zero_add, he'',
      Option.getD_some, Option.some.injEq] at he'
    exact he' ▸ hor
  · exact ⟨blocks, rfl, fun j sts t hj => ⟨t, hj, .inl rfl⟩, rfl⟩

/-- What every round of the loop keeps. -/
structure Skipped (blocks bbs : Blocks T P) : Prop where
  length : bbs.length = blocks.length
  wellFormed : WellFormed bbs
  not_onCycle (a : BasicBlockId) : ¬ OnCycle bbs a
  preserves : Preserves blocks bbs

theorem Skipped.round [DecidableEq P] {bbs : Blocks T P} (h : Skipped blocks bbs)
    (hi : i < blocks.length) :
    ∃ bbs', Yields (fun fuel => (retarget fuel bbs i).bind fun bbs => chainSwitches bbs i) bbs' ∧
      Skipped blocks bbs' := by
  have hi : i < bbs.length := h.length ▸ hi
  obtain ⟨bbs₁, hy, hr, hlen₁⟩ := retarget_yields h.wellFormed h.not_onCycle hi
  have hwf₁ := hr.wellFormed hlen₁ h.wellFormed
  obtain ⟨bbs₂, hs, hc, hlen₂⟩ := chainSwitches_some hwf₁ (hlen₁ ▸ hi)
  refine ⟨bbs₂, hy.bind (.of_forall fun _ => hs), ?_, hc.wellFormed hlen₂ hwf₁, fun a ha => ?_, ?_⟩
  · rw [hlen₂, hlen₁, h.length]
  · have hcycle : OnCycle bbs₁ a := TransGen.mono (fun _ _ h => hc.forwards hlen₂ h) _ _ ha
    exact h.not_onCycle a (TransGen.closed (fun _ _ h => hr.forwards hlen₁ h) _ _ hcycle)
  · exact (h.preserves.trans (preserves_of_retargeted h.wellFormed hr)).trans
      (preserves_of_chained hwf₁ hc)

/-- The loop that skips gotos and short-cuts switches keeps the executions. -/
theorem skipGotos_yields [DecidableEq P] (hwf : WellFormed blocks) (hcycle : ∀ a, ¬ OnCycle blocks a) :
    ∃ bbs, Yields (skipGotos · blocks) bbs ∧ Skipped blocks bbs := by
  apply foldlM_yields
  · intro bbs h i hi
    exact h.round (List.mem_range.mp hi)
  · exact ⟨rfl, hwf, hcycle, .refl blocks⟩

section Diverges

theorem OnCycle.forwards (h : OnCycle blocks a) : ∃ b, Forwards blocks a b ∧ OnCycle blocks b := by
  obtain ⟨b, hab, hba⟩ := TransGen.head'_iff.mp h
  exact ⟨b, hab, .tail' hba hab⟩

theorem OnCycle.trans (h : OnCycle blocks a) (hab : TransGen (Forwards blocks) a b) :
    OnCycle blocks b := by
  induction hab with
  | single hab =>
    obtain ⟨b', hb', hc⟩ := h.forwards
    exact hab.unique hb' ▸ hc
  | tail _ hbc ih =>
    obtain ⟨b', hb', hc⟩ := ih.forwards
    exact hbc.unique hb' ▸ hc

theorem getNewTarget_onCycle (h : OnCycle blocks a) : getNewTarget blocks fuel a = none := by
  induction fuel generalizing a with
  | zero => rfl
  | succ fuel ih =>
    obtain ⟨b, hab, hb⟩ := h.forwards
    rw [getNewTarget_forwards hab]
    exact ih hb

theorem retarget_onCycle (h : OnCycle blocks i) : retarget fuel blocks i = none := by
  obtain ⟨b, hib, hb⟩ := h.forwards
  simp [retarget, hib.1, Terminator.mapTargetsM, Ne.symm hib.2, getNewTarget_onCycle hb]

/-- A block outside of the circle does not break it. -/
theorem OnCycle.of_others (h : OnCycle blocks a) (hi : ¬ OnCycle blocks i)
    (hother : ∀ j ≠ i, blocks'[j]? = blocks[j]?) : OnCycle blocks' a := by
  have hedge {x y : BasicBlockId} (hx : OnCycle blocks x) (hxy : Forwards blocks x y) :
      Forwards blocks' x y :=
    ⟨(hother x fun heq => hi (heq ▸ hx)) ▸ hxy.1, hxy.2⟩
  have hpath {b : BasicBlockId} (hab : TransGen (Forwards blocks) a b) :
      TransGen (Forwards blocks') a b := by
    induction hab with
    | single hab => exact .single (hedge h hab)
    | tail hab hbc ih => exact .tail ih (hedge (h.trans hab) hbc)
  exact hpath h

theorem retarget_others (h : retarget fuel blocks i = some blocks') :
    ∀ j ≠ i, blocks'[j]? = blocks[j]? := by
  simp only [retarget, Option.bind_eq_bind, Option.bind_eq_some_iff, Option.pure_def,
    Option.some.injEq] at h
  obtain ⟨code, -, t, -, rfl⟩ := h
  exact fun j hj => List.getElem?_set_ne hj.symm

theorem chainSwitches_others [DecidableEq P] (h : chainSwitches blocks i = some blocks') :
    ∀ j ≠ i, blocks'[j]? = blocks[j]? := by
  simp only [chainSwitches, Option.bind_eq_bind, Option.bind_eq_some_iff, Option.pure_def] at h
  obtain ⟨code, -, h⟩ := h
  split at h
  · simp only [Option.bind_eq_some_iff, Option.some.injEq] at h
    obtain ⟨ts, -, rfl⟩ := h
    exact fun j hj => List.getElem?_set_ne hj.symm
  · rw [Option.some.injEq] at h
    exact fun j _ => h ▸ rfl

/-- A loop that comes to a block on a circle of gotos does not return. -/
theorem skipLoop_onCycle [DecidableEq P] {l : List ℕ} (h : OnCycle blocks a) (ha : a ∈ l) :
    l.foldlM (fun bbs i => (retarget fuel bbs i).bind fun bbs => chainSwitches bbs i) blocks =
      none := by
  induction l generalizing blocks with
  | nil => cases ha
  | cons i l ih =>
    rw [List.foldlM_cons, Option.bind_eq_bind, Option.bind_eq_none_iff]
    intro blocks₂ h₂
    rw [Option.bind_eq_some_iff] at h₂
    obtain ⟨blocks₁, h₁, h₂⟩ := h₂
    have hi : ¬ OnCycle blocks i := by
      intro hi
      rw [retarget_onCycle hi] at h₁
      cases h₁
    have hcycle : OnCycle blocks₂ a := h.of_others hi fun j hj => by
      rw [chainSwitches_others h₂ j hj, retarget_others h₁ j hj]
    rcases List.mem_cons.mp ha with rfl | ha
    · exact absurd h hi
    · exact ih hcycle ha

theorem OnCycle.lt (h : OnCycle blocks a) : a < blocks.length := by
  obtain ⟨b, hab, -⟩ := h.forwards
  exact (List.getElem?_eq_some_iff.mp hab.1).1

theorem skipGotos_onCycle [DecidableEq P] (h : OnCycle blocks a) : skipGotos fuel blocks = none :=
  skipLoop_onCycle h (List.mem_range.mpr h.lt)

end Diverges

end Mrustc.Mir
