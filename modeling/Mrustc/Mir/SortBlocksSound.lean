import Mrustc.Mir.GarbageCollectSound

/-! # What collecting garbage and sorting the blocks keeps -/

namespace Mrustc.Mir

open Mrustc.Numbering Relation GarbageCollect SortBlocks Depth

variable {T P : Type} {f g : Function T P (LValue P)} {r : Renaming}

section Depths

theorem map_branches (t : Terminator T P (LValue P)) : (branches t).map Prod.fst = t.targets := by
  cases t <;> simp [branches, Terminator.targets, Function.comp_def]

theorem map_push (info : Todo) (n : ℕ) (bbs : List (BasicBlockId × Bool)) :
    (push info n bbs).2.map Todo.bbIdx = (bbs.map Prod.fst).reverse := by
  induction bbs generalizing n with
  | nil => rfl
  | cons bb bbs ih => simp [push, ih]

theorem push_level {info t : Todo} {n : ℕ} {bbs : List (BasicBlockId × Bool)}
    (h : t ∈ (push info n bbs).2) : t.level = info.level + 1 := by
  induction bbs generalizing n with
  | nil => cases h
  | cons bb bbs ih =>
    rcases List.mem_append.mp h with h | h
    · exact ih h
    · rw [List.mem_singleton.mp h]

theorem depthStep_visit {blocks : Blocks T P} {s : SortBlocks.Progress} {info : Todo} {code : BasicBlock T P (LValue P)}
    (hv : s.visited info.bbIdx = false) (hcode : blocks[info.bbIdx]? = some code) :
    depthStep blocks s info = some (⟨Function.update s.visited info.bbIdx true,
      Function.update s.depths info.bbIdx (info.branchCount, info.level),
      (push info s.branches (branches code.terminator)).1⟩,
      (push info s.branches (branches code.terminator)).2) := by
  rw [depthStep, if_neg (by simp [hv]), hcode]
  rfl

theorem depths_traversal (hlt : ∀ {b : BasicBlockId}, ∀ e ∈ succs g.blocks b, e < g.blocks.length) :
    Traversal g.blocks.length (succs g.blocks) Todo.bbIdx SortBlocks.Progress.visited (depthStep g.blocks) := by
  refine ⟨fun _ => hlt, fun h => if_pos h, fun {s info} h hb => ?_⟩
  obtain ⟨code, hcode⟩ : ∃ code, g.blocks[info.bbIdx]? = some code := ⟨_, List.getElem?_eq_getElem hb⟩
  have hsuccs : succs g.blocks info.bbIdx = code.terminator.targets := by
    rw [succs, hcode]
    rfl
  have hpush := map_push info s.branches (branches code.terminator)
  rw [map_branches, ← hsuccs] at hpush
  refine ⟨_, _, depthStep_visit h hcode, ?_, fun t ht => ?_, fun e he => .inr ?_, ?_⟩
  · intro b
    by_cases hb : b = info.bbIdx <;> simp [hb]
  · have := List.mem_map_of_mem (f := Todo.bbIdx) ht
    rwa [hpush, List.mem_reverse] at this
  · rw [← List.mem_reverse, ← hpush] at he
    exact List.mem_map.mp he
  · rw [← List.length_map Todo.bbIdx, hpush, List.length_reverse]

/-- Only the first block has no depth. -/
structure Deep (s : SortBlocks.Progress) : Prop where
  first : s.depths 0 = (0, 0)
  visited : s.visited 0 = true
  level_pos {b : BasicBlockId} (hb : b ≠ 0) (hv : s.visited b = true) : 0 < (s.depths b).2

theorem deep_of_search {fuel : ℕ} {s : SortBlocks.Progress} (hpos : 0 < g.blocks.length)
    (h : search (depthStep g.blocks) fuel ⟨fun _ => false, fun _ => (0, 0), 0⟩ [⟨0, 0, 0⟩] = some s) :
    Deep s := by
  cases fuel with
  | zero => cases h
  | succ fuel =>
    obtain ⟨code, hcode⟩ : ∃ code, g.blocks[0]? = some code := ⟨_, List.getElem?_eq_getElem hpos⟩
    have hfirst : depthStep g.blocks ⟨fun _ => false, fun _ => (0, 0), 0⟩ ⟨0, 0, 0⟩ = _ :=
      depthStep_visit rfl hcode
    rw [search, hfirst] at h
    refine search_invariant (I := Deep) (K := fun info => 0 < info.level) ?_ h ?_ ?_
    · intro s info s' pushed hs hinfo hstep
      by_cases hv : s.visited info.bbIdx = true
      · rw [depthStep, if_pos hv, Option.some.injEq, Prod.mk.injEq] at hstep
        obtain ⟨rfl, rfl⟩ := hstep
        exact ⟨hs, fun t ht => absurd ht List.not_mem_nil⟩
      · rw [Bool.not_eq_true] at hv
        have hne : (0 : ℕ) ≠ info.bbIdx := fun h0 => by
          rw [← h0, hs.visited] at hv
          cases hv
        cases hc : g.blocks[info.bbIdx]? with
        | none => simp [depthStep, hv, hc] at hstep
        | some code =>
          rw [depthStep_visit hv hc, Option.some.injEq, Prod.mk.injEq] at hstep
          obtain ⟨rfl, rfl⟩ := hstep
          refine ⟨⟨?_, ?_, fun {b} hb hvb => ?_⟩, fun t ht => ?_⟩
          · exact (Function.update_of_ne hne ..).trans hs.first
          · exact (Function.update_of_ne hne ..).trans hs.visited
          · by_cases hbi : b = info.bbIdx
            · subst hbi
              simpa using hinfo
            · simp only [Function.update_of_ne hbi] at hvb ⊢
              exact hs.level_pos hb hvb
          · rw [push_level ht]
            exact Nat.succ_pos _
    · refine ⟨by simp, by simp, fun {b} hb hvb => ?_⟩
      simp [Function.update_of_ne hb] at hvb
    · intro t ht
      simp only [List.append_nil] at ht
      rw [push_level ht]
      exact Nat.succ_pos _

/-- The first block stays the first one. -/
theorem idxOf_zero {s : SortBlocks.Progress} (hs : Deep s) {n : ℕ} (hpos : 0 < n) (hv : ∀ b < n, s.visited b = true)
    {idxes : List BasicBlockId} (hp : idxes.Perm (List.range n))
    (hsorted : idxes.Pairwise fun a b => toLex (s.depths a) ≤ toLex (s.depths b)) : idxes.idxOf 0 = 0 := by
  have hmem : 0 ∈ idxes := hp.mem_iff.mpr (List.mem_range.mpr hpos)
  cases idxes with
  | nil => cases hmem
  | cons a idxes =>
    by_cases ha : a = 0
    · simp [ha]
    · have hpos := hs.level_pos ha (hv a (List.mem_range.mp (hp.mem_iff.mp List.mem_cons_self)))
      have hle := (List.pairwise_cons.mp hsorted).1 0 ((List.mem_cons.mp hmem).resolve_left (Ne.symm ha))
      rw [hs.first, Prod.Lex.toLex_le_toLex] at hle
      rcases hle with hle | ⟨-, hle⟩
      · exact absurd hle (Nat.not_lt_zero _)
      · omega

end Depths

/-- The blocks in another order. -/
structure Ordered (g g' : Function T P (LValue P)) (idxes : List BasicBlockId) : Prop where
  perm : idxes.Perm (List.range g.blocks.length)
  first : idxes.idxOf 0 = 0
  locals : g'.locals = g.locals
  dropFlags : g'.dropFlags = g.dropFlags
  length : g'.blocks.length = idxes.length
  blocks {k i : ℕ} {c : BasicBlock T P (LValue P)} (hk : idxes[k]? = some i) (hi : g.blocks[i]? = some c) :
    g'.blocks[k]? = some { c with terminator := c.terminator.mapTargets fun te => idxes.idxOf te }

theorem sortBlocks_yields (sorting : Sorting) (hpos : 0 < g.blocks.length)
    (hlt : ∀ {b : BasicBlockId}, ∀ e ∈ succs g.blocks b, e < g.blocks.length)
    (hall : ∀ b < g.blocks.length, Reached g.blocks b) :
    ∃ g' idxes, Yields (sortBlocks sorting · g) g' ∧ Ordered g g' idxes := by
  obtain ⟨s, hy, hv⟩ := (depths_traversal hlt).search_yields (s := ⟨fun _ => false, fun _ => (0, 0), 0⟩)
    (t := ⟨0, 0, 0⟩) hpos fun _ => rfl
  obtain ⟨fuel, hfuel⟩ := hy.exists_fuel
  let idxes := sorting.sort s.depths (List.range g.blocks.length)
  have hp : idxes.Perm (List.range g.blocks.length) := sorting.perm _ _
  let order (c : BasicBlock T P (LValue P)) : BasicBlock T P (LValue P) :=
    { c with terminator := c.terminator.mapTargets fun te => idxes.idxOf te }
  obtain ⟨blocks, hblocks⟩ : ∃ blocks, idxes.mapM (fun idx => (g.blocks[idx]?).map order) = some blocks := by
    apply mapM_exists
    intro idx hidx
    have := List.mem_range.mp (hp.mem_iff.mp hidx)
    exact ⟨_, by rw [List.getElem?_eq_getElem this, Option.map_some]⟩
  refine ⟨{ g with blocks }, idxes, hy.bind (.of_forall fun _ => ?_), hp, ?_, rfl, rfl, mapM_length hblocks,
    fun {k i c} hk hi => ?_⟩
  · have : idxes.mapM (fun idx => do
        let block ← g.blocks[idx]?
        return order block) = some blocks := by
      rw [← hblocks]
      exact mapM_congr_left fun _ _ => Option.map_eq_bind.symm
    exact congrArg (fun x => x.bind fun blocks => some { g with blocks }) this
  · exact idxOf_zero (deep_of_search hpos hfuel) hpos (fun b hb => (hv b).mpr (hall b hb)) hp
      (sorting.sorted _ _)
  · obtain ⟨c', hc', hmap⟩ := mapM_getElem? hblocks hk
    rw [hi, Option.map_some, Option.some.injEq] at hmap
    rw [hc', ← hmap]

section Isomorphic

theorem targets_of_terminator {t t' : Terminator T P (LValue P)} (h : r.terminator t = some t') :
    (∀ e ∈ t.targets, ∃ e', r.block e = some e' ∧ e' ∈ t'.targets) ∧
      ∀ e' ∈ t'.targets, ∃ e ∈ t.targets, r.block e = some e' := by
  obtain ⟨⟨t₁, _⟩, ht₁, h⟩ := Option.bind_eq_some_iff.mp h
  rw [← (targets_visit ht₁).1]
  have hsome := Terminator.isSome_of_mapTargetsM h
  rw [Terminator.mapTargetsM_some h, Terminator.targets_mapTargets]
  constructor
  · intro e he
    obtain ⟨e', he'⟩ := Option.isSome_iff_exists.mp (hsome e he)
    exact ⟨e', he', List.mem_map.mpr ⟨e, he, by simp [he']⟩⟩
  · intro e' he'
    obtain ⟨e, he, rfl⟩ := List.mem_map.mp he'
    obtain ⟨e', he'⟩ := Option.isSome_iff_exists.mp (hsome e he)
    exact ⟨e, he, by simp [he']⟩

theorem mapTargetsM_bind {cb cb' : BasicBlockId → Option BasicBlockId} {F : BasicBlockId → BasicBlockId}
    {t t' : Terminator T P (LValue P)} (h : t.mapTargetsM cb = some t')
    (hF : ∀ e ∈ t'.targets, cb' e = some (F e)) :
    t.mapTargetsM (fun e => (cb e).bind cb') = some (t'.mapTargets F) := by
  have hsome := Terminator.isSome_of_mapTargetsM h
  rw [Terminator.mapTargetsM_some h, Terminator.targets_mapTargets] at hF
  have heq : t.mapTargetsM (fun e => (cb e).bind cb') =
      some (t.mapTargets fun e => F ((cb e).getD e)) := by
    apply Terminator.mapTargetsM_eq
    intro e he
    obtain ⟨e', he'⟩ := Option.isSome_iff_exists.mp (hsome e he)
    have := hF _ (List.mem_map_of_mem he)
    rw [he'] at this ⊢
    exact this
  rw [heq, Terminator.mapTargetsM_some h]
  cases t <;> simp [Terminator.mapTargets, Function.comp_def]

variable (h : Isomorphic r f g)
include h

theorem Isomorphic.terminator {bb k : BasicBlockId} (hk : r.block bb = some k) :
    ∃ c c', f.blocks[bb]? = some c ∧ g.blocks[k]? = some c' ∧
      r.terminator c.terminator = some c'.terminator := by
  obtain ⟨c, c', hc, hc', hcode⟩ := h.blocks.related hk
  refine ⟨c, c', hc, hc', ?_⟩
  simp only [Renaming.code, Option.bind_eq_bind, Option.bind_eq_some_iff, Option.pure_def,
    Option.some.injEq] at hcode
  obtain ⟨-, -, t, ht, rfl⟩ := hcode
  exact ht

theorem Isomorphic.reached {bb : BasicBlockId} (hb : Reached f.blocks bb) :
    ∃ k, r.block bb = some k ∧ Reached g.blocks k := by
  induction hb with
  | refl => exact ⟨0, h.first, .refl⟩
  | @tail b e _ he ih =>
    obtain ⟨k, hk, hr⟩ := ih
    obtain ⟨c, c', hc, hc', ht⟩ := h.terminator hk
    rw [succs, hc] at he
    obtain ⟨e', he', hmem⟩ := (targets_of_terminator ht).1 e he
    exact ⟨e', he', hr.tail (by rwa [succs, hc'])⟩

theorem Isomorphic.all_reached {k : BasicBlockId} (hk : k < g.blocks.length) : Reached g.blocks k := by
  obtain ⟨bb, hbb⟩ := h.blocks.onto hk
  obtain ⟨k', hk', hr⟩ := h.reached (h.blocks.kept_of_new hbb)
  obtain rfl := Option.some.inj (hbb.symm.trans hk')
  exact hr

theorem Isomorphic.succs_lt {k : BasicBlockId} : ∀ e ∈ succs g.blocks k, e < g.blocks.length := by
  intro e he
  cases hc : g.blocks[k]? with
  | none => simp [succs, hc] at he
  | some c =>
    obtain ⟨bb, hbb⟩ := h.blocks.onto (List.getElem?_eq_some_iff.mp hc).1
    obtain ⟨c₁, c', -, hc', ht⟩ := h.terminator hbb
    obtain rfl := Option.some.inj (hc.symm.trans hc')
    rw [succs, hc] at he
    obtain ⟨e₀, -, he₀⟩ := (targets_of_terminator ht).2 e he
    exact h.blocks.new_lt he₀

/-- Putting the blocks in another order is a renaming of the blocks. -/
theorem Isomorphic.order {g' : Function T P (LValue P)} {idxes : List BasicBlockId}
    (ho : Ordered g g' idxes) :
    Isomorphic { r with block := fun b => (r.block b).bind fun e =>
      if e ∈ idxes then some (idxes.idxOf e) else none } f g' := by
  have hpos : 0 < g.blocks.length := h.blocks.new_lt h.first
  have hmem {e : BasicBlockId} (he : e < g.blocks.length) : e ∈ idxes :=
    ho.perm.mem_iff.mpr (List.mem_range.mpr he)
  refine ⟨ho.locals ▸ h.locals, ho.dropFlags ▸ h.flags, ?_, ?_⟩
  · refine (h.blocks.trans (renumbers_perm (R := fun c c' => (∀ e ∈ c.terminator.targets, e ∈ idxes) ∧
      c' = { c with terminator := c.terminator.mapTargets fun te => idxes.idxOf te }) ho.perm ho.length
      fun k i c hk hi => ?_)).imp fun c c'' hcc => ?_
    · refine ⟨_, ho.blocks hk hi, fun e he => hmem (h.succs_lt (k := i) e ?_), rfl⟩
      rwa [succs, hi]
    · obtain ⟨c', hcode, htargets, rfl⟩ := hcc
      simp only [Renaming.code, Option.bind_eq_bind, Option.bind_eq_some_iff, Option.pure_def,
        Option.some.injEq] at hcode ⊢
      obtain ⟨sts, hsts, t, ht, rfl⟩ := hcode
      obtain ⟨⟨t₁, _⟩, ht₁, ht⟩ := Option.bind_eq_some_iff.mp ht
      refine ⟨sts, hsts, t.mapTargets fun te => idxes.idxOf te, ?_, rfl⟩
      refine Option.bind_eq_some_iff.mpr ⟨(t₁, ()), ht₁, ?_⟩
      apply mapTargetsM_bind ht
      intro e he
      rw [if_pos (htargets e he)]
  · simp [h.first, hmem hpos, ho.first]

end Isomorphic

/-- Collecting garbage and sorting the blocks gives a function that is the same but for the numbers of
locals, drop flags and blocks, with the same first block, exactly if the function is compactable. -/
theorem compaction_isomorphic_iff (sorting : Sorting) (f : Function T P (LValue P)) (hf : f.InRange) :
    (∃ g f' r, Yields (garbageCollect · f) g ∧ Isomorphic (compaction f) f g ∧
      Yields (sortBlocks sorting · g) f' ∧ Isomorphic r f f') ↔ Compactable f := by
  constructor
  · rintro ⟨g, -, -, hg, hiso, -⟩
    exact (garbageCollect_iff hf).mp ⟨g, hg, hiso⟩
  · intro h
    obtain ⟨g, hg, hiso⟩ := (garbageCollect_iff hf).mpr h
    obtain ⟨f', idxes, hf', ho⟩ := sortBlocks_yields sorting (hiso.blocks.new_lt hiso.first) hiso.succs_lt
      fun b hb => hiso.all_reached hb
    exact ⟨g, f', _, hg, hiso, hf', hiso.order ho⟩

section Example

/-- A stable sort. -/
def stableSorting : Sorting where
  sort key xs := xs.mergeSort fun a b => decide (toLex (key a) ≤ toLex (key b))
  perm key xs := List.mergeSort_perm xs _
  sorted key xs := by
    have := @List.pairwise_mergeSort _ (fun a b => decide (toLex (key a) ≤ toLex (key b)))
      (fun a b c hab hbc => by simp only [decide_eq_true_eq] at *; exact hab.trans hbc)
      (fun a b => by simpa using le_total (toLex (key a)) (toLex (key b))) xs
    exact this.imp fun h => by simpa using h

/-- A block, a drop flag and two locals of three that are not used. -/
def leftovers : Function Unit Unit (LValue Unit) where
  locals := [(), (), ()]
  dropFlags := [false, true]
  blocks := [
    ⟨[.assign (.newLocal 2) (.constant (.bool true)), .setDropFlag 1 false none,
      .drop .deep (.newLocal 0) (some 0), .scopeEnd [0, 1]], .goto 2⟩,
    ⟨[], .goto 1⟩,
    ⟨[.drop .deep (.newLocal 2) (some 1)], .return_⟩]

theorem leftovers_inRange : leftovers.InRange := by
  refine ⟨by decide, fun {bb c} h => ?_, fun {bb c} h => ?_, fun {bb c} h => ?_, fun {bb c} h => ?_⟩ <;>
    rcases bb with _ | _ | _ | bb <;> simp [leftovers] at h <;> subst h <;> decide

theorem leftovers_compactable : Compactable leftovers := by
  refine ⟨fun {bb c} hr h => ?_, fun {l} h => ?_, fun {bb c} hr h => ?_, fun {bb c} hr h dst hdst => ?_⟩
  · rcases bb with _ | _ | _ | bb <;> simp [leftovers] at h <;> subst h <;> simp
  · obtain ⟨bb, c, hr, h, hl⟩ := h
    have h2 : l = 2 := by
      rcases bb with _ | _ | _ | bb <;> simp [leftovers] at h <;> subst h <;> revert hl <;>
        simp [BasicBlock.usedLocals, Statement.usedLocals, Statement.mentioned, Statement.lvalues,
          Statement.paramBorrows, RValue.lvalues, RValue.paramBorrows, Terminator.usedLocals,
          Terminator.mentioned, Terminator.lvalues, Terminator.paramBorrows, LValue.locals,
          LValue.newLocal, LValue.indexLocals, LValue.isLocal]
    subst h2
    exact ⟨0, _, .refl, rfl, by decide⟩
  · rcases bb with _ | _ | _ | bb <;> simp [leftovers] at h <;> subst h <;>
      simp [BasicBlock.paramBorrows, Statement.paramBorrows, RValue.paramBorrows, Terminator.paramBorrows]
  · rcases bb with _ | _ | _ | bb <;> simp [leftovers] at h <;> subst h <;> cases hdst

theorem leftovers_isomorphic : ∃ g f' r, Yields (garbageCollect · leftovers) g ∧
    Isomorphic (compaction leftovers) leftovers g ∧ Yields (sortBlocks stableSorting · g) f' ∧
    Isomorphic r leftovers f' :=
  (compaction_isomorphic_iff stableSorting leftovers leftovers_inRange).mpr leftovers_compactable

/-- An `llvm_asm!` that is just a template. -/
def justTemplate : Function Unit Unit (LValue Unit) :=
  ⟨[], [], [⟨[.asm ['n', 'o', 'p'] [] [] [] []], .return_⟩]⟩

/-- It is taken for the default statement and removed. -/
theorem justTemplate_not_isomorphic : justTemplate.InRange ∧
    (∀ l, justTemplate.Uses l → justTemplate.Assigns l) ∧
    ¬ ∃ g f' r, Yields (garbageCollect · justTemplate) g ∧
      Isomorphic (compaction justTemplate) justTemplate g ∧ Yields (sortBlocks stableSorting · g) f' ∧
      Isomorphic r justTemplate f' := by
  have hf : justTemplate.InRange := by
    refine ⟨by decide, fun {bb c} h => ?_, fun {bb c} h => ?_, fun {bb c} h => ?_, fun {bb c} h => ?_⟩ <;>
      rcases bb with _ | bb <;> simp [justTemplate] at h <;> subst h <;> decide
  refine ⟨hf, ?_, ?_⟩
  · rintro l ⟨bb, c, hr, h, hl⟩
    rcases bb with _ | bb <;> simp [justTemplate] at h
    subst h
    revert hl
    simp [BasicBlock.usedLocals, Statement.usedLocals, Statement.mentioned, Statement.lvalues,
      Statement.paramBorrows, Terminator.usedLocals, Terminator.mentioned, Terminator.lvalues,
      Terminator.paramBorrows]
  · rintro ⟨g, -, -, hg, hiso, -⟩
    have h := (garbageCollect_iff hf).mp ⟨g, hg, hiso⟩
    exact absurd (@Compactable.template _ _ _ h 0 _ .refl rfl ['n', 'o', 'p'] List.mem_cons_self) (by decide)

end Example

end Mrustc.Mir
