import Mrustc.Depth.Loops
import Mrustc.Mir.BlockContents

/-! # Merging blocks

The use counts of the pass bound the references from the blocks that are reached, before and after each
merge. A block with one use is reached through the block that it is appended to only.
-/

namespace Mrustc.Mir

open BlockSimplify Depth Filter

variable {T P : Type} {blocks blocks' : Blocks T P} {visited : BasicBlockId → Bool} {uses : BasicBlockId → ℕ}
  {toVisit : List BasicBlockId} {i tgt : BasicBlockId}

/-- The references to a block from blocks that are reached. -/
def refs (blocks : Blocks T P) (visited : BasicBlockId → Bool) (e : BasicBlockId) : ℕ :=
  ∑ b ∈ Finset.range blocks.length, if visited b then (succs blocks b).count e else 0

/-- The targets of blocks that are reached are reached, and so is the first block. -/
structure Closed (blocks : Blocks T P) (visited : BasicBlockId → Bool) : Prop where
  first : visited 0
  succs {b : BasicBlockId} (h : visited b) : ∀ e ∈ succs blocks b, visited e

theorem WellFormed.succs_lt (hwf : WellFormed blocks) {b e : BasicBlockId} (he : e ∈ succs blocks b) :
    e < blocks.length := by
  cases hcode : blocks[b]? with
  | none => simp [succs, hcode] at he
  | some code =>
    rw [succs, hcode] at he
    exact hwf.targets_lt hcode e he

section CountUses

/-- What holds whenever a block is taken from the stack. -/
structure Counting (blocks : Blocks T P) (visited : BasicBlockId → Bool) (uses : BasicBlockId → ℕ)
    (toVisit : List BasicBlockId) : Prop where
  first : visited 0 ∨ 0 ∈ toVisit
  succs {b : BasicBlockId} (h : visited b) : ∀ e ∈ succs blocks b, visited e ∨ e ∈ toVisit
  toVisit_lt : ∀ e ∈ toVisit, e < blocks.length
  uses (e : BasicBlockId) : uses e = (if e = 0 then 1 else 0) + refs blocks visited e

/-- The targets of a block, pushed and counted. -/
theorem push_targets (targets : List BasicBlockId) (visited : BasicBlockId → Bool)
    (toVisit : List BasicBlockId) (uses : BasicBlockId → ℕ) :
    ∃ toVisit' uses', targets.foldl (fun (toVisit, uses) e =>
        (if visited e then toVisit else e :: toVisit, Function.update uses e (uses e + 1)))
        (toVisit, uses) = (toVisit', uses') ∧
      (∀ e, uses' e = uses e + targets.count e) ∧
      (∀ e ∈ toVisit', e ∈ toVisit ∨ e ∈ targets) ∧ (∀ e ∈ toVisit, e ∈ toVisit') ∧
      (∀ e ∈ targets, visited e ∨ e ∈ toVisit') ∧
      toVisit'.length ≤ toVisit.length + targets.length := by
  induction targets generalizing toVisit uses with
  | nil => exact ⟨toVisit, uses, rfl, by simp⟩
  | cons e targets ih =>
    obtain ⟨tv, us, hf, hu, hsub, hsup, htg, hlen⟩ :=
      ih (if visited e then toVisit else e :: toVisit) (Function.update uses e (uses e + 1))
    refine ⟨tv, us, hf, fun x => ?_, fun x hx => ?_, fun x hx => ?_, fun x hx => ?_, ?_⟩
    · rw [hu, List.count_cons, Function.update_apply]
      by_cases hxe : x = e
      · subst hxe
        simp
        omega
      · simp [hxe, Ne.symm hxe]
    · rcases hsub x hx with h | h
      · split_ifs at h with hv
        · exact .inl h
        · rcases List.mem_cons.mp h with rfl | h
          · exact .inr List.mem_cons_self
          · exact .inl h
      · exact .inr (List.mem_cons_of_mem _ h)
    · apply hsup
      split_ifs with hv
      · exact hx
      · exact List.mem_cons_of_mem _ hx
    · rcases List.mem_cons.mp hx with rfl | hx
      · by_cases hv : visited x
        · exact .inl hv
        · exact .inr (hsup x (by simp [hv]))
      · exact htg x hx
    · split_ifs at hlen <;> simp at hlen ⊢ <;> omega

/-- A block that is reached now. -/
theorem sum_update (f : BasicBlockId → ℕ) {n bb : ℕ} (hbb : bb < n) (h : visited bb = false) :
    ∑ b ∈ Finset.range n, (if Function.update visited bb true b then f b else 0) =
      (∑ b ∈ Finset.range n, if visited b then f b else 0) + f bb := by
  rw [← Finset.add_sum_erase _ _ (Finset.mem_range.mpr hbb),
    ← Finset.add_sum_erase _ (fun b => if visited b then f b else 0) (Finset.mem_range.mpr hbb)]
  have hrest : ∑ b ∈ (Finset.range n).erase bb, (if Function.update visited bb true b then f b else 0) =
      ∑ b ∈ (Finset.range n).erase bb, if visited b then f b else 0 := by
    apply Finset.sum_congr rfl
    intro b hb
    rw [Function.update_of_ne (Finset.ne_of_mem_erase hb)]
  rw [hrest, Function.update_self, h, if_pos rfl, if_neg Bool.false_ne_true, Nat.zero_add, Nat.add_comm]

/-- The references of all blocks and of those that are reached. -/
def allRefs (blocks : Blocks T P) : ℕ := ∑ b ∈ Finset.range blocks.length, (succs blocks b).length

def visitedRefs (blocks : Blocks T P) (visited : BasicBlockId → Bool) : ℕ :=
  ∑ b ∈ Finset.range blocks.length, if visited b then (succs blocks b).length else 0

theorem visitedRefs_le (blocks : Blocks T P) (visited : BasicBlockId → Bool) :
    visitedRefs blocks visited ≤ allRefs blocks := by
  apply Finset.sum_le_sum
  intro b _
  split_ifs
  · exact le_rfl
  · exact Nat.zero_le _

/-- Counting from one more block. -/
theorem Counting.visit {bb : BasicBlockId} {toVisit' : List BasicBlockId} {uses' : BasicBlockId → ℕ}
    (hwf : WellFormed blocks) (h : Counting blocks visited uses (bb :: toVisit))
    (hv : visited bb = false) (hu : ∀ e, uses' e = uses e + (Mir.succs blocks bb).count e)
    (hsub : ∀ e ∈ toVisit', e ∈ toVisit ∨ e ∈ Mir.succs blocks bb)
    (hsup : ∀ e ∈ toVisit, e ∈ toVisit')
    (htg : ∀ e ∈ Mir.succs blocks bb, Function.update visited bb true e ∨ e ∈ toVisit') :
    Counting blocks (Function.update visited bb true) uses' toVisit' := by
  have hkeep {e : BasicBlockId} (he : visited e ∨ e ∈ bb :: toVisit) :
      Function.update visited bb true e ∨ e ∈ toVisit' := by
    by_cases heq : e = bb
    · exact .inl (heq ▸ Function.update_self ..)
    · rcases he with he | he
      · exact .inl (Function.update_of_ne heq .. ▸ he)
      · exact .inr (hsup e ((List.mem_cons.mp he).resolve_left heq))
  refine ⟨hkeep h.first, fun {b} hb e he => ?_, fun e he => ?_, fun e => ?_⟩
  · by_cases heq : b = bb
    · exact htg e (heq ▸ he)
    · rw [Function.update_of_ne heq] at hb
      exact hkeep (h.succs hb e he)
  · rcases hsub e he with he | he
    · exact h.toVisit_lt e (List.mem_cons_of_mem _ he)
    · exact hwf.succs_lt he
  · rw [hu, h.uses, refs, refs, sum_update _ (h.toVisit_lt bb List.mem_cons_self) hv]
    omega

/-- The loop ends as each round takes a block from the stack or a block's references from those that are
left to push. -/
theorem countUses_yields (hwf : WellFormed blocks) (h : Counting blocks visited uses toVisit) {k : ℕ}
    (hk : toVisit.length + allRefs blocks = k + visitedRefs blocks visited) :
    ∃ visited' uses', Yields (countUses blocks · visited uses toVisit) (visited', uses') ∧
      Counting blocks visited' uses' [] := by
  induction k using Nat.strong_induction_on generalizing visited uses toVisit with
  | _ k ih =>
    cases toVisit with
    | nil => exact ⟨visited, uses, .of_succ (.of_forall fun _ => rfl), h⟩
    | cons bb toVisit =>
      have hbb := h.toVisit_lt bb List.mem_cons_self
      have hle := visitedRefs_le blocks visited
      by_cases hv : visited bb
      · -- the block was visited before
        have h' : Counting blocks visited uses toVisit := by
          refine ⟨?_, fun hb e he => ?_, fun e he => h.toVisit_lt e (List.mem_cons_of_mem _ he), h.uses⟩
          · rcases h.first with h0 | h0
            · exact .inl h0
            · rcases List.mem_cons.mp h0 with rfl | h0
              · exact .inl hv
              · exact .inr h0
          · rcases h.succs hb e he with he | he
            · exact .inl he
            · rcases List.mem_cons.mp he with rfl | he
              · exact .inl hv
              · exact .inr he
        rw [List.length_cons] at hk
        obtain ⟨v', u', hy, hc⟩ := ih (k - 1) (by omega) h' (by omega)
        refine ⟨v', u', .of_succ ?_, hc⟩
        simp only [countUses, hv, if_true]
        exact hy
      · rw [Bool.not_eq_true] at hv
        obtain ⟨tv, us, hf, hu, hsub, hsup, htg, hlen⟩ :=
          push_targets (succs blocks bb) (Function.update visited bb true) toVisit uses
        have hsum : visitedRefs blocks (Function.update visited bb true) =
            visitedRefs blocks visited + (succs blocks bb).length := sum_update _ hbb hv
        have hle := visitedRefs_le blocks (Function.update visited bb true)
        rw [List.length_cons] at hk
        obtain ⟨v', u', hy, hc⟩ :=
          ih (tv.length + allRefs blocks - visitedRefs blocks (Function.update visited bb true))
            (by omega) (h.visit hwf hv hu hsub hsup htg) (by omega)
        refine ⟨v', u', .of_succ ?_, hc⟩
        have hcode := List.getElem?_eq_getElem hbb
        have hsuccs : succs blocks bb = blocks[bb].terminator.targets := by rw [succs, hcode]; rfl
        rw [hsuccs] at hf
        simp only [countUses, hv, Bool.false_eq_true, if_false, hcode, Option.bind_eq_bind,
          Option.bind_some, hf]
        exact hy

end CountUses

section Merge

/-- What the use counts say at any time of the merging. -/
structure Counted (blocks : Blocks T P) (visited : BasicBlockId → Bool) (uses : BasicBlockId → ℕ) : Prop where
  wellFormed : WellFormed blocks
  closed : Closed blocks visited
  refs_le (e : BasicBlockId) : (if e = 0 then 1 else 0) + refs blocks visited e ≤ uses e

theorem Counting.counted (hwf : WellFormed blocks) (h : Counting blocks visited uses []) :
    Counted blocks visited uses where
  wellFormed := hwf
  closed := ⟨h.first.resolve_right List.not_mem_nil,
    fun hb e he => (h.succs hb e he).resolve_right List.not_mem_nil⟩
  refs_le e := (h.uses e).ge

/-- The blocks after one merge. -/
def merged (blocks : Blocks T P) (i tgt : BasicBlockId) (sts : List (Statement T P (LValue P)))
    (src : BasicBlock T P (LValue P)) : Blocks T P :=
  (blocks.set tgt ⟨[], .incomplete⟩).set i ⟨sts ++ src.statements, src.terminator⟩

variable {sts : List (Statement T P (LValue P))} {src : BasicBlock T P (LValue P)}
  (hi : blocks[i]? = some ⟨sts, .goto tgt⟩) (htgt : blocks[tgt]? = some src) (hne : tgt ≠ i)

theorem merged_length : (merged blocks i tgt sts src).length = blocks.length := by
  simp [merged]

include hi in
theorem merged_self :
    (merged blocks i tgt sts src)[i]? = some ⟨sts ++ src.statements, src.terminator⟩ := by
  rw [merged, List.getElem?_set_self]
  rw [List.length_set]
  exact (List.getElem?_eq_some_iff.mp hi).1

include htgt hne in
theorem merged_tgt : (merged blocks i tgt sts src)[tgt]? = some ⟨[], .incomplete⟩ := by
  rw [merged, List.getElem?_set_ne hne.symm, List.getElem?_set_self]
  exact (List.getElem?_eq_some_iff.mp htgt).1

theorem merged_of_ne {b : BasicBlockId} (hbi : b ≠ i) (hbt : b ≠ tgt) :
    (merged blocks i tgt sts src)[b]? = blocks[b]? := by
  rw [merged, List.getElem?_set_ne hbi.symm, List.getElem?_set_ne hbt.symm]

include hi in
theorem succs_goto : succs blocks i = [tgt] := by
  rw [succs, hi]
  rfl

include hi htgt hne in
theorem succs_merged (b : BasicBlockId) : succs (merged blocks i tgt sts src) b =
    if b = i then succs blocks tgt else if b = tgt then [] else succs blocks b := by
  by_cases hbi : b = i
  · subst hbi
    rw [if_pos rfl, succs, merged_self hi, succs, htgt]
    rfl
  · by_cases hbt : b = tgt
    · subst hbt
      rw [if_neg hbi, if_pos rfl, succs, merged_tgt htgt hne]
      rfl
    · rw [if_neg hbi, if_neg hbt, succs, succs, merged_of_ne hbi hbt]

include hi htgt hne in
/-- A weight of the targets of the blocks loses the weight of the goto. -/
theorem sum_merged (g : BasicBlockId → List BasicBlockId → ℕ) (hnil : ∀ b, g b [] = 0)
    (hsame : g i = g tgt) :
    ∑ b ∈ Finset.range blocks.length, g b (succs blocks b) =
      (∑ b ∈ Finset.range blocks.length, g b (succs (merged blocks i tgt sts src) b)) + g i [tgt] := by
  have hmi : i ∈ Finset.range blocks.length :=
    Finset.mem_range.mpr (List.getElem?_eq_some_iff.mp hi).1
  have hmt : tgt ∈ (Finset.range blocks.length).erase i :=
    Finset.mem_erase.mpr ⟨hne, Finset.mem_range.mpr (List.getElem?_eq_some_iff.mp htgt).1⟩
  have hrest : ∑ b ∈ ((Finset.range blocks.length).erase i).erase tgt, g b (succs blocks b) =
      ∑ b ∈ ((Finset.range blocks.length).erase i).erase tgt,
        g b (succs (merged blocks i tgt sts src) b) := by
    apply Finset.sum_congr rfl
    intro b hb
    have hbt := Finset.ne_of_mem_erase hb
    have hbi := Finset.ne_of_mem_erase (Finset.mem_of_mem_erase hb)
    rw [succs_merged hi htgt hne, if_neg hbi, if_neg hbt]
  rw [← Finset.add_sum_erase _ _ hmi, ← Finset.add_sum_erase _ _ hmt, hrest,
    ← Finset.add_sum_erase _ (fun b => g b (succs (merged blocks i tgt sts src) b)) hmi,
    ← Finset.add_sum_erase _ (fun b => g b (succs (merged blocks i tgt sts src) b)) hmt]
  rw [succs_merged hi htgt hne i, if_pos rfl, succs_merged hi htgt hne tgt, if_neg hne, if_pos rfl,
    succs_goto hi, hnil, hsame]
  ring

namespace Counted

variable (h : Counted blocks visited uses) (hv : visited i) (hu : uses tgt = 1)

include h hv hi in
theorem visited_tgt : visited tgt := h.closed.succs hv tgt (succs_goto hi ▸ List.mem_singleton_self _)

include h hv hi hu in
/-- A block with one use is not the first, and no other block refers to it. -/
theorem sole_use : tgt ≠ 0 ∧ ∀ b, visited b → b ≠ i → tgt ∉ succs blocks b := by
  have hle := h.refs_le tgt
  have hmi : i ∈ Finset.range blocks.length :=
    Finset.mem_range.mpr (List.getElem?_eq_some_iff.mp hi).1
  rw [hu, refs, ← Finset.add_sum_erase _ _ hmi, hv, if_pos rfl, succs_goto hi,
    List.count_singleton_self] at hle
  constructor
  · intro h0
    rw [if_pos h0] at hle
    omega
  · intro b hb hbi hmem
    have hlt : b < blocks.length := by
      by_contra hge
      rw [succs, List.getElem?_eq_none (not_lt.mp hge)] at hmem
      cases hmem
    have hsum := Finset.single_le_sum
      (f := fun b => if visited b then (succs blocks b).count tgt else 0)
      (fun _ _ => Nat.zero_le _) (Finset.mem_erase.mpr ⟨hbi, Finset.mem_range.mpr hlt⟩)
    have hpos := List.count_pos_iff.mpr hmem
    simp only [hb, if_true] at hsum
    omega

include h hv hi htgt hne hu in
theorem merge_preserves : Preserves blocks (merged blocks i tgt sts src) := by
  have hvt := h.visited_tgt hi hv
  obtain ⟨h0, hsole⟩ := h.sole_use hi hv hu
  have hlt := (List.getElem?_eq_some_iff.mp hi).1
  -- first the contents are copied, then the block that was copied is cleared
  let copied := blocks.set i ⟨sts ++ src.statements, src.terminator⟩
  have hself : copied[i]? = some ⟨sts ++ src.statements, src.terminator⟩ :=
    List.getElem?_set_self hlt
  have hother : ∀ j ≠ i, copied[j]? = blocks[j]? := fun j hj => List.getElem?_set_ne hj.symm
  apply (preserves_of_appended hi htgt hself hother).trans
  apply preserves_of_unreached (V := fun b => visited b ∧ b ≠ tgt)
  · exact ⟨h.closed.first, h0.symm⟩
  · rintro b ⟨hb, hbt⟩ e he
    by_cases hbi : b = i
    · subst hbi
      rw [succs, hself, Option.elim_some] at he
      have he : e ∈ succs blocks tgt := by rwa [succs, htgt, Option.elim_some]
      refine ⟨h.closed.succs hvt e he, ?_⟩
      rintro rfl
      exact hsole e hvt hne he
    · rw [succs, hother b hbi] at he
      refine ⟨h.closed.succs hb e he, ?_⟩
      rintro rfl
      exact hsole b hb hbi he
  · rintro b ⟨-, hbt⟩
    by_cases hbi : b = i
    · rw [hbi, merged_self hi, hself]
    · rw [merged_of_ne hbi hbt, hother b hbi]

include h hv hi htgt hne in
theorem merge : Counted (merged blocks i tgt sts src) visited uses where
  wellFormed := by
    apply h.wellFormed.of_terminators merged_length
    intro b code hcode
    by_cases hbi : b = i
    · rw [hbi, merged_self hi, Option.some.injEq] at hcode
      exact .inr ⟨tgt, src, htgt, hcode ▸ rfl⟩
    · by_cases hbt : b = tgt
      · rw [hbt, merged_tgt htgt hne, Option.some.injEq] at hcode
        exact .inl (hcode ▸ rfl)
      · rw [merged_of_ne hbi hbt] at hcode
        exact .inr ⟨b, code, hcode, rfl⟩
  closed := by
    have hvt := h.visited_tgt hi hv
    refine ⟨h.closed.first, fun {b} hb e he => ?_⟩
    rw [succs_merged hi htgt hne] at he
    split_ifs at he
    · exact h.closed.succs hvt e he
    · cases he
    · exact h.closed.succs hb e he
  refs_le e := by
    have hvt := h.visited_tgt hi hv
    have hsum := sum_merged hi htgt hne (fun b ts => if visited b then ts.count e else 0) (by simp)
      (by rw [hv, hvt])
    have hle := h.refs_le e
    rw [refs, hsum] at hle
    rw [refs, merged_length]
    omega

end Counted

/-- What the merging into one block keeps. -/
structure Merging (blocks bbs : Blocks T P) (visited : BasicBlockId → Bool) (uses : BasicBlockId → ℕ) :
    Prop where
  length : bbs.length = blocks.length
  counted : Counted bbs visited uses
  preserves : Preserves blocks bbs

/-- Every merge takes one reference from the blocks, so that the loop ends. -/
theorem appendTargets_yields (h : Counted blocks visited uses) (hv : visited i)
    (hlt : i < blocks.length) :
    ∃ bbs, Yields (fun fuel => appendTargets uses i fuel blocks) bbs ∧
      Merging blocks bbs visited uses := by
  induction hk : allRefs blocks using Nat.strong_induction_on generalizing blocks with
  | _ k ih =>
    obtain ⟨sts, t, hcode⟩ : ∃ sts t, blocks[i]? = some ⟨sts, t⟩ :=
      ⟨_, _, List.getElem?_eq_getElem hlt⟩
    have hstop (hs : ∀ fuel, appendTargets uses i (fuel + 1) blocks = some blocks) :
        ∃ bbs, Yields (fun fuel => appendTargets uses i fuel blocks) bbs ∧
          Merging blocks bbs visited uses :=
      ⟨blocks, .of_succ (.of_forall hs), rfl, h, .refl blocks⟩
    cases t with
    | goto tgt =>
      by_cases hu : uses tgt = 1
      · by_cases hne : tgt = i
        · exact hstop fun _ => by simp [appendTargets, hcode, hne]
        · obtain ⟨src, htgt⟩ : ∃ src, blocks[tgt]? = some src :=
            ⟨_, List.getElem?_eq_getElem
              (h.wellFormed.targets_lt hcode tgt (List.mem_singleton_self _))⟩
          have hrefs := sum_merged hcode htgt hne (fun _ ts => ts.length) (fun _ => rfl) rfl
          have hall : allRefs (merged blocks i tgt sts src) + 1 = allRefs blocks := by
            rw [allRefs, allRefs, hrefs, merged_length]
            rfl
          obtain ⟨bbs, hy, hm⟩ := ih _ (by omega) (h.merge hcode htgt hne hv)
            (merged_length.symm ▸ hlt) rfl
          refine ⟨bbs, .of_succ ?_, hm.length.trans merged_length, hm.counted,
            (h.merge_preserves hcode htgt hne hv hu).trans hm.preserves⟩
          simp only [appendTargets, hcode, hu, hne, htgt, Option.bind_eq_bind, Option.bind_some,
            ne_eq, not_true_eq_false, if_false]
          exact hy
      · exact hstop fun _ => by simp [appendTargets, hcode, hu]
    | _ => exact hstop fun _ => by simp [appendTargets, hcode]

end Merge

/-- The merging returns and keeps the executions. -/
theorem mergeBlocks_yields (hwf : WellFormed blocks) :
    ∃ bbs, Yields (mergeBlocks · blocks) bbs ∧ WellFormed bbs ∧ Preserves blocks bbs := by
  have hstart : Counting blocks (fun _ => false) (Function.update (fun _ => 0) 0 1) [0] := by
    refine ⟨.inr (List.mem_singleton_self _), fun hb => ?_, fun e he => ?_, fun e => ?_⟩
    · cases hb
    · exact List.mem_singleton.mp he ▸ hwf.nonempty
    · simp [refs, Function.update_apply]
  obtain ⟨visited, uses, hy, hc⟩ := countUses_yields hwf hstart
    (k := 1 + allRefs blocks) (by simp [visitedRefs])
  have hloop : ∃ bbs, Yields (fun fuel => (List.range blocks.length).foldlM
      (fun bbs i => if visited i then appendTargets uses i fuel bbs else some bbs) blocks) bbs ∧
      Merging blocks bbs visited uses := by
    apply foldlM_yields
    · intro bbs hm i hi
      by_cases hv : visited i
      · have hlt : i < bbs.length := hm.length ▸ List.mem_range.mp hi
        obtain ⟨bbs', hy', hm'⟩ := appendTargets_yields hm.counted hv hlt
        simp only [hv, if_true]
        exact ⟨bbs', hy', hm'.length.trans hm.length, hm'.counted, hm.preserves.trans hm'.preserves⟩
      · simp only [hv, if_false, Bool.false_eq_true]
        exact ⟨bbs, .of_forall fun _ => rfl, hm⟩
    · exact ⟨rfl, hc.counted hwf, .refl blocks⟩
  obtain ⟨bbs, hy', hm⟩ := hloop
  exact ⟨bbs, hy.bind hy', hm.counted.wellFormed, hm.preserves⟩

/-- So does the loop that shortens gotos to exits. -/
theorem shortcutExits_some (hwf : WellFormed blocks) :
    ∃ bbs, shortcutExits blocks = some bbs ∧ Preserves blocks bbs := by
  have hloop : ∃ bbs, Yields (fun _ => shortcutExits blocks) bbs ∧
      bbs.length = blocks.length ∧ WellFormed bbs ∧ Preserves blocks bbs := by
    apply foldlM_yields
    · rintro bbs ⟨hlen, hwf', hp⟩ i hi
      obtain ⟨bbs', hs, hlen', hwf'', hp'⟩ := shortcutExit_some hwf' (hlen ▸ List.mem_range.mp hi)
      exact ⟨bbs', .of_forall fun _ => hs, hlen'.trans hlen, hwf'', hp.trans hp'⟩
    · exact ⟨rfl, hwf, .refl blocks⟩
  obtain ⟨bbs, hy, -, -, hp⟩ := hloop
  exact ⟨bbs, hy.of_const, hp⟩

end Mrustc.Mir
