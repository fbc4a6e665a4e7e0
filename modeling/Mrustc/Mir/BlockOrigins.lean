import Mrustc.Mir.GarbageCollectSound
import Mrustc.Mir.PropagateKnownValues

/-! # The origins of the blocks

A block has an origin where only one edge leads into it. Every walk back along the origins ends, since
those of the blocks that are reached lead to the entry, and the others have none.
-/

namespace Mrustc.Mir

open Depth Relation

variable {T P : Type} {f : Function T P (LValue P)} {origins : BasicBlockId → Option BasicBlockId}
  {pos pos' : Position}

/-- What holds of the counts and the origins when the edges `E` have been seen. -/
structure BlockUses.Counts (s : BlockUses) (E : BasicBlockId → BasicBlockId → Prop) : Prop where
  entry : s.blockUses 0 ≠ 0 ∧ s.blockOrigins 0 = none
  used {b p : BasicBlockId} (h : E p b) : s.blockUses b ≠ 0
  origin {b p : BasicBlockId} (h : s.blockOrigins b = some p) : E p b ∧ ∀ q, E q b → q = p

namespace BlockUses.Counts

variable {s : BlockUses} {E : BasicBlockId → BasicBlockId → Prop} {bb idx : BasicBlockId}

theorem useTarget (h : s.Counts E) :
    (s.useTarget bb idx).Counts fun p b => E p b ∨ p = bb ∧ b = idx where
  entry := by
    have hentry := h.entry
    by_cases hidx : idx = 0
    · subst hidx
      simp [BlockUses.useTarget, hentry.1]
    · simpa [BlockUses.useTarget, Function.update_of_ne (Ne.symm hidx)] using hentry
  used {b p} hE := by
    by_cases hb : b = idx
    · subst hb
      simp [BlockUses.useTarget]
    · have hE : E p b := hE.resolve_right fun h => hb h.2
      simpa [BlockUses.useTarget, Function.update_of_ne hb] using h.used hE
  origin {b p} ho := by
    by_cases hb : b = idx
    · subst hb
      by_cases huses : s.blockUses b = 0
      · -- the first edge into the block
        have hnone : ∀ q, ¬ E q b := fun q hq => h.used hq huses
        simp only [BlockUses.useTarget, Function.update_self, if_pos huses, Option.some.injEq] at ho
        simp [ho, hnone]
      · simp [BlockUses.useTarget, huses] at ho
    · simp only [BlockUses.useTarget, Function.update_of_ne hb] at ho
      simpa [hb] using h.origin ho

theorem useTargets {targets : List BasicBlockId} (h : s.Counts E) :
    (targets.foldl (BlockUses.useTarget bb) s).Counts fun p b => E p b ∨ p = bb ∧ b ∈ targets := by
  induction targets generalizing s E with
  | nil => simpa using h
  | cons idx targets ih => simpa [or_assoc, and_or_left] using ih h.useTarget

end BlockUses.Counts

theorem visited_useTargets {s : BlockUses} {bb : BasicBlockId} {targets : List BasicBlockId} :
    (targets.foldl (BlockUses.useTarget bb) s).visited = s.visited := by
  induction targets generalizing s with
  | nil => rfl
  | cons idx targets ih => exact ih

/-- The edges of the blocks that have been visited. -/
def BlockUses.Edge (blocks : Blocks T P) (s : BlockUses) (p b : BasicBlockId) : Prop :=
  s.visited p = true ∧ b ∈ succs blocks p

theorem counts_originsStep {s s' : BlockUses} {bb : BasicBlockId} {toVisit : List BasicBlockId}
    (h : s.Counts (s.Edge f.blocks)) (hs : originsStep f.blocks s bb = some (s', toVisit)) :
    s'.Counts (s'.Edge f.blocks) := by
  rw [originsStep] at hs
  by_cases hv : s.visited bb = true
  · rw [if_pos hv, Option.some.injEq, Prod.mk.injEq] at hs
    exact hs.1 ▸ h
  · rw [if_neg hv, Option.bind_eq_bind, Option.bind_eq_some_iff] at hs
    obtain ⟨code, hcode, hs⟩ := hs
    obtain ⟨rfl, -⟩ := Prod.mk.inj (Option.some.inj hs)
    have hsuccs : succs f.blocks bb = code.terminator.targets := by
      rw [succs, hcode]
      rfl
    have hedge : (code.terminator.targets.foldl (BlockUses.useTarget bb)
        { s with visited := Function.update s.visited bb true }).Edge f.blocks =
        fun p b => s.Edge f.blocks p b ∨ p = bb ∧ b ∈ code.terminator.targets := by
      ext p b
      by_cases hp : p = bb <;> simp [BlockUses.Edge, visited_useTargets, hp, hsuccs, hv]
    rw [hedge]
    exact BlockUses.Counts.useTargets ⟨h.entry, h.used, h.origin⟩

/-- What an origin says of the executions. -/
structure Origins (f : Function T P (LValue P)) (origins : BasicBlockId → Option BasicBlockId) : Prop where
  entry : origins 0 = none
  edge {b p : BasicBlockId} (h : origins b = some p) : Reached f.blocks p ∧ b ∈ succs f.blocks p
  unique {b p q : BasicBlockId} (h : origins b = some p) (hq : Reached f.blocks q)
    (hb : b ∈ succs f.blocks q) : q = p

theorem blockOrigins_yields (hf : f.InRange) :
    ∃ origins, Yields (blockOrigins f.blocks) origins ∧ Origins f origins := by
  have htr : Traversal f.blocks.length (succs f.blocks) id BlockUses.visited (originsStep f.blocks) := by
    apply traversal_of_targets hf
    · exact fun h => if_pos h
    · intro s bb code h hcode
      refine ⟨code.terminator.targets.foldl (BlockUses.useTarget bb)
        { s with visited := Function.update s.visited bb true }, visited_useTargets, ?_⟩
      rw [originsStep, if_neg (by simp [h]), hcode, visited_useTargets]
      rfl
  obtain ⟨s, hs, hvisited⟩ := htr.search_yields (s := .start) hf.nonempty fun _ => rfl
  have hcounts : s.Counts (s.Edge f.blocks) := by
    obtain ⟨fuel, hfuel⟩ := hs.exists_fuel
    apply search_invariant (K := fun _ => True)
      (fun s t s' pushed h _ hst => ⟨counts_originsStep h hst, fun _ _ => trivial⟩) hfuel
    · exact ⟨by simp [BlockUses.start], fun h => absurd h.1 Bool.false_ne_true, fun h => (nomatch h)⟩
    · exact fun _ _ => trivial
  have hreached (b : BasicBlockId) : s.visited b = true ↔ Reached f.blocks b := hvisited b
  refine ⟨s.blockOrigins, ?_, hcounts.entry.2, fun h => ?_, fun h hq hb => ?_⟩
  · filter_upwards [hs] with fuel hfuel
    rw [blockOrigins, hfuel, Option.map_some]
  · obtain ⟨⟨hv, hb⟩, -⟩ := hcounts.origin h
    exact ⟨(hreached _).mp hv, hb⟩
  · exact (hcounts.origin h).2 _ ⟨(hreached _).mpr hq, hb⟩

/-- Every walk back from the position ends. -/
abbrev Grounded (f : Function T P (LValue P)) (origins : BasicBlockId → Option BasicBlockId)
    (pos : Position) : Prop :=
  Acc (fun q p => stepBack f.blocks origins p = some q) pos

namespace Grounded

theorem of_start {bb : BasicBlockId} (h : Grounded f origins ⟨bb, 0⟩) (stmt : ℕ) :
    Grounded f origins ⟨bb, stmt⟩ := by
  induction stmt with
  | zero => exact h
  | succ stmt ih =>
    refine ⟨_, fun q hq => ?_⟩
    obtain rfl := Option.some.inj hq
    exact ih

theorem start_of_none {bb : BasicBlockId} (h : origins bb = none) : Grounded f origins ⟨bb, 0⟩ := by
  refine ⟨_, fun q hq => ?_⟩
  rw [stepBack, h] at hq
  cases hq

theorem start_of_some {bb p : BasicBlockId} (h : origins bb = some p) (hp : Grounded f origins ⟨p, 0⟩) :
    Grounded f origins ⟨bb, 0⟩ := by
  refine ⟨_, fun q hq => ?_⟩
  simp only [stepBack, h, Option.bind_eq_bind, Option.bind_some, Option.bind_eq_some_iff] at hq
  obtain ⟨code, -, hq⟩ := hq
  obtain rfl := Option.some.inj hq
  exact hp.of_start _

end Grounded

/-- By induction on how the block is reached: its origin is the block that it was reached from. -/
theorem Origins.grounded_reached (ho : Origins f origins) {bb : BasicBlockId} (h : Reached f.blocks bb) :
    Grounded f origins ⟨bb, 0⟩ := by
  induction h with
  | refl => exact .start_of_none ho.entry
  | tail hc hb ih =>
    rename_i c b
    cases hob : origins b with
    | none => exact .start_of_none hob
    | some p =>
      obtain rfl := ho.unique hob hc hb
      exact .start_of_some hob ih

theorem Origins.grounded (ho : Origins f origins) (pos : Position) : Grounded f origins pos := by
  obtain ⟨bb, stmt⟩ := pos
  apply Grounded.of_start
  cases hbb : origins bb with
  | none => exact .start_of_none hbb
  | some p => exact .start_of_some hbb (ho.grounded_reached (ho.edge hbb).1)

end Mrustc.Mir
