import Mrustc.Mir.MergeBlocks
import Mrustc.Mir.SkipGotos

/-! # What simplifying the call graph keeps

The pass returns a function with the same executions unless some blocks are gotos round in a circle.
-/

namespace Mrustc.Mir

open BlockSimplify Depth Relation

variable {T P : Type} [DecidableEq P]

theorem blockSimplify_yields {f : Function T P (LValue P)} (hf : WellFormed f.blocks)
    (hcycle : ∀ a, ¬ OnCycle f.blocks a) :
    ∃ f', Yields (blockSimplify · f) f' ∧ Preserves f.blocks f'.blocks := by
  obtain ⟨bbs, hy, hs⟩ := skipGotos_yields hf hcycle
  obtain ⟨bbs₁, hy₁, hwf, hp₁⟩ := mergeBlocks_yields (wellFormed_unified hs.wellFormed)
  obtain ⟨bbs₂, hs₂, hp₂⟩ := shortcutExits_some hwf
  refine ⟨{ f with blocks := bbs₂ }, ?_, ?_⟩
  · apply hy.bind
    apply hy₁.bind
    rw [hs₂]
    exact .of_forall fun _ => rfl
  · exact ((hs.preserves.trans (preserves_unified bbs)).trans hp₁).trans hp₂

/-- Simplifying the call graph returns and keeps every execution exactly if no blocks are gotos round in a
circle of more than one block. -/
theorem blockSimplify_preserves_iff (f : Function T P (LValue P)) (hf : WellFormed f.blocks) :
    (∃ f', Yields (blockSimplify · f) f' ∧ Preserves f.blocks f'.blocks) ↔
      ¬ ∃ bb, TransGen (Forwards f.blocks) bb bb := by
  constructor
  · rintro ⟨f', hy, -⟩ ⟨bb, hbb⟩
    obtain ⟨fuel, hf'⟩ := hy.exists_fuel
    rw [blockSimplify, skipGotos_onCycle hbb] at hf'
    cases hf'
  · exact fun h => blockSimplify_yields hf (not_exists.mp h)

/-- A goto to a goto, `ScopeEnd`s to unify, and a block that goes to itself. -/
def gotoChain : Function Unit Unit (LValue Unit) :=
  ⟨[], [], [⟨[], .goto 2⟩, ⟨[], .return_⟩, ⟨[.scopeEnd [1], .scopeEnd [0]], .goto 1⟩, ⟨[], .goto 3⟩]⟩

theorem gotoChain_preserves :
    ∃ f', Yields (blockSimplify · gotoChain) f' ∧ Preserves gotoChain.blocks f'.blocks := by
  have hforwards {a b : BasicBlockId} (h : Forwards gotoChain.blocks a b) : a = 0 ∧ b = 2 := by
    obtain ⟨h, hne⟩ := h
    rcases a with _ | _ | _ | _ | a <;> simp_all [gotoChain]
  refine (blockSimplify_preserves_iff gotoChain ⟨?_, ?_, ?_⟩).mpr ?_
  · decide
  · intro i code h e he
    rcases i with _ | _ | _ | _ | i <;> simp [gotoChain] at h <;> subst h <;>
      simp [Terminator.targets] at he <;> subst he <;> decide
  · intro i j sts sts' val ts ts' h _
    rcases i with _ | _ | _ | _ | i <;> simp [gotoChain] at h
  · rintro ⟨bb, h⟩
    obtain ⟨b, hb, -⟩ := TransGen.head'_iff.mp h
    obtain ⟨c, -, hc⟩ := TransGen.tail'_iff.mp h
    exact absurd ((hforwards hb).1.symm.trans (hforwards hc).2) (by decide)

/-- Two gotos to each other. -/
def gotoCircle : Function Unit Unit (LValue Unit) := ⟨[], [], [⟨[], .goto 1⟩, ⟨[], .goto 0⟩]⟩

theorem gotoCircle_diverges :
    WellFormed gotoCircle.blocks ∧ ¬ ∃ f', Yields (blockSimplify · gotoCircle) f' := by
  refine ⟨⟨by decide, ?_, ?_⟩, ?_⟩
  · intro i code h e he
    rcases i with _ | _ | i <;> simp [gotoCircle] at h <;> subst h <;>
      simp [Terminator.targets] at he <;> subst he <;> decide
  · intro i j sts sts' val ts ts' h _
    rcases i with _ | _ | i <;> simp [gotoCircle] at h
  · rintro ⟨f', hy⟩
    obtain ⟨fuel, hf'⟩ := hy.exists_fuel
    have hcycle : OnCycle gotoCircle.blocks 0 :=
      .tail (b := 1) (.single ⟨rfl, by decide⟩) ⟨rfl, by decide⟩
    rw [blockSimplify, skipGotos_onCycle hcycle] at hf'
    cases hf'

end Mrustc.Mir
