import Mrustc.Mir.SameBlocks
import Mrustc.Mir.Words

/-! # What combining identical blocks keeps

References are redirected to blocks that are kept. The executions are the same if blocks that compare equal
are, and they are unless they differ in the sign of a zero.
-/

namespace Mrustc.Mir

open UnifyBlocks Trace Memory

variable {T P : Type} {blocks : Blocks T P} {r : Replacements} {i j k : BasicBlockId}

section Replacements

variable [Ord P] [DecidableEq P] [DecidableEq T]

/-- The replacements found for the blocks before one are earlier equal blocks that are kept. -/
def Found (blocks : Blocks T P) (k : ℕ) (r : Replacements) : Prop :=
  ∀ i j, r i = some j → j < k ∧ j < i ∧ r j = none ∧
    ∃ a b, blocks[j]? = some a ∧ blocks[i]? = some b ∧ blocksEqual a b = true

theorem Found.update {a b : BasicBlock T P (LValue P)} (h : Found blocks (k + 1) r) (hk : r k = none)
    (hki : k < i) (ha : blocks[k]? = some a) (hb : blocks[i]? = some b)
    (hab : blocksEqual a b = true) : Found blocks (k + 1) (Function.update r i (some k)) := by
  intro i' j' h'
  by_cases hi : i' = i
  · subst hi
    rw [Function.update_self, Option.some.injEq] at h'
    subst h'
    exact ⟨Nat.lt_succ_self _, hki, by rw [Function.update_of_ne hki.ne, hk], a, b, ha, hb, hab⟩
  · rw [Function.update_of_ne hi] at h'
    obtain ⟨hlt, hji, hj, hex⟩ := h i' j' h'
    have hne : j' ≠ i := (Nat.lt_of_lt_of_le hlt hki).ne
    exact ⟨hlt, hji, by rw [Function.update_of_ne hne, hj], hex⟩

theorem Found.duplicates (h : Found blocks k r) : Found blocks (k + 1) (findDuplicates blocks r k) := by
  have hmono : Found blocks (k + 1) r := fun i j hij =>
    ⟨Nat.lt_succ_of_lt (h i j hij).1, (h i j hij).2⟩
  unfold findDuplicates
  cases ha : blocks[k]? with
  | none => exact hmono
  | some a =>
    simp only
    split_ifs with h₁ h₂
    · exact hmono
    · exact hmono
    · have hk : r k = none := by simpa using h₂
      have hloop (l : List ℕ) (hl : ∀ i ∈ l, k < i) (r : Replacements) (hr : Found blocks (k + 1) r)
          (hk : r k = none) : Found blocks (k + 1) (l.foldl (fun r i =>
            if (r i).isSome then r
            else if blocks[i]?.any (blocksEqual a) then Function.update r i (some k) else r) r) := by
        induction l generalizing r with
        | nil => exact hr
        | cons i l ih =>
          have hki := hl i List.mem_cons_self
          rw [List.foldl_cons]
          split_ifs with h₁ h₂
          · exact ih (fun i hi => hl i (List.mem_cons_of_mem _ hi)) r hr hk
          · obtain ⟨b, hb, hab⟩ := (Option.any_eq_true _ _).mp h₂
            apply ih fun i hi => hl i (List.mem_cons_of_mem _ hi)
            · exact hr.update hk hki ha hb hab
            · rw [Function.update_of_ne hki.ne, hk]
          · exact ih (fun i hi => hl i (List.mem_cons_of_mem _ hi)) r hr hk
      apply hloop _ _ r hmono hk
      intro i hi
      exact (List.mem_range'_1.mp hi).1

theorem found_findReplacements (blocks : Blocks T P) :
    Found blocks blocks.length (findReplacements blocks) := by
  have hloop (n : ℕ) : Found blocks n ((List.range n).foldl (findDuplicates blocks) fun _ => none) := by
    induction n with
    | zero =>
      intro i j h
      cases h
    | succ n ih =>
      rw [List.range_succ, List.foldl_append]
      exact ih.duplicates
  exact hloop blocks.length

end Replacements

section Redirected

variable {B K π E W : Type} [DecidableEq B] [Contents K π] {env : Env T P B K π E W} {F : Frame T P B}

/-- Replaced blocks are the same as the blocks that replace them, and those are kept. -/
structure Redirects (blocks : Blocks T P) (r : Replacements) : Prop where
  first : r 0 = none
  kept {i j : BasicBlockId} (h : r i = some j) : r j = none
  same {i j : BasicBlockId} (h : r i = some j) : blocks[j]? = blocks[i]?

omit [DecidableEq B] [Contents K π] in
theorem Redirects.patched (h : Redirects blocks r) (e : BasicBlockId) :
    r (patchTgt r e) = none ∧ blocks[patchTgt r e]? = blocks[e]? := by
  rw [patchTgt]
  cases he : r e with
  | none => exact ⟨he, rfl⟩
  | some j => exact ⟨h.kept he, h.same he⟩

theorem getElem?_replace (h : r k = none) : (replace r blocks)[k]? =
    blocks[k]?.map fun b => { b with terminator := b.terminator.mapTargets (patchTgt r) } := by
  rw [replace, List.getElem?_mapIdx]
  simp [h]

/-- Both runs are in the same block, with the targets redirected. -/
inductive Redirected (r : Replacements) : ℕ → Config T P B K W → Config T P B K W → Prop
  | mk {sts t s w} : Redirected r 0 ⟨⟨sts, t⟩, s, w⟩ ⟨⟨sts, t.mapTargets (patchTgt r)⟩, s, w⟩

theorem redirected_simulation (h : Redirects blocks r) :
    Simulation (env.next F blocks) (env.next F (replace r blocks)) (Redirected r) := by
  have hcode (e : BasicBlockId) : (replace r blocks)[patchTgt r e]? =
      blocks[e]?.map fun b => { b with terminator := b.terminator.mapTargets (patchTgt r) } := by
    obtain ⟨hkept, hsame⟩ := h.patched e
    rw [getElem?_replace hkept, hsame]
  apply Env.simulation_of_code
  · intro n st sts t s w d h
    cases h
    exact ⟨sts, _, rfl, fun s' => ⟨0, .mk⟩⟩
  · intro n t s w d o h hs
    cases h
    apply Ends.halt
    rw [Env.next_nil] at hs ⊢
    rw [Env.depart_mapTargets]
    cases hd : env.depart F s w t with
    | halt o' => rwa [hd] at hs
    | goes l e s' w' =>
      rw [hd] at hs
      cases hb : blocks[e]? with
      | none =>
        rw [Env.arrive, hb] at hs
        rw [Departure.mapTarget, Env.arrive, hcode, hb]
        exact hs
      | some code =>
        rw [Env.arrive_goes hb] at hs
        cases hs
  · intro n t s w d l c h hs
    cases h
    rw [Env.next_nil] at hs
    cases hd : env.depart F s w t with
    | halt o =>
      rw [hd] at hs
      cases hs
    | goes l' e s' w' =>
      rw [hd] at hs
      cases hb : blocks[e]? with
      | none => simp [Env.arrive, hb] at hs
      | some code =>
        rw [Env.arrive_goes hb, Next.step.injEq] at hs
        obtain ⟨rfl, rfl⟩ := hs
        refine .inr ⟨0, _, .one ?_, .mk⟩
        rw [Env.next_nil, Env.depart_mapTargets, hd]
        apply Env.arrive_goes
        rw [hcode, hb]
        rfl

end Redirected

theorem Redirects.preserves (h : Redirects blocks r) : Preserves blocks (replace r blocks) := by
  intro B K π E W _ _ env F s w
  have hstart : patchTgt r 0 = 0 := by rw [patchTgt, h.first, Option.getD_none]
  have hR : Redirected (T := T) (P := P) r 0 ⟨⟨[], .goto 0⟩, s, w⟩ ⟨⟨[], .goto (patchTgt r 0)⟩, s, w⟩ := .mk
  rw [hstart] at hR
  exact (redirected_simulation h).sameBehaviour hR

/-- References are to blocks that are kept. -/
theorem Redirects.not_cleared (h : Redirects blocks r) {code : BasicBlock T P (LValue P)}
    (hi : (replace r blocks)[i]? = some code) : ∀ e ∈ code.terminator.targets, r e = none := by
  intro e he
  by_cases hr : r i = none
  · rw [getElem?_replace hr, Option.map_eq_some_iff] at hi
    obtain ⟨b, -, rfl⟩ := hi
    rw [Terminator.targets_mapTargets, List.mem_map] at he
    obtain ⟨e', -, rfl⟩ := he
    exact (h.patched e').1
  · rw [replace, List.getElem?_mapIdx, Option.map_eq_some_iff] at hi
    obtain ⟨b, -, rfl⟩ := hi
    rw [if_pos (Option.isSome_iff_ne_none.mpr hr)] at he
    cases he

/-- From any state the blocks run alike. -/
def SameEffect (a b : BasicBlock T P (LValue P)) : Prop :=
  ∀ (B K π E : Type) [DecidableEq B] [Contents K π] (I : Interp T P B K π E) (F : Frame T P B)
    (s : State B K), I.block F s a = I.block F s b

/-- The blocks have no NaNs, and differ just in the signs of zeros. -/
def DifferInZeroSigns (a b : BasicBlock T P (LValue P)) : Prop :=
  NoNan a.constants ∧ a.mapConstants Constant.unsigned = b.mapConstants Constant.unsigned ∧ a ≠ b

/-- Blocks that compare equal have the same effect and the same constants, the executions are kept, and no
reference is to a block that was cleared, exactly if no two blocks differ just in the signs of zeros. -/
theorem unifyBlocks_preserves_iff [Ord P] [Std.LawfulEqOrd P] [DecidableEq P] [DecidableEq T]
    (f : Function T P (LValue P)) :
    ((∀ a ∈ f.blocks, ∀ b ∈ f.blocks, blocksEqual a b = true →
        SameEffect a b ∧ a.constants = b.constants) ∧
      Preserves f.blocks (unifyBlocks f).blocks ∧
      ∀ b ∈ (unifyBlocks f).blocks, ∀ e ∈ b.terminator.targets, findReplacements f.blocks e = none) ↔
      ∀ a ∈ f.blocks, ∀ b ∈ f.blocks, ¬ DifferInZeroSigns a b := by
  constructor
  · rintro ⟨h, -⟩ a ha b hb ⟨hnan, hab, hne⟩
    exact hne (block_injective hab (h a ha b hb ((blocksEqual_iff a b).mpr ⟨hnan, hab⟩)).2)
  · intro h
    have hsame {a b : BasicBlock T P (LValue P)} (ha : a ∈ f.blocks) (hb : b ∈ f.blocks)
        (hab : blocksEqual a b = true) : a = b := by
      obtain ⟨hnan, hun⟩ := (blocksEqual_iff a b).mp hab
      exact not_not.mp fun hne => h a ha b hb ⟨hnan, hun, hne⟩
    have hr : Redirects f.blocks (findReplacements f.blocks) := by
      have hfound := found_findReplacements f.blocks
      refine ⟨?_, fun hij => (hfound _ _ hij).2.2.1, fun {i j} hij => ?_⟩
      · cases h0 : findReplacements f.blocks 0 with
        | none => rfl
        | some j => exact absurd (hfound 0 j h0).2.1 (Nat.not_lt_zero j)
      · obtain ⟨-, -, -, a, b, ha, hb, hab⟩ := hfound i j hij
        rw [ha, hb, hsame (List.mem_of_getElem? ha) (List.mem_of_getElem? hb) hab]
    refine ⟨fun a ha b hb hab => ?_, hr.preserves, fun b hb => ?_⟩
    · obtain rfl := hsame ha hb hab
      exact ⟨fun _ _ _ _ _ _ _ _ _ => rfl, rfl⟩
    · obtain ⟨i, hi⟩ := List.getElem?_of_mem hb
      exact hr.not_cleared hi

section Examples

/-- A condition chooses between two assignments of zeros to the return slot. -/
def zeros (bits bits' : UInt64) : Function Words.Ty Unit (LValue Unit) :=
  ⟨[], [], [⟨[], .if_ ⟨.argument 0, []⟩ 1 2⟩,
    ⟨[.assign ⟨.return_, []⟩ (.constant (.float bits .f64))], .return_⟩,
    ⟨[.assign ⟨.return_, []⟩ (.constant (.float bits' .f64))], .return_⟩]⟩

instance unitLawfulEqOrd : Std.LawfulEqOrd Unit where
  compare_self := rfl
  eq_of_compare _ := rfl

theorem zeros_preserves :
    Preserves (zeros 0 0).blocks (unifyBlocks (zeros 0 0)).blocks := by
  refine ((unifyBlocks_preserves_iff (zeros 0 0)).mpr ?_).2.1
  rintro a ha b hb ⟨-, hab, hne⟩
  simp only [zeros, List.mem_cons, List.not_mem_nil, or_false] at ha hb
  rcases ha with rfl | rfl | rfl <;> rcases hb with rfl | rfl | rfl <;>
    first | exact hne rfl | cases hab

/-- The machine of words with conditions, and without calls. -/
def wordsEnv : Env Words.Ty Unit (Storage Unit) Words.Value ℕ Unit Unit where
  toInterp := { Words.interp with rvalue := fun _ => some (.value [.num 0]) }
  isTrue v := some (v == .value [.num 1])
  variant _ := none
  matchedValue _ _ := none
  call _ _ _ _ := none

/-- What the assignment of a constant shows. -/
def assigned (bits : UInt64) : Label Words.Ty Unit (Storage Unit) Words.Value ℕ Unit :=
  .statement (.assign ⟨.return_, []⟩ (.constant (.float bits .f64)))
    (.assign ⟨.return_, []⟩ (.constant (.float bits .f64)) (.value [.num 0]))

/-- The second zero is negative, and the first one is assigned in its place. -/
theorem zeros_not_preserved :
    ¬ Preserves (zeros 0 0x8000000000000000).blocks (unifyBlocks (zeros 0 0x8000000000000000)).blocks := by
  intro h
  have hsame := h _ _ _ _ _ wordsEnv (Words.frame fun _ => .word)
    (Words.state [(.argument 0, [.num 0])]) ()
  have hunified : (unifyBlocks (zeros 0 0x8000000000000000)).blocks =
      [⟨[], .if_ ⟨.argument 0, []⟩ 1 1⟩,
        ⟨[.assign ⟨.return_, []⟩ (.constant (.float 0 .f64))], .return_⟩, ⟨[], .incomplete⟩] := by
    decide
  have hpos : ∃ o, Ends (wordsEnv.next (Words.frame fun _ => .word)
      (unifyBlocks (zeros 0 0x8000000000000000)).blocks)
      ⟨⟨[], .goto 0⟩, Words.state [(.argument 0, [.num 0])], ()⟩ [assigned 0] o := by
    rw [hunified]
    exact ⟨_, 3, _, rfl, rfl⟩
  obtain ⟨o, hpos⟩ := hpos
  have hneg := (hsame.ends [assigned 0x8000000000000000] _).mp ⟨3, _, rfl, rfl⟩
  have heq := (hpos.unique hneg).1
  simp [assigned] at heq

end Examples

end Mrustc.Mir
