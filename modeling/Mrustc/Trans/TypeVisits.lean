import Mathlib.Logic.Relation
import Mathlib.SetTheory.Cardinal.Order
import Mrustc.Trans.TypeOrder

/-! # The visits return

A visit in the normal mode goes down through what types contain by value, and ends unless a type is infinitely
sized. A deep visit also goes through pointers, and meets a type again that is recursive through what it follows.
-/

namespace Mrustc.Enumerate
open Relation

variable {P D : Type} (items : Items P D)

/-- A type that has a layout: no inference variable, parameter, closure, unresolved path or unknown size. -/
def Known : TypeRef P D → Prop
  | .infer => False
  | .generic => False
  | .closure => False
  | .generator => False
  | .path p =>
    match items.binding p with
    | .unbound => False
    | .opaqueType => False
    | _ => True
  | .array _ size => size ≠ none
  | _ => True

/-- What a type contains or points to. -/
def Uses (ty c : TypeRef P D) : Prop := c ∈ contents items ty ∨ c ∈ pointees ty

/-- A type and all that it uses are known. -/
def Monomorphic (ty : TypeRef P D) : Prop := ∀ u, ReflTransGen (Uses items) ty u → Known items u

def Contained (c ty : TypeRef P D) : Prop := c ∈ contents items ty

/-- A type that does not contain itself, nor ever larger types. -/
def NotInfinite (ty : TypeRef P D) : Prop := Acc (Contained items) ty

/-- The parts of a type that a deep visit goes to deeply. -/
def deepParts : TypeRef P D → List (TypeRef P D)
  | .array inner _ => [inner]
  | .slice inner => [inner]
  | .borrow inner => [inner]
  | .pointer inner => [inner]
  | .tuple elems => elems
  | .function rettype argTypes => rettype :: argTypes
  | _ => []

def DeepReach : TypeRef P D → TypeRef P D → Prop := ReflTransGen fun ty c => c ∈ deepParts ty

/-- No type that a deep visit goes through is contained in a type that it leads to, and these are not infinite. -/
def NotDeeplyRecursive (ty : TypeRef P D) : Prop :=
  ∀ u v, DeepReach ty u → DeepReach u v → NotInfinite items v ∧ ¬ TransGen (Contained items) u v

/-- A visit of a monomorphic type that is not infinite and, for a deep one, not recursive through what it follows. -/
structure Visitable (ty : TypeRef P D) (mode : Mode) : Prop where
  monomorphic : Monomorphic items ty
  notInfinite : NotInfinite items ty
  notDeeplyRecursive : mode = .deep → NotDeeplyRecursive items ty

variable {items} {ty c u v : TypeRef P D} {mode : Mode} {parts : List (TypeRef P D × Mode)}

theorem Monomorphic.of_uses (h : Monomorphic items ty) (hc : Uses items ty c) : Monomorphic items c :=
  fun u hu => h u (ReflTransGen.head hc hu)

theorem Monomorphic.known (h : Monomorphic items ty) : Known items ty := h ty .refl

theorem shallowArm_ok (h : Known items ty) :
    ∃ parts, shallowArm items ty = .ok parts ∧ ∀ part ∈ parts, part.1 ∈ pointees ty := by
  cases ty with
  | path p =>
    rw [Known] at h
    rw [shallowArm]
    split at h <;> simp_all
  | array inner size =>
    cases size with
    | none => exact absurd rfl h
    | some n => exact ⟨[], rfl, by simp⟩
  | function rettype argTypes => exact ⟨_, rfl, by simp +contextual [pointees]⟩
  | pointer inner => exact ⟨_, rfl, by simp [pointees]⟩
  | borrow inner => exact ⟨_, rfl, by simp [pointees]⟩
  | infer => exact h.elim
  | _ => exact ⟨[], rfl, by simp⟩

theorem arm_ok (h : Known items ty) (mode : Mode) : ∃ parts, arm items mode ty = .ok parts := by
  cases ty with
  | path p =>
    rw [Known] at h
    rw [arm]
    split at h <;> simp_all
    split <;> simp_all
  | traitObject d =>
    rw [arm]
    split <;> exact ⟨_, rfl⟩
  | array inner size =>
    cases size with
    | none => exact absurd rfl h
    | some n => exact ⟨_, rfl⟩
  | infer => exact h.elim
  | generic => exact h.elim
  | closure => exact h.elim
  | generator => exact h.elim
  | _ => exact ⟨_, rfl⟩

theorem arm_normal (h : arm items .normal ty = .ok parts) :
    ∀ part ∈ parts, part.2 = .normal ∧ part.1 ∈ contents items ty ∨ part.2 = .shallow ∧ part.1 ∈ pointees ty := by
  cases ty with
  | path p =>
    rw [arm] at h
    rw [contents]
    split at h <;> cases h <;> simp_all
  | traitObject d =>
    rw [arm] at h
    rw [contents]
    split at h <;> cases h <;> simp_all
  | array inner size => cases size <;> cases h <;> simp [contents]
  | function rettype argTypes => cases h; simp +contextual [pointees, Mode.pointee]
  | _ => cases h <;> simp [contents, pointees, Mode.pointee]

theorem arm_deep (h : arm items .deep ty = .ok parts) :
    ∀ part ∈ parts, part.2 = .normal ∧ part.1 ∈ contents items ty ∨ part.2 = .deep ∧ part.1 ∈ deepParts ty := by
  cases ty with
  | path p =>
    rw [arm] at h
    rw [contents]
    split at h <;> cases h <;> simp_all
  | traitObject d =>
    rw [arm] at h
    rw [contents]
    split at h <;> cases h <;> simp_all
  | array inner size => cases size <;> cases h <;> simp [deepParts]
  | function rettype argTypes => cases h; simp +contextual [deepParts, Mode.pointee]
  | _ => cases h <;> simp [deepParts, Mode.pointee]

theorem uses_of_deepParts (h : c ∈ deepParts ty) : Uses items ty c := by
  cases ty <;> simp_all [deepParts, Uses, contents, pointees]

theorem sizeOf_deepParts (h : c ∈ deepParts ty) : sizeOf c < sizeOf ty := by
  cases ty with
  | tuple elems =>
    have := List.sizeOf_lt_of_mem (show c ∈ elems from h)
    simp
    omega
  | function rettype argTypes =>
    rcases List.mem_cons.mp h with rfl | h
    · simp
      omega
    · have := List.sizeOf_lt_of_mem h
      simp
      omega
  | array inner size => simp_all [deepParts]; omega
  | slice inner => simp_all [deepParts]
  | borrow inner => simp_all [deepParts]
  | pointer inner => simp_all [deepParts]
  | _ => simp [deepParts] at h

theorem deepReach_sizeOf (h : DeepReach u v) : sizeOf v ≤ sizeOf u := by
  induction h with
  | refl => exact le_rfl
  | tail _ hc ih => exact (sizeOf_deepParts hc).le.trans ih

theorem not_transGen_self (h : NotInfinite items ty) : ¬ TransGen (Contained items) ty ty := by
  have hacc := h.transGen
  induction hacc with
  | intro ty _ ih => exact fun hself => ih ty hself h hself

section Success

variable [LinearOrder (TypeRef P D)] {n : ℕ} {st st' : State P D} {active : List (TypeRef P D)}

/-- Visits that returned do so where each does. -/
theorem foldlM_mono {k : ℕ}
    (hvisit : ∀ ty mode (st st' : State P D), visitType items n ty mode st = .ok st' →
      visitType items k ty mode st = .ok st')
    (h : parts.foldlM (fun st part => visitType items n part.1 part.2 st) st = .ok st') :
    parts.foldlM (fun st part => visitType items k part.1 part.2 st) st = .ok st' := by
  induction parts generalizing st with
  | nil => exact h
  | cons part parts ih =>
    rw [List.foldlM_cons] at h ⊢
    cases hpart : visitType items n part.1 part.2 st with
    | error e =>
      rw [hpart] at h
      cases h
    | ok st₁ =>
      rw [hpart] at h
      rw [hvisit _ _ _ _ hpart]
      exact ih h

/-- A visit that returned does so with more fuel. -/
theorem visitType_succ (ty : TypeRef P D) (mode : Mode) (st st' : State P D)
    (h : visitType items n ty mode st = .ok st') : visitType items (n + 1) ty mode st = .ok st' := by
  induction n generalizing ty mode st st' with
  | zero => cases h
  | succ n ih =>
    rw [visitType] at h ⊢
    split at h
    next hdone => rwa [if_pos hdone]
    next hdone =>
      rw [if_neg hdone]
      split at h
      next hmode =>
        rw [if_pos hmode]
        cases harm : shallowArm items ty with
        | error b =>
          rw [harm] at h
          cases h
        | ok parts =>
          rw [harm] at h
          dsimp only at h ⊢
          cases hfold : parts.foldlM (fun st part => visitType items n part.1 part.2 st) st with
          | error e =>
            rw [hfold] at h
            cases h
          | ok st₁ =>
            rw [hfold] at h
            rw [foldlM_mono ih hfold]
            exact h
      next hmode =>
        rw [if_neg hmode]
        split at h
        next => cases h
        next hactive =>
          rw [if_neg hactive]
          cases harm : arm items mode ty with
          | error b =>
            rw [harm] at h
            cases h
          | ok parts =>
            rw [harm] at h
            dsimp only at h ⊢
            cases hfold : parts.foldlM (fun st part => visitType items n part.1 part.2 st)
                {st with active := ty :: st.active} with
            | error e =>
              rw [hfold] at h
              cases h
            | ok st₁ =>
              rw [hfold] at h
              rw [foldlM_mono ih hfold]
              exact h

theorem visitType_le {k : ℕ} (hk : n ≤ k) (ty : TypeRef P D) (mode : Mode) (st st' : State P D)
    (h : visitType items n ty mode st = .ok st') : visitType items k ty mode st = .ok st' := by
  induction k, hk using Nat.le_induction with
  | base => exact h
  | succ k _ ih => exact visitType_succ _ _ _ _ ih

/-- With enough fuel, a visit returns from every list in order while these types are being visited. -/
def Returns (items : Items P D) (active : List (TypeRef P D)) (ty : TypeRef P D) (mode : Mode) : Prop :=
  ∃ n, ∀ st, Ordered items st → st.active = active → ∃ st', visitType items n ty mode st = .ok st'

theorem foldlM_returns (h : ∀ part ∈ parts, Returns items active part.1 part.2) :
    ∃ n, ∀ st, Ordered items st → st.active = active →
      ∃ st', parts.foldlM (fun st part => visitType items n part.1 part.2 st) st = .ok st' := by
  induction parts with
  | nil => exact ⟨0, fun st _ _ => ⟨st, rfl⟩⟩
  | cons part parts ih =>
    rcases h part List.mem_cons_self with ⟨n, hn⟩
    rcases ih fun p hp => h p (List.mem_cons_of_mem _ hp) with ⟨k, hk⟩
    refine ⟨max n k, fun st hst hactive => ?_⟩
    rcases hn st hst hactive with ⟨st₁, hst₁⟩
    rcases visitType_extends _ _ _ _ hst hst₁ with ⟨hext, -, -⟩
    rcases hk st₁ hext.ordered (hext.active.trans hactive) with ⟨st₂, hst₂⟩
    refine ⟨st₂, ?_⟩
    rw [List.foldlM_cons, visitType_le (Nat.le_max_left n k) _ _ _ _ hst₁]
    exact foldlM_mono (visitType_le (Nat.le_max_right n k)) hst₂

/-- A visit returns if its type is not being visited and the visits of its arm return. -/
theorem returns_of_arm (hmode : mode ≠ .shallow) (hactive : ty ∉ active) (harm : arm items mode ty = .ok parts)
    (h : ∀ part ∈ parts, Returns items (ty :: active) part.1 part.2) : Returns items active ty mode := by
  rcases foldlM_returns h with ⟨n, hn⟩
  refine ⟨n + 1, fun st hst hst' => ?_⟩
  subst hst'
  rcases hn {st with active := ty :: st.active} ⟨hst.order, hst.indexed.active _⟩ rfl with ⟨st₁, hst₁⟩
  rw [visitType]
  split
  · exact ⟨st, rfl⟩
  · rw [harm]
    dsimp only
    rw [hst₁]
    exact ⟨_, rfl⟩

theorem returns_shallow (ty : TypeRef P D) (h : Monomorphic items ty) (active : List (TypeRef P D)) :
    Returns items active ty .shallow := by
  induction hsize : sizeOf ty using Nat.strong_induction_on generalizing ty with
  | _ size ih =>
    subst hsize
    rcases shallowArm_ok h.known with ⟨parts, harm, hparts⟩
    have hall : ∀ part ∈ parts, Returns items active part.1 part.2 := by
      intro part hpart
      rcases shallowArm_small harm part hpart with ⟨hmode, hsize⟩
      rw [hmode]
      exact ih _ hsize _ (h.of_uses (.inr (hparts part hpart))) rfl
    rcases foldlM_returns hall with ⟨n, hn⟩
    refine ⟨n + 1, fun st hst hst' => ?_⟩
    rw [visitType]
    split
    · exact ⟨st, rfl⟩
    · rcases hn st hst hst' with ⟨st₁, hst₁⟩
      rw [if_pos rfl, harm]
      dsimp only
      rw [hst₁]
      exact ⟨_, rfl⟩

/-- Down through what types contain, no type is met again. -/
theorem returns_normal (hfinite : NotInfinite items ty) (h : Monomorphic items ty)
    (hactive : ∀ a ∈ active, ¬ ReflTransGen (Contained items) a ty) : Returns items active ty .normal := by
  induction hfinite generalizing active with
  | intro ty hacc ih =>
    rcases arm_ok h.known .normal with ⟨parts, harm⟩
    apply returns_of_arm Mode.noConfusion (fun hmem => hactive ty hmem .refl) harm
    intro part hpart
    rcases arm_normal harm part hpart with ⟨hmode, hc⟩ | ⟨hmode, hc⟩
    · rw [hmode]
      apply ih _ hc (h.of_uses (.inl hc))
      intro a ha hreach
      rcases List.mem_cons.mp ha with rfl | ha
      · exact not_transGen_self (Acc.intro _ hacc) (TransGen.tail' hreach hc)
      · exact hactive a ha (hreach.tail hc)
    · rw [hmode]
      exact returns_shallow _ (h.of_uses (.inr hc)) _

/-- Nor is one down through what a deep visit follows. -/
theorem returns_deep (hdeep : NotDeeplyRecursive items ty) (h : Monomorphic items ty)
    (hactive : ∀ a ∈ active, ∀ v, DeepReach ty v → ¬ ReflTransGen (Contained items) a v) :
    Returns items active ty .deep := by
  induction hsize : sizeOf ty using Nat.strong_induction_on generalizing ty active with
  | _ size ih =>
    subst hsize
    have hself : NotInfinite items ty := (hdeep ty ty .refl .refl).1
    rcases arm_ok h.known .deep with ⟨parts, harm⟩
    apply returns_of_arm Mode.noConfusion (fun hmem => hactive ty hmem ty .refl .refl) harm
    intro part hpart
    rcases arm_deep harm part hpart with ⟨hmode, hc⟩ | ⟨hmode, hc⟩
    · rw [hmode]
      apply returns_normal (hself.inv hc) (h.of_uses (.inl hc))
      intro a ha hreach
      rcases List.mem_cons.mp ha with rfl | ha
      · exact not_transGen_self hself (TransGen.tail' hreach hc)
      · exact hactive a ha ty .refl (hreach.tail hc)
    · rw [hmode]
      have hbelow : ∀ v, DeepReach part.1 v → DeepReach ty v := fun v hv => ReflTransGen.head hc hv
      apply ih _ (sizeOf_deepParts hc) (fun u v hu hv => hdeep u v (hbelow u hu) hv)
        (h.of_uses (uses_of_deepParts hc)) _ rfl
      intro a ha v hv hreach
      rcases List.mem_cons.mp ha with rfl | ha
      · rcases reflTransGen_iff_eq_or_transGen.mp hreach with heq | hreach
        · have hle := deepReach_sizeOf hv
          rw [heq] at hle
          exact absurd (sizeOf_deepParts hc) (not_lt.mpr hle)
        · exact (hdeep a v .refl (hbelow v hv)).2 hreach
      · exact hactive a ha v (hbelow v hv) hreach

theorem returns_of_visitable (h : Visitable items ty mode) : Returns items [] ty mode := by
  cases mode with
  | shallow => exact returns_shallow ty h.monomorphic []
  | normal => exact returns_normal h.notInfinite h.monomorphic (by simp)
  | deep => exact returns_deep (h.notDeeplyRecursive rfl) h.monomorphic (by simp)

theorem ordered_empty : Ordered items (State.empty : State P D) := by
  refine ⟨⟨List.nodup_nil, ?_, ?_, ?_⟩, ⟨?_, .nil, ?_⟩⟩ <;> simp [State.empty]

end Success

/-! ## A struct with a pointer to itself -/

/-- Any order of the types serves. -/
noncomputable instance : LinearOrder (TypeRef Unit Empty) :=
  open Classical in linearOrderOfSTO WellOrderingRel

/-- The items of `struct Node { next: *Node }`. -/
def nodeItems : Items Unit Empty where
  binding _ := .struct [.pointer (.path ())]
  vtable _ := none

def node : TypeRef Unit Empty := .path ()

theorem nodeItems_uses {ty c : TypeRef Unit Empty} (hty : ty = node ∨ ty = .pointer node) (h : Uses nodeItems ty c) :
    c = node ∨ c = .pointer node := by
  rcases hty with rfl | rfl <;> rcases h with h | h <;> simp_all [node, contents, pointees, nodeItems]

theorem nodeItems_monomorphic {ty : TypeRef Unit Empty} (hty : ty = node ∨ ty = .pointer node) :
    Monomorphic nodeItems ty := by
  intro u hu
  have hcases : u = node ∨ u = .pointer node := by
    induction hu with
    | refl => exact hty
    | tail _ huse ih => exact nodeItems_uses ih huse
  rcases hcases with rfl | rfl <;> trivial

theorem pointer_notInfinite : NotInfinite nodeItems (.pointer node) := by
  constructor
  intro c hc
  cases hc

theorem node_notInfinite : NotInfinite nodeItems node := by
  constructor
  intro c hc
  rw [List.mem_singleton.mp hc]
  exact pointer_notInfinite

end Mrustc.Enumerate
