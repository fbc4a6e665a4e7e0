import Mrustc.Minicargo.Features

/-! # The features that are active in the end

What the calls of `set_features` should lead to, as a least set and what its members say about the dependencies, and
what one activation does to a manifest.
-/

namespace Mrustc.Minicargo

def defaultName : List Char := ['d', 'e', 'f', 'a', 'u', 'l', 't']

/-- What a call asks for. -/
def FeatureCall.Asks (m : PackageManifest) (call : FeatureCall) (f : List Char) : Prop :=
  f ∈ call.features ∨ call.enableDefault = true ∧ f ∈ m.defaultFeatures

namespace PackageManifest

variable (m : PackageManifest) (calls : List FeatureCall)

/-- The entry of `f` pulls `g` in. -/
def Pulls (f g : List Char) : Prop := ∃ sub ∈ m.subFeatures f, (SubFeature.parse sub).pulled = some g

def Enables (f key : List Char) : Prop :=
  depPrefix ++ key = f ∨ ∃ sub ∈ m.subFeatures f, ∃ feat, SubFeature.parse sub = .strong key feat

def Forwards (f key feat : List Char) : Prop :=
  ∃ sub ∈ m.subFeatures f, SubFeature.parse sub = .strong key feat ∨ SubFeature.parse sub = .weak key feat

/-- What the active features have to contain. -/
structure Closed (S : Set (List Char)) : Prop where
  asked : ∀ call ∈ calls, ∀ f, call.Asks m f → f ∈ S
  named : defaultName ∈ S → ∀ f ∈ m.defaultFeatures, f ∈ S
  table : ∀ f ∈ S, ∀ g, m.Pulls f g → g ∈ S

/-- The least set of active features. -/
inductive Active : List Char → Prop
  | asked {call f} (hc : call ∈ calls) (hf : call.Asks m f) : Active f
  | named {f} (h : Active defaultName) (hf : f ∈ m.defaultFeatures) : Active f
  | table {f g} (hf : Active f) (hg : m.Pulls f g) : Active g

/-- The features reached when the name of the default features means nothing. -/
inductive Reached : List Char → Prop
  | asked {call f} (hc : call ∈ calls) (hf : call.Asks m f) : Reached f
  | table {f g} (hf : Reached f) (hg : m.Pulls f g) : Reached g

/-- The sets of features that are active while the calls are made, in any order. -/
inductive Arises : List (List Char) → Prop
  | nil : Arises []
  | call {A B call} (hA : Arises A) (hc : call ∈ calls) (hB : ∀ f, f ∈ B ↔ f ∈ A ∨ call.Asks m f) : Arises B
  | pull {A B f g} (hA : Arises A) (hf : f ∈ A) (hg : m.Pulls f g) (hB : ∀ x, x ∈ B ↔ x ∈ A ∨ x = g) : Arises B

theorem isLeast_active : IsLeast {S | m.Closed calls S} {f | m.Active calls f} := by
  constructor
  · exact ⟨fun call hc f hf => .asked hc hf, fun h f hf => .named h hf, fun f hf g hg => .table hf hg⟩
  · intro S hS f hf
    induction hf with
    | asked hc hf => exact hS.asked _ hc _ hf
    | named _ hf ih => exact hS.named ih _ hf
    | table _ hg ih => exact hS.table _ ih _ hg

variable {m calls}

theorem Reached.active {f : List Char} (h : m.Reached calls f) : m.Active calls f := by
  induction h with
  | asked hc hf => exact .asked hc hf
  | table _ hg ih => exact .table ih hg

theorem Arises.reached {A : List (List Char)} (h : m.Arises calls A) : ∀ f ∈ A, m.Reached calls f := by
  induction h with
  | nil => simp
  | call _ hc hB ih =>
    intro f hf
    rcases (hB f).mp hf with hf | hf
    · exact ih f hf
    · exact .asked hc hf
  | pull _ hf hg hB ih =>
    intro x hx
    rcases (hB x).mp hx with hx | rfl
    · exact ih x hx
    · exact .table (ih _ hf) hg

/-- Only which features there are matters. -/
theorem Arises.congr {A B : List (List Char)} (h : m.Arises calls A) (hAB : ∀ f, f ∈ B ↔ f ∈ A) :
    m.Arises calls B := by
  cases h with
  | nil =>
    have hnil : B = [] := List.eq_nil_iff_forall_not_mem.mpr fun f hf => by simpa using (hAB f).mp hf
    exact hnil ▸ .nil
  | call hA hc hB => exact .call hA hc fun f => (hAB f).trans (hB f)
  | pull hA hf hg hB => exact .pull hA hf hg fun f => (hAB f).trans (hB f)

/-- Every set between two that are an entry of the table apart. -/
theorem Arises.between {A B : List (List Char)} {f : List Char} (h : m.Arises calls A) (hf : f ∈ A)
    (hAB : ∀ x ∈ A, x ∈ B) (hB : ∀ x ∈ B, x ∈ A ∨ m.Pulls f x) : m.Arises calls B := by
  have hrest : ∀ C : List (List Char), (∀ x ∈ C, m.Pulls f x) → m.Arises calls (A ++ C) := by
    intro C
    induction C using List.reverseRecOn with
    | nil => simpa using h
    | append_singleton C g ih =>
      intro hC
      have hg : m.Pulls f g := hC g (by simp)
      apply Arises.pull (ih fun x hx => hC x (by simp [hx])) (List.mem_append_left C hf) hg
      intro x
      simp [or_assoc]
  classical
  apply (hrest (B.filter (· ∉ A)) fun x hx => ?_).congr
  · intro x
    by_cases hx : x ∈ A <;> simp [hx, hAB x]
  · rw [List.mem_filter] at hx
    exact (hB x hx.1).resolve_left (by simpa using hx.2)

end PackageManifest

/-- Whether the dependencies without or with a cfg are told about features. -/
def Host.Selected (host : Host) (A : List (List Char)) : Option (List Char) → Prop
  | none => True
  | some cfg => host.selects cfg A = .ok true

theorem Host.selected_congr {host : Host} {A B : List (List Char)} (h : ∀ f, f ∈ A ↔ f ∈ B) (g : Option (List Char)) :
    host.Selected A g ↔ host.Selected B g := by
  cases g with
  | none => exact Iff.rfl
  | some cfg => rw [Host.Selected, Host.Selected, Host.selects, Host.selects, CfgChecker.check_congr h]

section Relations

/-- The dependencies of two groups, one by one. -/
def Dependencies.Rel (R : PackageRef → PackageRef → Prop) (dg dg' : Dependencies) : Prop :=
  List.Forall₂ R dg.main dg'.main ∧ List.Forall₂ R dg.build dg'.build ∧ List.Forall₂ R dg.dev dg'.dev

/-- The dependencies of two manifests, one by one; a relation knows the cfg of the group. -/
structure DepsRel (R : Option (List Char) → PackageRef → PackageRef → Prop) (m m' : PackageManifest) : Prop where
  plain : m.dependencies.Rel (R none) m'.dependencies
  target : List.Forall₂ (fun td td' => td'.1 = td.1 ∧ td.2.Rel (R (some td.1)) td'.2)
    m.targetDependencies m'.targetDependencies

variable {R S T : PackageRef → PackageRef → Prop} {dg₁ dg₂ dg₃ : Dependencies}

theorem forall₂_comp {α β γ : Type} {R : α → β → Prop} {S : β → γ → Prop} {T : α → γ → Prop}
    (h : ∀ a b c, R a b → S b c → T a c) {l₁ : List α} {l₂ : List β} {l₃ : List γ} (h₁ : List.Forall₂ R l₁ l₂)
    (h₂ : List.Forall₂ S l₂ l₃) : List.Forall₂ T l₁ l₃ := by
  induction h₁ generalizing l₃ with
  | nil =>
    cases h₂
    exact .nil
  | cons hab _ ih =>
    cases h₂ with
    | cons hbc h₂ => exact .cons (h _ _ _ hab hbc) (ih h₂)

theorem Dependencies.Rel.comp (h : ∀ a b c, R a b → S b c → T a c) (h₁ : dg₁.Rel R dg₂) (h₂ : dg₂.Rel S dg₃) :
    dg₁.Rel T dg₃ :=
  ⟨forall₂_comp h h₁.1 h₂.1, forall₂_comp h h₁.2.1 h₂.2.1, forall₂_comp h h₁.2.2 h₂.2.2⟩

theorem Dependencies.rel_map {cb : PackageRef → PackageRef} (h : ∀ d, R d (cb d)) (dg : Dependencies) :
    dg.Rel R (dg.map cb) := by
  have hlist : ∀ l : List PackageRef, List.Forall₂ R l (l.map cb) := fun l =>
    List.forall₂_map_right_iff.mpr (List.forall₂_same.mpr fun d _ => h d)
  exact ⟨hlist _, hlist _, hlist _⟩

theorem Dependencies.rel_refl (h : ∀ d, R d d) (dg : Dependencies) : dg.Rel R dg :=
  ⟨List.forall₂_same.mpr fun d _ => h d, List.forall₂_same.mpr fun d _ => h d, List.forall₂_same.mpr fun d _ => h d⟩

variable {R S T : Option (List Char) → PackageRef → PackageRef → Prop} {m m₁ m₂ m₃ : PackageManifest}

theorem DepsRel.comp (h : ∀ g a b c, R g a b → S g b c → T g a c) (h₁ : DepsRel R m₁ m₂) (h₂ : DepsRel S m₂ m₃) :
    DepsRel T m₁ m₃ := by
  constructor
  · exact h₁.plain.comp (h none) h₂.plain
  · apply forall₂_comp _ h₁.target h₂.target
    intro td₁ td₂ td₃ h₁₂ h₂₃
    refine ⟨h₂₃.1.trans h₁₂.1, h₁₂.2.comp (h (some td₁.1)) ?_⟩
    rw [← h₁₂.1]
    exact h₂₃.2

theorem DepsRel.refl (h : ∀ g d, R g d d) (m : PackageManifest) : DepsRel R m m :=
  ⟨Dependencies.rel_refl (h none) _,
    List.forall₂_same.mpr fun td _ => ⟨rfl, Dependencies.rel_refl (h (some td.1)) _⟩⟩

theorem DepsRel.mono (h : ∀ g a b, R g a b → S g a b) (h₁ : DepsRel R m₁ m₂) : DepsRel S m₁ m₂ :=
  h₁.comp (S := fun _ a b => a = b) (fun g a b _ hab hbc => hbc ▸ h g a b hab) (DepsRel.refl (fun _ _ => rfl) m₂)

end Relations

section Effects

/-- What entries of the table say about dependencies. -/
structure Effect where
  enables : List Char → Prop
  forwards : List Char → List Char → Prop

def Effect.union (E E' : Effect) : Effect :=
  ⟨fun key => E.enables key ∨ E'.enables key, fun key feat => E.forwards key feat ∨ E'.forwards key feat⟩

/-- A dependency knows nothing else than before and what it was told, which is all of it if it was selected. -/
structure Told (E : Effect) (selected : Prop) (d d' : PackageRef) : Prop where
  key : d'.key = d.key
  enabled : d.optionalEnabled = true → d'.optionalEnabled = true
  enabled_only : d'.optionalEnabled = true → d.optionalEnabled = true ∨ E.enables d.key
  features : ∀ feat ∈ d.features, feat ∈ d'.features
  features_only : ∀ feat ∈ d'.features, feat ∈ d.features ∨ E.forwards d.key feat
  enables : selected → E.enables d.key → d'.optionalEnabled = true
  forwards : selected → ∀ feat, E.forwards d.key feat → feat ∈ d'.features

variable {E E' : Effect} {p p' : Prop} {d d' d'' : PackageRef}

theorem Told.unselected (hp : ¬p) (d : PackageRef) : Told E p d d :=
  ⟨rfl, id, .inl, fun _ h => h, fun _ h => .inl h, fun h => absurd h hp, fun h => absurd h hp⟩

theorem Told.trans (h : Told E p d d') (h' : Told E' p d' d'') : Told (E.union E') p d d'' where
  key := h'.key.trans h.key
  enabled := fun hd => h'.enabled (h.enabled hd)
  enabled_only := by
    intro hd
    rcases h'.enabled_only hd with hd | hd
    · exact (h.enabled_only hd).imp_right .inl
    · exact .inr (.inr (h.key ▸ hd))
  features := fun feat hf => h'.features feat (h.features feat hf)
  features_only := by
    intro feat hf
    rcases h'.features_only feat hf with hf | hf
    · exact (h.features_only feat hf).imp_right .inl
    · exact .inr (.inr (h.key ▸ hf))
  enables := by
    rintro hp (he | he)
    · exact h'.enabled (h.enables hp he)
    · exact h'.enables hp (h.key ▸ he)
  forwards := by
    rintro hp feat (hf | hf)
    · exact h'.features feat (h.forwards hp feat hf)
    · exact h'.forwards hp feat (h.key ▸ hf)

/-- The effect matters for the key of the dependency only. -/
theorem Told.mono (h : Told E p d d') (hp : p' → (E'.enables d.key ∨ ∃ feat, E'.forwards d.key feat) → p)
    (he : E.enables d.key ↔ E'.enables d.key) (hf : ∀ feat, E.forwards d.key feat ↔ E'.forwards d.key feat) :
    Told E' p' d d' where
  key := h.key
  enabled := h.enabled
  enabled_only := fun hd => (h.enabled_only hd).imp_right he.mp
  features := h.features
  features_only := fun feat hd => (h.features_only feat hd).imp_right (hf feat).mp
  enables := fun hp' hE => h.enables (hp hp' (.inl hE)) (he.mpr hE)
  forwards := fun hp' feat hE => h.forwards (hp hp' (.inr ⟨feat, hE⟩)) feat ((hf feat).mpr hE)

theorem told_forward (depname depfeat : List Char) (b : Bool) (d : PackageRef) :
    Told ⟨fun key => key = depname ∧ b = true, fun key feat => key = depname ∧ feat = depfeat⟩ True d
      (forward depname depfeat b d) := by
  unfold forward
  split
  · rename_i hkey
    constructor <;> simp +contextual [hkey]
  · rename_i hkey
    constructor <;> simp +contextual [hkey]

theorem told_enableDep (f : List Char) (d : PackageRef) :
    Told ⟨fun key => depPrefix ++ key = f, fun _ _ => False⟩ True d (enableDep f d) := by
  unfold enableDep
  split
  · rename_i hkey
    constructor <;> simp +contextual [hkey]
  · rename_i hkey
    constructor <;> simp +contextual [hkey]

end Effects

end Mrustc.Minicargo
