import Mrustc.Minicargo.FeatureClosure

/-! # Runs of `set_features` -/

namespace Mrustc.Minicargo

open PackageManifest

/-- Every cfg of the manifest can be evaluated. -/
def PackageManifest.WellFormed (host : Host) (m : PackageManifest) : Prop :=
  ∀ td ∈ m.targetDependencies, ∀ A, ∃ b, host.selects td.1 A = .ok b

variable {host : Host} {m m' m₁ m₂ m₃ : PackageManifest} {cb : PackageRef → PackageRef} {f : List Char}

theorem DepsRel.wellFormed {R : Option (List Char) → PackageRef → PackageRef → Prop} (h : DepsRel R m m')
    (hwf : m.WellFormed host) : m'.WellFormed host := by
  intro td' htd' A
  rcases List.mem_iff_getElem.mp htd' with ⟨i, hi, rfl⟩
  have hlen := h.target.length_eq
  have hget := h.target.get (i := i) (by omega) hi
  rw [List.get_eq_getElem, List.get_eq_getElem] at hget
  rw [hget.1]
  exact hwf _ (List.getElem_mem _) A

/-- What an activation does: the names `pulls` get active, and the dependencies are told `E`, all of it in the groups
that are selected for every set of features on the way. -/
structure Applied (host : Host) (m m' : PackageManifest) (pulls : List Char → Prop) (E : Effect) : Prop where
  features : m'.features = m.features
  defaultFeatures : m'.defaultFeatures = m.defaultFeatures
  isPrefix : m.activeFeatures <+: m'.activeFeatures
  mem : ∀ x, x ∈ m'.activeFeatures ↔ x ∈ m.activeFeatures ∨ pulls x
  deps : DepsRel (fun g => Told E (∀ A, (∀ x ∈ m.activeFeatures, x ∈ A) → (∀ x ∈ A, x ∈ m'.activeFeatures) →
    host.Selected A g)) m m'

theorem Applied.trans {P P' : List Char → Prop} {E E' : Effect} (h : Applied host m₁ m₂ P E)
    (h' : Applied host m₂ m₃ P' E') : Applied host m₁ m₃ (fun x => P x ∨ P' x) (E.union E') where
  features := h'.features.trans h.features
  defaultFeatures := h'.defaultFeatures.trans h.defaultFeatures
  isPrefix := h.isPrefix.trans h'.isPrefix
  mem := fun x => (h'.mem x).trans ((or_congr_left (h.mem x)).trans or_assoc)
  deps := by
    apply h.deps.comp _ h'.deps
    intro g d₁ d₂ d₃ h₁₂ h₂₃
    have h₁ : ∀ x ∈ m₁.activeFeatures, x ∈ m₂.activeFeatures := fun x hx => h.isPrefix.subset hx
    have h₂ : ∀ x ∈ m₂.activeFeatures, x ∈ m₃.activeFeatures := fun x hx => h'.isPrefix.subset hx
    apply Told.trans
    · exact h₁₂.mono (fun hp _ A hA hA' => hp A hA fun x hx => h₂ x (hA' x hx)) Iff.rfl fun _ => Iff.rfl
    · exact h₂₃.mono (fun hp _ A hA hA' => hp A (fun x hx => hA x (h₁ x hx)) hA') Iff.rfl fun _ => Iff.rfl

theorem Applied.congr {P P' : List Char → Prop} {E E' : Effect} (h : Applied host m m' P E) (hP : ∀ x, P x ↔ P' x)
    (he : ∀ key, E.enables key ↔ E'.enables key) (hf : ∀ key feat, E.forwards key feat ↔ E'.forwards key feat) :
    Applied host m m' P' E' where
  features := h.features
  defaultFeatures := h.defaultFeatures
  isPrefix := h.isPrefix
  mem := fun x => (h.mem x).trans (or_congr_right (hP x))
  deps := h.deps.mono fun _ d _ hd => hd.mono (fun hp _ => hp) (he d.key) (hf d.key)

def Effect.none : Effect := ⟨fun _ => False, fun _ _ => False⟩

theorem told_refl (p : Prop) (d : PackageRef) : Told Effect.none p d d :=
  ⟨rfl, id, .inl, fun _ h => h, fun _ h => .inl h, fun _ h => h.elim, fun _ _ h => h.elim⟩

theorem Applied.refl (host : Host) (m : PackageManifest) : Applied host m m (fun _ => False) Effect.none where
  features := rfl
  defaultFeatures := rfl
  isPrefix := List.prefix_rfl
  mem := by simp
  deps := DepsRel.refl (fun _ d => told_refl _ d) m

theorem mem_addFeature (m : PackageManifest) (name x : List Char) :
    x ∈ (m.addFeature name).activeFeatures ↔ x ∈ m.activeFeatures ∨ x = name := by
  unfold addFeature
  split
  · rename_i h
    exact ⟨.inl, fun hx => hx.elim id fun hx => hx ▸ h⟩
  · simp

theorem prefix_addFeature (m : PackageManifest) (name : List Char) :
    m.activeFeatures <+: (m.addFeature name).activeFeatures := by
  unfold addFeature
  split
  · exact List.prefix_rfl
  · exact List.prefix_append _ _

theorem deps_addFeature {R : Option (List Char) → PackageRef → PackageRef → Prop} (h : ∀ g d, R g d d)
    (m : PackageManifest) (name : List Char) : DepsRel R m (m.addFeature name) := by
  unfold addFeature
  split
  · exact DepsRel.refl h m
  · have hrefl := DepsRel.refl h m
    exact ⟨hrefl.plain, hrefl.target⟩

theorem table_addFeature (m : PackageManifest) (name : List Char) :
    (m.addFeature name).features = m.features ∧ (m.addFeature name).defaultFeatures = m.defaultFeatures := by
  unfold addFeature
  split <;> exact ⟨rfl, rfl⟩

theorem applied_addFeature (host : Host) (m : PackageManifest) (name : List Char) :
    Applied host m (m.addFeature name) (· = name) Effect.none where
  features := (table_addFeature m name).1
  defaultFeatures := (table_addFeature m name).2
  isPrefix := prefix_addFeature m name
  mem := mem_addFeature m name
  deps := deps_addFeature (fun _ d => told_refl _ d) m name

/-- The groups after a callback: the selected ones are told about it. -/
theorem iterGroups_rel {E : Effect} (hcb : ∀ d, Told E True d (cb d)) (A : List (List Char))
    {tds : List (List Char × Dependencies)} (hwf : ∀ td ∈ tds, ∃ b, host.selects td.1 A = .ok b) :
    ∃ tds', iterGroups host cb A tds = .ok tds' ∧ List.Forall₂ (fun td td' =>
      td'.1 = td.1 ∧ td.2.Rel (Told E (host.Selected A (some td.1))) td'.2) tds tds' := by
  induction tds with
  | nil => exact ⟨[], rfl, .nil⟩
  | cons td tds ih =>
    rcases List.forall_mem_cons.mp hwf with ⟨⟨b, hb⟩, hwf⟩
    rcases ih hwf with ⟨tds', htds', hrel⟩
    refine ⟨(td.1, if b = true then td.2.map cb else td.2) :: tds', ?_, .cons ⟨rfl, ?_⟩ hrel⟩
    · rw [iterGroups, hb, htds']
      rfl
    · cases b with
      | true => exact Dependencies.rel_map (fun d => (hcb d).mono (fun _ _ => trivial) Iff.rfl fun _ => Iff.rfl) td.2
      | false =>
        apply Dependencies.rel_refl fun d => Told.unselected _ d
        rw [Host.Selected, hb]
        simp

theorem applied_iterAllDeps {E : Effect} (hwf : m.WellFormed host) (hcb : ∀ d, Told E True d (cb d)) :
    ∃ m', m.iterAllDeps host cb = .ok m' ∧ Applied host m m' (fun _ => False) E := by
  rcases iterGroups_rel hcb m.activeFeatures fun td htd => hwf td htd _ with ⟨tds', htds', hrel⟩
  refine ⟨{ m with dependencies := m.dependencies.map cb, targetDependencies := tds' }, ?_, ?_⟩
  · rw [iterAllDeps, htds']
    rfl
  · refine ⟨rfl, rfl, List.prefix_rfl, by simp, ?_, ?_⟩
    · exact Dependencies.rel_map (fun d => (hcb d).mono (fun _ _ => trivial) Iff.rfl fun _ => Iff.rfl) m.dependencies
    · apply hrel.imp
      rintro td td' ⟨hcfg, hdeps⟩
      refine ⟨hcfg, hdeps.comp (S := fun a b => a = b) ?_ (Dependencies.rel_refl (fun _ => rfl) _)⟩
      rintro a b c hab rfl
      exact hab.mono (fun hp _ => hp _ (fun _ h => h) fun _ h => h) Iff.rfl fun _ => Iff.rfl

/-- What an entry of the table says. -/
def SubFeature.effect (sub : SubFeature) : Effect :=
  ⟨fun key => ∃ feat, sub = .strong key feat, fun key feat => sub = .strong key feat ∨ sub = .weak key feat⟩

theorem applied_applySub (hwf : m.WellFormed host) (sub : List Char) : ∃ m', m.applySub host sub = .ok m' ∧
    Applied host m m' (fun x => (SubFeature.parse sub).pulled = some x) (SubFeature.parse sub).effect := by
  unfold applySub
  cases SubFeature.parse sub with
  | feature name =>
    refine ⟨_, rfl, (applied_addFeature host m name).congr ?_ ?_ ?_⟩ <;>
      simp [SubFeature.pulled, SubFeature.effect, Effect.none, eq_comm]
  | strong dep feat =>
    have hadd := applied_addFeature host m dep
    rcases applied_iterAllDeps (hadd.deps.wellFormed hwf) (told_forward dep feat true) with ⟨m', hm', happ⟩
    refine ⟨m', hm', (hadd.trans happ).congr ?_ ?_ ?_⟩ <;>
      simp [SubFeature.pulled, SubFeature.effect, Effect.none, Effect.union, eq_comm]
  | weak dep feat =>
    rcases applied_iterAllDeps hwf (told_forward dep feat false) with ⟨m', hm', happ⟩
    refine ⟨m', hm', happ.congr ?_ ?_ ?_⟩ <;> simp [SubFeature.pulled, SubFeature.effect, eq_comm]

theorem applied_foldlM (hwf : m.WellFormed host) (subs : List (List Char)) :
    ∃ m', subs.foldlM (applySub host) m = .ok m' ∧ Applied host m m'
      (fun x => ∃ sub ∈ subs, (SubFeature.parse sub).pulled = some x)
      ⟨fun key => ∃ sub ∈ subs, (SubFeature.parse sub).effect.enables key,
        fun key feat => ∃ sub ∈ subs, (SubFeature.parse sub).effect.forwards key feat⟩ := by
  induction subs generalizing m with
  | nil => exact ⟨m, rfl, (Applied.refl host m).congr (by simp) (by simp [Effect.none]) (by simp [Effect.none])⟩
  | cons sub subs ih =>
    rcases applied_applySub hwf sub with ⟨m₁, h₁, happ₁⟩
    rcases ih (happ₁.deps.wellFormed hwf) with ⟨m', hm', happ⟩
    refine ⟨m', ?_, (happ₁.trans happ).congr ?_ ?_ ?_⟩
    · rw [List.foldlM_cons, h₁]
      exact hm'
    · simp
    · simp [Effect.union]
    · simp [Effect.union]

/-- What the table and the name say about an active feature. -/
def PackageManifest.effect (m : PackageManifest) (f : List Char) : Effect := ⟨m.Enables f, m.Forwards f⟩

theorem applied_activate (hwf : m.WellFormed host) (f : List Char) :
    ∃ m', m.activate host f = .ok m' ∧ Applied host m m' (m.Pulls f) (m.effect f) := by
  rcases applied_foldlM hwf (m.subFeatures f) with ⟨m₁, h₁, happ₁⟩
  rcases applied_iterAllDeps (happ₁.deps.wellFormed hwf) (told_enableDep f) with ⟨m', hm', happ⟩
  refine ⟨m', ?_, (happ₁.trans happ).congr ?_ ?_ ?_⟩
  · rw [activate, h₁]
    exact hm'
  · simp [Pulls]
  · intro key
    simp only [Effect.union, SubFeature.effect, PackageManifest.effect, Enables]
    exact or_comm
  · simp [Effect.union, SubFeature.effect, PackageManifest.effect, Forwards]

section Scan

variable {calls : List FeatureCall} {i : ℕ}

/-- A dependency of the group with a cfg has the key. -/
def PackageManifest.HasKey (m : PackageManifest) (key : List Char) : Option (List Char) → Prop
  | none => True
  | some cfg => ∃ td ∈ m.targetDependencies, td.1 = cfg ∧
      ∃ d, (d ∈ td.2.main ∨ d ∈ td.2.build ∨ d ∈ td.2.dev) ∧ d.key = key

/-- The group is selected for the least set of active features. -/
def PackageManifest.FinalSelected (m : PackageManifest) (host : Host) (calls : List FeatureCall)
    (g : Option (List Char)) : Prop :=
  ∃ B, (∀ f, f ∈ B ↔ m.Active calls f) ∧ host.Selected B g

def PackageManifest.Touches (m : PackageManifest) (f key : List Char) : Prop :=
  m.Enables f key ∨ ∃ feat, m.Forwards f key feat

/-- A group that is selected in the end is selected whenever a feature is active that says something about one of its
dependencies. -/
def PackageManifest.Steady (m : PackageManifest) (host : Host) (calls : List FeatureCall) : Prop :=
  ∀ g key A f, m.HasKey key g → m.FinalSelected host calls g → m.Arises calls A → f ∈ A → m.Touches f key →
    host.Selected A g

/-- What the features of a list say together. -/
def PackageManifest.effects (m : PackageManifest) (fs : List (List Char)) : Effect :=
  ⟨fun key => ∃ f ∈ fs, m.Enables f key, fun key feat => ∃ f ∈ fs, m.Forwards f key feat⟩

theorem effects_append (m : PackageManifest) (fs : List (List Char)) (f : List Char) :
    m.effects (fs ++ [f]) = (m.effects fs).union (m.effect f) := by
  simp [PackageManifest.effects, PackageManifest.effect, Effect.union, or_and_right, exists_or]

/-- The first `i` active features of `m'` have been scanned. -/
structure Scanned (host : Host) (m : PackageManifest) (calls : List FeatureCall) (m' : PackageManifest) (i : ℕ) :
    Prop where
  features : m'.features = m.features
  defaultFeatures : m'.defaultFeatures = m.defaultFeatures
  arises : m.Arises calls m'.activeFeatures
  closed : ∀ f ∈ m'.activeFeatures.take i, ∀ g, m.Pulls f g → g ∈ m'.activeFeatures
  deps : DepsRel (fun g d d' => m.HasKey d.key g ∧
    Told (m.effects (m'.activeFeatures.take i)) (m.Steady host calls ∧ m.FinalSelected host calls g) d d') m m'

theorem hasKey_refl (m : PackageManifest) : DepsRel (fun g d d' => m.HasKey d.key g ∧ d = d') m m := by
  have hlist {cfg : Option (List Char)} (l : List PackageRef) (h : ∀ d ∈ l, m.HasKey d.key cfg) :
      List.Forall₂ (fun d d' => m.HasKey d.key cfg ∧ d = d') l l :=
    List.forall₂_same.mpr fun d hd => ⟨h d hd, rfl⟩
  refine ⟨⟨hlist _ fun _ _ => trivial, hlist _ fun _ _ => trivial, hlist _ fun _ _ => trivial⟩,
    List.forall₂_same.mpr fun td htd => ⟨rfl, hlist _ ?_, hlist _ ?_, hlist _ ?_⟩⟩
  · exact fun d hd => ⟨td, htd, rfl, d, .inl hd, rfl⟩
  · exact fun d hd => ⟨td, htd, rfl, d, .inr (.inl hd), rfl⟩
  · exact fun d hd => ⟨td, htd, rfl, d, .inr (.inr hd), rfl⟩

theorem scanned_init (host : Host) (m : PackageManifest) (calls : List FeatureCall) (h : m.activeFeatures = []) :
    Scanned host m calls m 0 where
  features := rfl
  defaultFeatures := rfl
  arises := h ▸ .nil
  closed := by simp
  deps := by
    apply (hasKey_refl m).mono
    rintro g d _ ⟨hkey, rfl⟩
    refine ⟨hkey, (told_refl _ d).mono (fun hp _ => hp) ?_ ?_⟩ <;> simp [PackageManifest.effects, Effect.none]

theorem Scanned.wellFormed (h : Scanned host m calls m' i) (hwf : m.WellFormed host) : m'.WellFormed host :=
  h.deps.wellFormed hwf

theorem subFeatures_congr (h : m'.features = m.features) (f : List Char) : m'.subFeatures f = m.subFeatures f := by
  rw [subFeatures, subFeatures, h]

theorem pulls_congr (h : m'.features = m.features) (f g : List Char) : m'.Pulls f g ↔ m.Pulls f g := by
  rw [Pulls, Pulls, subFeatures_congr h]

/-- One round of the scan. -/
theorem Scanned.step (h : Scanned host m calls m₁ i) (hi : i < m₁.activeFeatures.length)
    (happ : Applied host m₁ m₂ (m₁.Pulls m₁.activeFeatures[i]) (m₁.effect m₁.activeFeatures[i])) :
    Scanned host m calls m₂ (i + 1) := by
  have hmem : m₁.activeFeatures[i] ∈ m₁.activeFeatures := List.getElem_mem hi
  have hpulls := pulls_congr h.features m₁.activeFeatures[i]
  have htake : m₂.activeFeatures.take (i + 1) = m₁.activeFeatures.take i ++ [m₁.activeFeatures[i]] := by
    rcases happ.isPrefix with ⟨new, hnew⟩
    rw [← hnew, List.take_append_of_le_length hi, List.take_succ_eq_append_getElem hi]
  have hmono : ∀ x ∈ m₁.activeFeatures, x ∈ m₂.activeFeatures := fun x hx => happ.isPrefix.subset hx
  have harises (A : List (List Char)) (hA : ∀ x ∈ m₁.activeFeatures, x ∈ A)
      (hA' : ∀ x ∈ A, x ∈ m₂.activeFeatures) : m.Arises calls A :=
    h.arises.between hmem hA fun x hx => ((happ.mem x).mp (hA' x hx)).imp_right (hpulls x).mp
  have heffect : m₁.effect m₁.activeFeatures[i] = m.effect m₁.activeFeatures[i] := by
    rw [PackageManifest.effect, PackageManifest.effect]
    unfold Enables Forwards
    rw [subFeatures_congr h.features]
  constructor
  · exact happ.features.trans h.features
  · exact happ.defaultFeatures.trans h.defaultFeatures
  · exact harises _ hmono fun _ hx => hx
  · intro f hf g hg
    rw [htake, List.mem_append, List.mem_singleton] at hf
    rcases hf with hf | rfl
    · exact hmono g (h.closed f hf g hg)
    · exact (happ.mem g).mpr (.inr ((hpulls g).mpr hg))
  · apply h.deps.comp _ happ.deps
    rintro g d d₁ d₂ ⟨hkey, hd⟩ hd₁
    rw [heffect] at hd₁
    have hstep : Told (m.effect m₁.activeFeatures[i]) (m.Steady host calls ∧ m.FinalSelected host calls g) d₁ d₂ := by
      apply hd₁.mono _ Iff.rfl fun _ => Iff.rfl
      rintro ⟨hsteady, hfinal⟩ htouch A hA hA'
      rw [hd.key] at htouch
      exact hsteady g d.key A _ hkey hfinal (harises A hA hA') (hA _ hmem) htouch
    rw [htake, effects_append]
    exact ⟨hkey, hd.trans hstep⟩

theorem Scanned.activateFrom (hwf : m.WellFormed host) (h : Scanned host m calls m₁ i)
    (hi : i ≤ m₁.activeFeatures.length) : ∃ m₂, m₁.activateFrom host i = .ok m₂ ∧
      m₁.activeFeatures <+: m₂.activeFeatures ∧ Scanned host m calls m₂ m₂.activeFeatures.length := by
  fun_induction PackageManifest.activateFrom host m₁ i with
  | case1 m₁ i hlt e he =>
    rcases applied_activate (h.wellFormed hwf) m₁.activeFeatures[i] with ⟨m₂, hm₂, -⟩
    rw [hm₂] at he
    cases he
  | case2 m₁ i hlt m₂ hm₂ ih =>
    rcases applied_activate (h.wellFormed hwf) m₁.activeFeatures[i] with ⟨m₂', hm₂', happ⟩
    obtain rfl : m₂ = m₂' := Except.ok.inj (hm₂.symm.trans hm₂')
    have hle := happ.isPrefix.length_le
    rcases ih (h.step hlt happ) (by omega) with ⟨m₃, hm₃, hpre, hscan⟩
    exact ⟨m₃, hm₃, happ.isPrefix.trans hpre, hscan⟩
  | case3 m₁ i hge =>
    obtain rfl : i = m₁.activeFeatures.length := by omega
    exact ⟨m₁, rfl, List.prefix_rfl, h⟩

theorem mem_foldl_addFeature (names : List (List Char)) (m : PackageManifest) (x : List Char) :
    x ∈ (names.foldl addFeature m).activeFeatures ↔ x ∈ m.activeFeatures ∨ x ∈ names := by
  induction names generalizing m with
  | nil => simp
  | cons name names ih => rw [List.foldl_cons, ih, mem_addFeature, List.mem_cons, or_assoc]

theorem prefix_foldl_addFeature (names : List (List Char)) (m : PackageManifest) :
    m.activeFeatures <+: (names.foldl addFeature m).activeFeatures := by
  induction names generalizing m with
  | nil => exact List.prefix_rfl
  | cons name names ih => exact (prefix_addFeature m name).trans (ih _)

theorem same_foldl_addFeature (names : List (List Char)) (m : PackageManifest) :
    (names.foldl addFeature m).features = m.features ∧
      (names.foldl addFeature m).defaultFeatures = m.defaultFeatures ∧
        DepsRel (fun _ d d' => d = d') m (names.foldl addFeature m) := by
  induction names generalizing m with
  | nil => exact ⟨rfl, rfl, DepsRel.refl (fun _ _ => rfl) m⟩
  | cons name names ih =>
    rcases ih (m.addFeature name) with ⟨hf, hd, hdeps⟩
    have htable := table_addFeature m name
    exact ⟨hf.trans htable.1, hd.trans htable.2,
      (deps_addFeature (fun _ _ => rfl) m name).comp (fun _ _ _ _ hab hbc => hab.trans hbc) hdeps⟩

/-- The names that a call asks for are added before the scan. -/
theorem Scanned.asked {names : List (List Char)} {call : FeatureCall}
    (h : Scanned host m calls m₁ m₁.activeFeatures.length) (hc : call ∈ calls)
    (hnames : ∀ f, f ∈ names ↔ call.Asks m f) :
    Scanned host m calls (names.foldl addFeature m₁) m₁.activeFeatures.length := by
  rcases same_foldl_addFeature names m₁ with ⟨hf, hd, hdeps⟩
  have hpre := prefix_foldl_addFeature names m₁
  have htake : (names.foldl addFeature m₁).activeFeatures.take m₁.activeFeatures.length = m₁.activeFeatures :=
    (List.prefix_iff_eq_take.mp hpre).symm
  constructor
  · exact hf.trans h.features
  · exact hd.trans h.defaultFeatures
  · apply Arises.call h.arises hc
    intro f
    rw [mem_foldl_addFeature, hnames]
  · intro f hf g hg
    rw [htake] at hf
    exact hpre.subset (h.closed f (by rwa [List.take_length]) g hg)
  · rw [htake]
    have hold := h.deps
    rw [List.take_length] at hold
    exact hold.comp (S := fun _ a b => a = b) (fun g a b c hab hbc => hbc ▸ hab) hdeps

theorem Scanned.setFeatures {call : FeatureCall} (hwf : m.WellFormed host)
    (h : Scanned host m calls m₁ m₁.activeFeatures.length) (hc : call ∈ calls) :
    ∃ m₂, m₁.setFeatures host call.features call.enableDefault = .ok m₂ ∧
      m₁.activeFeatures <+: m₂.activeFeatures ∧ (∀ f, call.Asks m f → f ∈ m₂.activeFeatures) ∧
        Scanned host m calls m₂ m₂.activeFeatures.length := by
  have hasked : ∃ names : List (List Char), (∀ f, f ∈ names ↔ call.Asks m f) ∧
      m₁.setFeatures host call.features call.enableDefault =
        (names.foldl addFeature m₁).activateFrom host m₁.activeFeatures.length := by
    rw [PackageManifest.setFeatures, h.defaultFeatures]
    cases hdef : call.enableDefault with
    | true =>
      refine ⟨m.defaultFeatures ++ call.features, fun f => ?_, by rw [List.foldl_append]; rfl⟩
      simp [FeatureCall.Asks, hdef, or_comm]
    | false =>
      refine ⟨call.features, fun f => ?_, rfl⟩
      simp [FeatureCall.Asks, hdef]
  rcases hasked with ⟨names, hnames, heq⟩
  have hpre := prefix_foldl_addFeature names m₁
  rcases (h.asked hc hnames).activateFrom hwf hpre.length_le with ⟨m₂, hm₂, hpre₂, hscan⟩
  refine ⟨m₂, heq.trans hm₂, hpre.trans hpre₂, fun f hf => hpre₂.subset ?_, hscan⟩
  exact (mem_foldl_addFeature names m₁ f).mpr (.inr ((hnames f).mpr hf))

/-- All calls: the features that they ask for are active and have been scanned. -/
theorem scanned_setAllFeatures (calls : List FeatureCall) (hwf : m.WellFormed host)
    (hm : m.activeFeatures = []) :
    ∃ m', m.setAllFeatures host calls = .ok m' ∧ Scanned host m calls m' m'.activeFeatures.length ∧
      ∀ call ∈ calls, ∀ f, call.Asks m f → f ∈ m'.activeFeatures := by
  have hrun : ∀ (rest : List FeatureCall) (m₁ : PackageManifest), (∀ call ∈ rest, call ∈ calls) →
      Scanned host m calls m₁ m₁.activeFeatures.length → ∃ m', m₁.setAllFeatures host rest = .ok m' ∧
        m₁.activeFeatures <+: m'.activeFeatures ∧ Scanned host m calls m' m'.activeFeatures.length ∧
          ∀ call ∈ rest, ∀ f, call.Asks m f → f ∈ m'.activeFeatures := by
    intro rest
    induction rest with
    | nil => exact fun m₁ _ h => ⟨m₁, rfl, List.prefix_rfl, h, by simp⟩
    | cons call rest ih =>
      intro m₁ hrest h
      rcases List.forall_mem_cons.mp hrest with ⟨hcall, hrest⟩
      rcases h.setFeatures hwf hcall with ⟨m₂, hm₂, hpre, hasks, hscan⟩
      rcases ih m₂ hrest hscan with ⟨m', hm', hpre', hscan', hasks'⟩
      refine ⟨m', ?_, hpre.trans hpre', hscan', ?_⟩
      · rw [setAllFeatures, List.foldlM_cons, hm₂]
        exact hm'
      · exact List.forall_mem_cons.mpr ⟨fun f hf => hpre'.subset (hasks f hf), hasks'⟩
  have hinit := scanned_init host m calls hm
  rcases hrun calls m (fun _ h => h) (by rw [hm]; exact hinit) with ⟨m', hm', -, hscan, hasks⟩
  exact ⟨m', hm', hscan, hasks⟩

/-- The code reaches what the table reaches, without a meaning for the name of the default features. -/
theorem Scanned.mem_iff (h : Scanned host m calls m' m'.activeFeatures.length)
    (hasks : ∀ call ∈ calls, ∀ f, call.Asks m f → f ∈ m'.activeFeatures) (f : List Char) :
    f ∈ m'.activeFeatures ↔ m.Reached calls f := by
  constructor
  · exact h.arises.reached f
  · intro hf
    induction hf with
    | asked hc hf => exact hasks _ hc _ hf
    | table _ hg ih => exact h.closed _ (by rwa [List.take_length]) _ hg

end Scan

/-- What the calls of `set_features` should make of a manifest: the least set of active features, and the dependencies
of the groups that are selected for it. -/
structure Meets (host : Host) (m : PackageManifest) (calls : List FeatureCall) (m' : PackageManifest) : Prop where
  active : IsLeast {S | m.Closed calls S} {f | f ∈ m'.activeFeatures}
  deps : DepsRel (fun g d d' => host.Selected m'.activeFeatures g → d'.key = d.key ∧
    (d'.optionalEnabled = true ↔ d.optionalEnabled = true ∨ ∃ f, m.Active calls f ∧ m.Enables f d.key) ∧
    ∀ feat, feat ∈ d'.features ↔ feat ∈ d.features ∨ ∃ f, m.Active calls f ∧ m.Forwards f d.key feat) m m'

/-- The feature named default is not reached, or else the default features are. -/
def PackageManifest.NamesDefault (m : PackageManifest) (calls : List FeatureCall) : Prop :=
  m.Reached calls defaultName → ∀ f ∈ m.defaultFeatures, m.Reached calls f

/-- The same calls in another order, of the same manifest with the entries of its table in another order. -/
structure Reordered (m : PackageManifest) (calls : List FeatureCall) (m' : PackageManifest)
    (calls' : List FeatureCall) : Prop where
  manifest : ∃ table, m' = { m with features := table }
  table : ∀ f, (m'.subFeatures f).Perm (m.subFeatures f)
  calls : ∃ mid, calls'.Perm mid ∧ List.Forall₂ (fun call call' =>
    call.features.Perm call'.features ∧ call.enableDefault = call'.enableDefault) mid calls

section Exact

variable {calls calls' : List FeatureCall}

theorem active_eq_reached (h : m.NamesDefault calls) (f : List Char) : m.Active calls f ↔ m.Reached calls f := by
  constructor
  · intro hf
    induction hf with
    | asked hc hf => exact .asked hc hf
    | named _ hf ih => exact h ih _ hf
    | table _ hg ih => exact .table ih hg
  · exact Reached.active

/-- The code keeps to the least set in the order it is given. -/
theorem meets_of_namesDefault (hwf : m.WellFormed host) (hm : m.activeFeatures = [])
    (hsteady : m.Steady host calls) (hdef : m.NamesDefault calls) :
    ∃ m', m.setAllFeatures host calls = .ok m' ∧ Meets host m calls m' := by
  rcases scanned_setAllFeatures _ hwf hm with ⟨m', hm', hscan, hasks⟩
  have hactive (f : List Char) : f ∈ m'.activeFeatures ↔ m.Active calls f :=
    (hscan.mem_iff hasks f).trans (active_eq_reached hdef f).symm
  refine ⟨m', hm', ?_, ?_⟩
  · have heq : {f | f ∈ m'.activeFeatures} = {f | m.Active calls f} := by
      ext f
      exact hactive f
    rw [heq]
    exact m.isLeast_active calls
  · apply hscan.deps.mono
    rintro g d d' ⟨-, hd⟩ hsel
    have htold : m.Steady host calls ∧ m.FinalSelected host calls g := ⟨hsteady, _, hactive, hsel⟩
    rw [List.take_length] at hd
    refine ⟨hd.key, ⟨fun he => ?_, fun he => ?_⟩, fun feat => ⟨fun hf => ?_, fun hf => ?_⟩⟩
    · rcases hd.enabled_only he with he | ⟨f, hf, he⟩
      · exact .inl he
      · exact .inr ⟨f, (hactive f).mp hf, he⟩
    · rcases he with he | ⟨f, hf, he⟩
      · exact hd.enabled he
      · exact hd.enables htold ⟨f, (hactive f).mpr hf, he⟩
    · rcases hd.features_only feat hf with hf | ⟨f, hf, he⟩
      · exact .inl hf
      · exact .inr ⟨f, (hactive f).mp hf, he⟩
    · rcases hf with hf | ⟨f, hf, he⟩
      · exact hd.features feat hf
      · exact hd.forwards htold feat ⟨f, (hactive f).mpr hf, he⟩

/-- A least set that has the default features whenever it has their name is reached by the table alone. -/
theorem namesDefault_of_meets (hwf : m.WellFormed host) (hm : m.activeFeatures = [])
    (h : ∃ m', m.setAllFeatures host calls = .ok m' ∧ Meets host m calls m') : m.NamesDefault calls := by
  rcases h with ⟨m', hm', hmeets⟩
  rcases scanned_setAllFeatures calls hwf hm with ⟨m₁, hm₁, hscan, hasks⟩
  obtain rfl : m' = m₁ := Except.ok.inj (hm'.symm.trans hm₁)
  intro hdef f hf
  rw [← hscan.mem_iff hasks] at hdef ⊢
  exact hmeets.active.1.named hdef f hf

/-- Two manifests with calls that mean the same. -/
structure Alike (m : PackageManifest) (calls : List FeatureCall) (m' : PackageManifest) (calls' : List FeatureCall) :
    Prop where
  manifest : ∃ table, m' = { m with features := table }
  asks : ∀ call' ∈ calls', ∃ call ∈ calls, ∀ f, call'.Asks m' f ↔ call.Asks m f
  sub : ∀ f sub, sub ∈ m'.subFeatures f ↔ sub ∈ m.subFeatures f

theorem Reordered.alike (h : Reordered m calls m' calls') : Alike m calls m' calls' where
  manifest := h.manifest
  asks := by
    rcases h.manifest with ⟨table, rfl⟩
    rcases h.calls with ⟨mid, hperm, hrel⟩
    intro call' hcall'
    rcases List.mem_iff_getElem.mp (hperm.mem_iff.mp hcall') with ⟨i, hi, rfl⟩
    have hlen := hrel.length_eq
    have hget := hrel.get hi (by omega)
    simp only [List.get_eq_getElem] at hget
    refine ⟨calls[i], List.getElem_mem _, fun f => ?_⟩
    rw [FeatureCall.Asks, FeatureCall.Asks]
    exact or_congr hget.1.mem_iff (and_congr_left' (by rw [hget.2]))
  sub := fun f sub => (h.table f).mem_iff

theorem Reordered.alike_symm (h : Reordered m calls m' calls') : Alike m' calls' m calls where
  manifest := by
    rcases h.manifest with ⟨table, rfl⟩
    exact ⟨m.features, rfl⟩
  asks := by
    rcases h.manifest with ⟨table, rfl⟩
    rcases h.calls with ⟨mid, hperm, hrel⟩
    intro call hcall
    rcases List.mem_iff_getElem.mp hcall with ⟨i, hi, rfl⟩
    have hlen := hrel.length_eq
    have hget := hrel.get (i := i) (by omega) hi
    simp only [List.get_eq_getElem] at hget
    refine ⟨mid[i], hperm.mem_iff.mpr (List.getElem_mem _), fun f => ?_⟩
    rw [FeatureCall.Asks, FeatureCall.Asks]
    exact or_congr hget.1.mem_iff.symm (and_congr_left' (by rw [hget.2]))
  sub := fun f sub => (h.table f).symm.mem_iff

namespace Alike

theorem pulls (h : Alike m calls m' calls') (f g : List Char) : m'.Pulls f g ↔ m.Pulls f g := by
  unfold Pulls
  simp only [h.sub]

theorem enables (h : Alike m calls m' calls') (f key : List Char) : m'.Enables f key ↔ m.Enables f key := by
  unfold Enables
  simp only [h.sub]

theorem forwards (h : Alike m calls m' calls') (f key feat : List Char) :
    m'.Forwards f key feat ↔ m.Forwards f key feat := by
  unfold Forwards
  simp only [h.sub]

theorem defaultFeatures (h : Alike m calls m' calls') : m'.defaultFeatures = m.defaultFeatures := by
  rcases h.manifest with ⟨table, rfl⟩
  rfl

theorem reached (h : Alike m calls m' calls') {f : List Char} (hf : m'.Reached calls' f) : m.Reached calls f := by
  induction hf with
  | asked hc hf =>
    rcases h.asks _ hc with ⟨call, hcall, hiff⟩
    exact .asked hcall ((hiff _).mp hf)
  | table _ hg ih => exact .table ih ((h.pulls _ _).mp hg)

theorem active (h : Alike m calls m' calls') {f : List Char} (hf : m'.Active calls' f) : m.Active calls f := by
  induction hf with
  | asked hc hf =>
    rcases h.asks _ hc with ⟨call, hcall, hiff⟩
    exact .asked hcall ((hiff _).mp hf)
  | named _ hf ih => exact .named ih (h.defaultFeatures ▸ hf)
  | table _ hg ih => exact .table ih ((h.pulls _ _).mp hg)

theorem arises (h : Alike m calls m' calls') {A : List (List Char)} (hA : m'.Arises calls' A) : m.Arises calls A := by
  induction hA with
  | nil => exact .nil
  | call _ hc hB ih =>
    rcases h.asks _ hc with ⟨call, hcall, hiff⟩
    exact .call ih hcall fun f => (hB f).trans (or_congr_right (hiff f))
  | pull _ hf hg hB ih => exact .pull ih hf ((h.pulls _ _).mp hg) hB

theorem hasKey (h : Alike m calls m' calls') (key : List Char) (g : Option (List Char)) :
    m'.HasKey key g ↔ m.HasKey key g := by
  rcases h.manifest with ⟨table, rfl⟩
  exact Iff.rfl

end Alike

variable {g : Option (List Char)}

theorem Reordered.active_iff (h : Reordered m calls m' calls') (f : List Char) :
    m'.Active calls' f ↔ m.Active calls f := ⟨h.alike.active, h.alike_symm.active⟩

theorem Reordered.steady (h : Reordered m calls m' calls') (hs : m.Steady host calls) : m'.Steady host calls' := by
  intro g key A f hkey hfinal hA hf htouch
  apply hs g key A f ((h.alike.hasKey key g).mp hkey) _ (h.alike.arises hA) hf
  · exact htouch.imp (h.alike.enables f key).mp (Exists.imp fun feat => (h.alike.forwards f key feat).mp)
  · exact hfinal.imp fun B hB => ⟨fun f => (hB.1 f).trans (h.active_iff f), hB.2⟩

theorem Reordered.namesDefault (h : Reordered m calls m' calls') (hd : m.NamesDefault calls) :
    m'.NamesDefault calls' := by
  intro hdef f hf
  rw [h.alike.defaultFeatures] at hf
  exact h.alike_symm.reached (hd (h.alike.reached hdef) f hf)

/-- What is right for one order is right for the other. -/
theorem Reordered.meets (h : Reordered m calls m' calls') (hm : Meets host m' calls' m₁) : Meets host m calls m₁ where
  active := by
    have hset := hm.active.unique (m'.isLeast_active calls')
    rw [hset]
    have heq : {f | m'.Active calls' f} = {f | m.Active calls f} := by
      ext f
      exact h.active_iff f
    rw [heq]
    exact m.isLeast_active calls
  deps := by
    have hdeps := hm.deps
    simp only [h.active_iff, h.alike.enables, h.alike.forwards] at hdeps
    rcases h.manifest with ⟨table, rfl⟩
    exact ⟨hdeps.plain, hdeps.target⟩

theorem Reordered.refl (m : PackageManifest) (calls : List FeatureCall) : Reordered m calls m calls :=
  ⟨⟨m.features, rfl⟩, fun _ => List.Perm.refl _, calls, List.Perm.refl _,
    List.forall₂_same.mpr fun _ _ => ⟨List.Perm.refl _, rfl⟩⟩

/-- A package whose default features are `std`, which has no entry of its own. -/
def stdByDefault : PackageManifest where
  dependencies := ⟨[], [], []⟩
  targetDependencies := []
  features := []
  defaultFeatures := [['s', 't', 'd']]
  activeFeatures := []
  dependenciesLoaded := false

def plainHost : Host := ⟨⟨[], []⟩, []⟩

theorem stdByDefault_pulls (f g : List Char) : ¬stdByDefault.Pulls f g := by
  simp [Pulls, subFeatures, stdByDefault]

end Exact

end Mrustc.Minicargo
