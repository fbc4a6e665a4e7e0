import Mrustc.Minicargo.Cfg

/-! # Activating the features of a package

`PackageManifest::set_features` scans the active features while it adds to them, and tells the dependencies of the
groups whose cfg holds at that moment what an entry of the feature table says about them.
-/

namespace Mrustc.Minicargo

/-- A dependency, as far as features reach it. -/
structure PackageRef where
  key : List Char
  features : List (List Char)
  optionalEnabled : Bool
  deriving DecidableEq, Repr

structure Dependencies where
  main : List PackageRef
  build : List PackageRef
  dev : List PackageRef
  deriving DecidableEq, Repr

structure PackageManifest where
  dependencies : Dependencies
  targetDependencies : List (List Char × Dependencies)
  features : List (List Char × List (List Char))
  defaultFeatures : List (List Char)
  activeFeatures : List (List Char)
  dependenciesLoaded : Bool
  deriving DecidableEq, Repr

/-- The target, by its cfg options and its name. -/
structure Host where
  checker : CfgChecker
  targetName : List Char

def Host.selects (host : Host) (cfg : List Char) (features : List (List Char)) : Except CfgError Bool :=
  if cfg.take 4 = "cfg(".toList then host.checker.check cfg features else .ok (cfg = host.targetName)

def Dependencies.map (cb : PackageRef → PackageRef) (dg : Dependencies) : Dependencies :=
  ⟨dg.main.map cb, dg.build.map cb, dg.dev.map cb⟩

/-- An entry of the feature table: a feature, or a feature of a dependency. -/
inductive SubFeature
  | feature (name : List Char)
  | strong (dep feat : List Char)
  | weak (dep feat : List Char)
  deriving DecidableEq, Repr

def SubFeature.parse (sub : List Char) : SubFeature :=
  match sub.dropWhile (· ≠ '/') with
  | [] => .feature sub
  | _ :: feat =>
    let dep := sub.takeWhile (· ≠ '/')
    if dep.getLast? = some '?' then .weak dep.dropLast feat else .strong dep feat

/-- The name that `add_feature` gets for an entry. -/
def SubFeature.pulled : SubFeature → Option (List Char)
  | .feature name => some name
  | .strong dep _ => some dep
  | .weak _ _ => none

def depPrefix : List Char := ['d', 'e', 'p', ':']

def forward (depname depfeat : List Char) (enableOptional : Bool) (dep : PackageRef) : PackageRef :=
  if dep.key = depname then
    { dep with
      optionalEnabled := dep.optionalEnabled || enableOptional
      features := dep.features ++ [depfeat] }
  else dep

def enableDep (featname : List Char) (dep : PackageRef) : PackageRef :=
  if depPrefix ++ dep.key = featname then { dep with optionalEnabled := true } else dep

namespace PackageManifest

/-- The `[features]` section of a manifest, and what `load_from_toml` adds for the dependencies. -/
def fillFeature (self : PackageManifest) (name : List Char) (list : List (List Char)) : PackageManifest :=
  if name = "default".toList then { self with defaultFeatures := self.defaultFeatures ++ list }
  else { self with features := append self.features }
where
  append : List (List Char × List (List Char)) → List (List Char × List (List Char))
    | [] => [(name, list)]
    | entry :: table => if entry.1 = name then (name, entry.2 ++ list) :: table else entry :: append table

def Dependencies.all (dg : Dependencies) : List PackageRef := dg.main ++ dg.build ++ dg.dev

/-- Every dependency is a feature that enables it. -/
def addImplicitFeatures (self : PackageManifest) : PackageManifest :=
  let deps := Dependencies.all self.dependencies ++ self.targetDependencies.flatMap fun td => Dependencies.all td.2
  { self with
    features := deps.foldl (fun table dep => fillFeature.append dep.key [depPrefix ++ dep.key] table) self.features }

/-- The target groups after a callback on those whose cfg holds. -/
def iterGroups (host : Host) (cb : PackageRef → PackageRef) (features : List (List Char)) :
    List (List Char × Dependencies) → Except CfgError (List (List Char × Dependencies))
  | [] => .ok []
  | td :: tds => do
    let success ← host.selects td.1 features
    let tds ← iterGroups host cb features tds
    .ok ((td.1, if success then td.2.map cb else td.2) :: tds)

/-- `iter_dep_groups`, with a callback that changes the dependencies. -/
def iterAllDeps (host : Host) (cb : PackageRef → PackageRef) (self : PackageManifest) :
    Except CfgError PackageManifest := do
  let groups ← iterGroups host cb self.activeFeatures self.targetDependencies
  .ok { self with dependencies := self.dependencies.map cb, targetDependencies := groups }

def addFeature (self : PackageManifest) (feat : List Char) : PackageManifest :=
  if feat ∈ self.activeFeatures then self
  else { self with activeFeatures := self.activeFeatures ++ [feat], dependenciesLoaded := false }

def applySub (host : Host) (self : PackageManifest) (sub : List Char) : Except CfgError PackageManifest :=
  match SubFeature.parse sub with
  | .feature name => .ok (self.addFeature name)
  | .strong dep feat => (self.addFeature dep).iterAllDeps host (forward dep feat true)
  | .weak dep feat => self.iterAllDeps host (forward dep feat false)

/-- The entries of the table for a feature. -/
def subFeatures (self : PackageManifest) (featname : List Char) : List (List Char) :=
  (self.features.lookup featname).getD []

/-- What the table says about an active feature, and the dependency that it stands for. -/
def activate (host : Host) (self : PackageManifest) (featname : List Char) : Except CfgError PackageManifest := do
  let self ← (self.subFeatures featname).foldlM (applySub host) self
  self.iterAllDeps host (enableDep featname)

/-- The names that the table can make active and that are not. -/
def unseen (self : PackageManifest) : List (List Char) :=
  (self.features.flatMap fun entry => entry.2.filterMap fun sub => (SubFeature.parse sub).pulled).filter
    (· ∉ self.activeFeatures)

end PackageManifest

open PackageManifest

variable {host : Host} {m m' : PackageManifest} {cb : PackageRef → PackageRef} {f : List Char}

theorem bind_eq_ok {ε α β : Type} {x : Except ε α} {f : α → Except ε β} {b : β} :
    x >>= f = .ok b ↔ ∃ a, x = .ok a ∧ f a = .ok b := by
  cases x with
  | error e => simp [bind, Except.bind]
  | ok a => simp [bind, Except.bind]

theorem iterAllDeps_eq_ok (h : m.iterAllDeps host cb = .ok m') :
    ∃ groups, iterGroups host cb m.activeFeatures m.targetDependencies = .ok groups ∧
      m' = { m with dependencies := m.dependencies.map cb, targetDependencies := groups } := by
  rcases bind_eq_ok.mp h with ⟨groups, hg, hm⟩
  exact ⟨groups, hg, (Except.ok.inj hm).symm⟩

theorem mem_subFeatures {sub : List Char} (h : sub ∈ m.subFeatures f) :
    ∃ subs, (f, subs) ∈ m.features ∧ sub ∈ subs := by
  unfold subFeatures at h
  cases hl : m.features.lookup f with
  | none => simp [hl] at h
  | some subs =>
    rcases List.lookup_eq_some_iff.mp hl with ⟨l₁, l₂, heq, -⟩
    exact ⟨subs, by simp [heq], by simpa [hl] using h⟩

/-- How many features there are to scan does not grow. -/
def Bounded (m m' : PackageManifest) : Prop :=
  m'.features = m.features ∧
    m'.unseen.length + m'.activeFeatures.length ≤ m.unseen.length + m.activeFeatures.length

theorem Bounded.refl (m : PackageManifest) : Bounded m m := ⟨rfl, le_rfl⟩

theorem Bounded.trans {m₁ m₂ m₃ : PackageManifest} (h : Bounded m₁ m₂) (h' : Bounded m₂ m₃) : Bounded m₁ m₃ :=
  ⟨h'.1.trans h.1, h'.2.trans h.2⟩

theorem bounded_iterAllDeps (h : m.iterAllDeps host cb = .ok m') : Bounded m m' := by
  rcases iterAllDeps_eq_ok h with ⟨groups, -, rfl⟩
  exact ⟨rfl, le_rfl⟩

theorem bounded_addFeature {sub name : List Char} (hs : sub ∈ m.subFeatures f)
    (hp : (SubFeature.parse sub).pulled = some name) : Bounded m (m.addFeature name) := by
  unfold addFeature
  split
  · exact Bounded.refl m
  · rename_i hname
    refine ⟨rfl, ?_⟩
    have hmem : name ∈ m.unseen := by
      simp only [unseen, List.mem_filter, List.mem_flatMap, List.mem_filterMap]
      rcases mem_subFeatures hs with ⟨subs, hf, hs⟩
      exact ⟨⟨(f, subs), hf, sub, hs, hp⟩, by simpa using hname⟩
    have hlt : (m.unseen.filter (· ≠ name)).length < m.unseen.length :=
      List.length_filter_lt_length_iff_exists.mpr ⟨name, hmem, by simp⟩
    have heq : ({ m with activeFeatures := m.activeFeatures ++ [name], dependenciesLoaded := false } :
        PackageManifest).unseen = m.unseen.filter (· ≠ name) := by
      simp only [unseen, List.filter_filter]
      congr 1
      funext x
      simp [and_comm, not_or]
    rw [heq]
    simp only [List.length_append, List.length_singleton]
    omega

theorem bounded_applySub {sub : List Char} (hs : sub ∈ m.subFeatures f) (h : m.applySub host sub = .ok m') :
    Bounded m m' := by
  unfold applySub at h
  split at h
  · rename_i name hp
    cases h
    exact bounded_addFeature hs (by rw [hp]; rfl)
  · rename_i dep feat hp
    exact (bounded_addFeature hs (by rw [hp]; rfl)).trans (bounded_iterAllDeps h)
  · exact bounded_iterAllDeps h

theorem bounded_foldlM {subs : List (List Char)} (hs : ∀ sub ∈ subs, sub ∈ m.subFeatures f)
    (h : subs.foldlM (applySub host) m = .ok m') : Bounded m m' := by
  induction subs generalizing m with
  | nil =>
    cases h
    exact Bounded.refl _
  | cons sub subs ih =>
    rw [List.foldlM_cons] at h
    rcases bind_eq_ok.mp h with ⟨m₁, h₁, h₂⟩
    rcases List.forall_mem_cons.mp hs with ⟨hsub, hs⟩
    have hb := bounded_applySub hsub h₁
    have heq : m₁.subFeatures f = m.subFeatures f := by rw [subFeatures, subFeatures, hb.1]
    exact hb.trans (ih (by rwa [heq]) h₂)

theorem bounded_activate (h : m.activate host f = .ok m') : Bounded m m' := by
  rcases bind_eq_ok.mp h with ⟨m₁, h₁, h₂⟩
  exact (bounded_foldlM (fun _ hs => hs) h₁).trans (bounded_iterAllDeps h₂)

namespace PackageManifest

/-- The scan of the active features from the `i`th on, which ends because the table has finitely many names. -/
def activateFrom (host : Host) (self : PackageManifest) (i : ℕ) : Except CfgError PackageManifest :=
  if hi : i < self.activeFeatures.length then
    match h : self.activate host self.activeFeatures[i] with
    | .error e => .error e
    | .ok self => activateFrom host self (i + 1)
  else .ok self
termination_by self.unseen.length + self.activeFeatures.length - i
decreasing_by
  have hb := (bounded_activate h).2
  omega

def setFeatures (host : Host) (self : PackageManifest) (features : List (List Char)) (enableDefault : Bool) :
    Except CfgError PackageManifest :=
  let start := self.activeFeatures.length
  let self := if enableDefault then self.defaultFeatures.foldl addFeature self else self
  let self := features.foldl addFeature self
  self.activateFrom host start

end PackageManifest

/-- The arguments of a call of `set_features`. -/
structure FeatureCall where
  features : List (List Char)
  enableDefault : Bool

def PackageManifest.setAllFeatures (host : Host) (self : PackageManifest) (calls : List FeatureCall) :
    Except CfgError PackageManifest :=
  calls.foldlM (fun self call => self.setFeatures host call.features call.enableDefault) self

end Mrustc.Minicargo
