import Mrustc.Comparison.Common
import Mrustc.Hir.Path
import Mrustc.Trace.Run

/-! # Simple paths as they are stored

The crate name and the components of a path share one vector, and the root of the current crate is the null
vector. A run applies the operations of the class one after another, each to what the one before it left.
-/

namespace Mrustc.Hir
open Mrustc.Comparison Mrustc.Trace

/-- A vector behind a single pointer. `none` is the null pointer, which is what `empty()` asks for. -/
abbrev ThinVector (α : Type) := Option (List α)

namespace ThinVector
variable {α : Type}

def elems (v : ThinVector α) : List α := v.getD []

def size (v : ThinVector α) : ℕ := v.elems.length

/-- The constructor from a range allocates nothing for an empty one. -/
def ofRange : List α → ThinVector α
  | [] => none
  | a :: as => some (a :: as)

def pushBack (v : ThinVector α) (a : α) : ThinVector α := some (v.elems ++ [a])

def popBack (v : ThinVector α) : ThinVector α := v.map List.dropLast

/-- `ord`: longer lists sort after shorter ones. -/
def ord (cmp : α → α → Ordering) (v x : ThinVector α) : Ordering :=
  (common cmp v.elems x.elems).then (compare v.size x.size)

theorem ord_eq_eq {cmp : α → α → Ordering} [Std.LawfulEqCmp cmp] {v x : ThinVector α} :
    ord cmp v x = .eq ↔ v.elems = x.elems := by
  rw [ord, size, size, common_then_length, Std.LawfulEqCmp.compare_eq_iff_eq]

end ThinVector

/-- `RcString::ord`: the order of the bytes is that of the characters. -/
def ordString : RcString → RcString → Ordering := List.compareLex compare

instance : Std.LawfulEqCmp ordString := inferInstanceAs (Std.LawfulEqCmp (List.compareLex compare))

/-- `c_str()[0]` -/
def firstChar (s : RcString) : Char := s.headD '\x00'

/-- `HIR::SimplePath` -/
structure StoredPath where
  members : ThinVector RcString
  deriving DecidableEq

namespace StoredPath

/-- `SimplePath()` -/
def root : StoredPath := ⟨none⟩

/-- `SimplePath(crate, components)` -/
def new (crate : RcString) (components : List RcString) : StoredPath :=
  if firstChar crate ≠ '\x00' ∨ components ≠ [] then ⟨some (crate :: components)⟩ else root

variable (p q : StoredPath) (s v : RcString)

def crateName : RcString :=
  match p.members with
  | none => []
  | some l => l.headD []

def components : List RcString :=
  match p.members with
  | none => []
  | some l => l.tail

def clone : StoredPath := ⟨.ofRange p.members.elems⟩

def parent : StoredPath :=
  if p.members.size > 1 then ⟨.ofRange p.members.elems.dropLast⟩ else p.clone

/-- `operator+` -/
def add : StoredPath :=
  match p.members with
  | none => ⟨some [[], s]⟩
  | some l => ⟨some (l ++ [s])⟩

/-- `operator+=` -/
def addAssign : StoredPath :=
  match p.members with
  | none => ⟨some [[], s]⟩
  | some l => ⟨.pushBack (some l) s⟩

def popComponent : RcString × StoredPath :=
  if p.members.size ≤ 1 then ([], p)
  else
    let rv := p.members.elems.getLastD []
    let members := p.members.popBack
    if members = some [[]] then (rv, root) else (rv, ⟨members⟩)

def updateCrateName : StoredPath :=
  match p.members with
  | none => ⟨.pushBack none v⟩
  | some l => if firstChar v = '\x00' ∧ l.length = 1 then root else ⟨some (l.set 0 v)⟩

/-- The assertion fails on fewer than two members. -/
def updateLastComponent : Option StoredPath :=
  if p.members.size ≥ 2 then some ⟨some (p.members.elems.dropLast ++ [v])⟩ else none

def ord : Ordering := ThinVector.ord ordString p.members q.members

/-- `starts_with`: `q` may be compared without its last component. -/
def startsWith (skipLast : Bool) : Bool :=
  match q.members with
  | none => p.crateName = []
  | some l =>
    let n := l.length - (if skipLast then 1 else 0)
    n ≤ p.members.size && l.take n = p.members.elems.take n

/-- The root of the current crate has one representation, and a vector that is there has members. -/
def Canonical : Prop := p.members ≠ some [] ∧ p.members ≠ some [[]]

instance : Decidable p.Canonical := inferInstanceAs (Decidable (_ ∧ _))

/-- The path that the members spell. -/
def view : SimplePath := ⟨p.crateName, p.components⟩

/-- The canonical members of a path. -/
def store (p : SimplePath) : StoredPath :=
  if p = ⟨[], []⟩ then root else ⟨some (p.crateName :: p.components)⟩

end StoredPath

/-- The operations that give a path from a path. -/
inductive PathOperation
  | add (s : RcString)
  | addAssign (s : RcString)
  | parent
  | popComponent
  | updateCrateName (v : RcString)
  | updateLastComponent (v : RcString)

/-- What an operation leaves, `none` where its assertion fails. -/
def PathOperation.apply (p : StoredPath) : PathOperation → Option StoredPath
  | add s => some (p.add s)
  | addAssign s => some (p.addAssign s)
  | parent => some p.parent
  | popComponent => some p.popComponent.2
  | updateCrateName v => some (p.updateCrateName v)
  | updateLastComponent v => p.updateLastComponent v

/-- An operation with the paths before and after it. -/
structure PathEvent where
  before : StoredPath
  operation : PathOperation
  after : StoredPath

/-- One operation on a path. -/
def PathStep (p : StoredPath) (es : List PathEvent) (p' : StoredPath) : Prop :=
  ∃ op, op.apply p = some p' ∧ es = [⟨p, op, p'⟩]

/-- Neither `parent` of a component of the current crate's root nor the root's crate name set to nothing. -/
def PathEvent.Harmless (e : PathEvent) : Prop :=
  match e.operation with
  | .parent => ∀ s, e.before.members ≠ some [[], s]
  | .updateCrateName v => v = [] → e.before.members ≠ none
  | _ => True

/-- The abstract operations, on the crate name and the components. -/
def PathOperation.onView (p : SimplePath) : PathOperation → SimplePath
  | add s | addAssign s => ⟨p.crateName, p.components ++ [s]⟩
  | parent | popComponent => ⟨p.crateName, p.components.dropLast⟩
  | updateCrateName v => ⟨v, p.components⟩
  | updateLastComponent v => ⟨p.crateName, p.components.dropLast ++ [v]⟩

namespace StoredPath

variable {p q p' : StoredPath} {s v : RcString}

/-- A canonical path is the null vector, or a crate name with components that are not both empty. -/
theorem canonical_cases (h : p.Canonical) :
    p = root ∨ ∃ c cs, p = ⟨some (c :: cs)⟩ ∧ (c = [] → cs ≠ []) := by
  rcases p with ⟨_ | _ | ⟨c, cs⟩⟩
  · exact .inl rfl
  · exact absurd rfl h.1
  · right
    exact ⟨c, cs, rfl, fun hc hcs => h.2 (by rw [hc, hcs])⟩

theorem canonical_iff_store : p.Canonical ↔ store p.view = p := by
  rcases p with ⟨_ | _ | ⟨c, cs⟩⟩
  · simp [Canonical, store, view, crateName, components, root]
  · simp [Canonical, store, view, crateName, components, root]
  · by_cases h : c = [] ∧ cs = [] <;> simp_all [Canonical, store, view, crateName, components, root]

theorem canonical_new (crate : RcString) (components : List RcString) : (new crate components).Canonical := by
  unfold new
  split
  next h =>
    rcases h with h | h
    · have hcrate : crate ≠ [] := fun hc => h (by rw [hc]; rfl)
      simp [Canonical, hcrate]
    · simp [Canonical, h]
  · simp [Canonical, root]

theorem canonical_append {l : List RcString} (hl : l ≠ []) : (⟨some (l ++ [s])⟩ : StoredPath).Canonical := by
  cases l with
  | nil => exact absurd rfl hl
  | cons c cs => simp [Canonical]

theorem popComponent_canonical (h : p.Canonical) : p.popComponent.2.Canonical := by
  unfold popComponent
  split
  · exact h
  next hsize =>
    dsimp only
    split
    · simp [Canonical, root]
    next hroot =>
      refine ⟨fun hnil => ?_, hroot⟩
      rcases p with ⟨_ | l⟩
      · simp [ThinVector.popBack] at hnil
      · have hlength := congrArg List.length (Option.some.inj hnil)
        simp only [List.length_dropLast, List.length_nil] at hlength
        simp only [ThinVector.size, ThinVector.elems, Option.getD_some] at hsize
        omega

theorem add_canonical (h : p.Canonical) : (p.add s).Canonical := by
  rcases canonical_cases h with rfl | ⟨c, cs, rfl, -⟩
  · simp [Canonical, add, root]
  · exact canonical_append (List.cons_ne_nil c cs)

theorem addAssign_eq_add : p.addAssign s = p.add s := by
  rcases p with ⟨_ | l⟩ <;> rfl

theorem parent_canonical_iff (h : p.Canonical) : p.parent.Canonical ↔ ∀ s, p.members ≠ some [[], s] := by
  rcases canonical_cases h with rfl | ⟨c, cs, rfl, hc⟩
  · simp [parent, clone, root, ThinVector.size, ThinVector.elems, ThinVector.ofRange, Canonical]
  · rcases cs with _ | ⟨a, _ | ⟨b, cs⟩⟩
    · simp [parent, clone, ThinVector.size, ThinVector.elems, ThinVector.ofRange, Canonical,
        show c ≠ [] from fun h => hc h rfl]
    · simp [parent, ThinVector.size, ThinVector.elems, ThinVector.ofRange, Canonical]
    · simp [parent, ThinVector.size, ThinVector.elems, ThinVector.ofRange, Canonical]

theorem updateCrateName_canonical_iff (h : p.Canonical) :
    (p.updateCrateName v).Canonical ↔ (v = [] → p.members ≠ none) := by
  rcases canonical_cases h with rfl | ⟨c, cs, rfl, -⟩
  · simp [updateCrateName, root, ThinVector.pushBack, ThinVector.elems, Canonical]
  · unfold updateCrateName
    dsimp only
    split
    · simp [Canonical, root]
    next hv =>
      have hcanonical : v = [] → cs ≠ [] := fun h1 h2 => hv (by subst h1 h2; exact ⟨rfl, rfl⟩)
      simpa [Canonical] using hcanonical

theorem updateLastComponent_canonical (h : p.updateLastComponent v = some p') : p'.Canonical := by
  unfold updateLastComponent at h
  split at h
  next hsize =>
    rw [← Option.some.inj h]
    apply canonical_append
    intro hnil
    have hlength := congrArg List.length hnil
    simp only [List.length_dropLast, List.length_nil] at hlength
    unfold ThinVector.size at hsize
    omega
  · exact absurd h (by simp)

/-- One operation on a canonical path leaves a canonical one exactly if it is harmless. -/
theorem canonical_step {op : PathOperation} (h : p.Canonical) (hop : op.apply p = some p') :
    p'.Canonical ↔ (PathEvent.mk p op p').Harmless := by
  cases op with
  | add s =>
    cases hop
    exact iff_of_true (add_canonical h) trivial
  | addAssign s =>
    cases hop
    rw [addAssign_eq_add]
    exact iff_of_true (add_canonical h) trivial
  | parent =>
    cases hop
    exact parent_canonical_iff h
  | popComponent =>
    cases hop
    exact iff_of_true (popComponent_canonical h) trivial
  | updateCrateName v =>
    cases hop
    exact updateCrateName_canonical_iff h
  | updateLastComponent v => exact iff_of_true (updateLastComponent_canonical hop) trivial

theorem dropLast_members {c s : RcString} {cs : List RcString} : (c :: (cs ++ [s])).dropLast = c :: cs := by
  rw [← List.cons_append, List.dropLast_concat]

/-- Every operation does to the spelt path what the abstract one does, but for a crate name that starts with the
terminator. -/
theorem view_step {op : PathOperation} (h : p.Canonical) (hop : op.apply p = some p')
    (hname : ∀ v, op = .updateCrateName v → v = [] ∨ firstChar v ≠ '\x00') : p'.view = op.onView p.view := by
  rcases canonical_cases h with rfl | ⟨c, cs, rfl, -⟩
  · cases op with
    | add s => cases hop; rfl
    | addAssign s => cases hop; rfl
    | parent => cases hop; rfl
    | popComponent => cases hop; rfl
    | updateCrateName v => cases hop; rfl
    | updateLastComponent v =>
      simp [PathOperation.apply, updateLastComponent, root, ThinVector.size, ThinVector.elems] at hop
  · cases op with
    | add s => cases hop; rfl
    | addAssign s => cases hop; rfl
    | parent =>
      cases hop
      rcases List.eq_nil_or_concat cs with rfl | ⟨cs, s, rfl⟩
      · rfl
      · simp [parent, ThinVector.size, ThinVector.elems, ThinVector.ofRange, dropLast_members, view, crateName,
          components, PathOperation.onView]
    | popComponent =>
      cases hop
      rcases List.eq_nil_or_concat cs with rfl | ⟨cs, s, rfl⟩
      · rfl
      · by_cases hroot : c = [] ∧ cs = [] <;>
          simp [popComponent, ThinVector.size, ThinVector.elems, ThinVector.popBack, dropLast_members, view, crateName,
            components, PathOperation.onView, hroot, root]
    | updateCrateName v =>
      cases hop
      rcases hname v rfl with rfl | hv
      · rcases cs with _ | ⟨a, cs⟩ <;> rfl
      · simp [updateCrateName, view, crateName, components, PathOperation.onView, hv]
    | updateLastComponent v =>
      rcases List.eq_nil_or_concat cs with rfl | ⟨cs, s, rfl⟩
      · simp [PathOperation.apply, updateLastComponent, ThinVector.size, ThinVector.elems] at hop
      · simp [PathOperation.apply, updateLastComponent, ThinVector.size, ThinVector.elems, dropLast_members] at hop
        rw [← hop]
        simp [view, crateName, components, PathOperation.onView]

/-- After `+`, `parent` goes back to a canonical path unless that is the root. -/
theorem parent_add (h : p.Canonical) (hroot : p ≠ root) : (p.add s).parent = p := by
  rcases canonical_cases h with rfl | ⟨c, cs, rfl, -⟩
  · exact absurd rfl hroot
  · simp [parent, add, ThinVector.size, ThinVector.elems, ThinVector.ofRange, dropLast_members]

theorem popComponent_addAssign (h : p.Canonical) : (p.addAssign s).popComponent = (s, p) := by
  rcases canonical_cases h with rfl | ⟨c, cs, rfl, hc⟩
  · simp [addAssign, popComponent, root, ThinVector.size, ThinVector.elems, ThinVector.popBack]
  · have hne : ¬ (c = [] ∧ cs = []) := fun hcs => hc hcs.1 hcs.2
    have hlast : (c :: (cs ++ [s])).getLast? = some s := by
      rw [← List.cons_append]
      exact List.getLast?_concat
    simp [addAssign, popComponent, ThinVector.pushBack, ThinVector.size, ThinVector.elems, ThinVector.popBack, hne,
      dropLast_members, hlast]

theorem view_injective (hp : p.Canonical) (hq : q.Canonical) (h : p.view = q.view) : p = q := by
  rw [← canonical_iff_store.mp hp, ← canonical_iff_store.mp hq, h]

theorem elems_injective (hp : p.Canonical) (hq : q.Canonical) (h : p.members.elems = q.members.elems) : p = q := by
  rcases canonical_cases hp with rfl | ⟨c, cs, rfl, -⟩ <;> rcases canonical_cases hq with rfl | ⟨c', cs', rfl, -⟩ <;>
    simp_all [root, ThinVector.elems]

theorem ord_eq_iff (hp : p.Canonical) (hq : q.Canonical) : p.ord q = .eq ↔ p.view = q.view := by
  rw [ord, ThinVector.ord_eq_eq]
  constructor
  · intro h
    rw [elems_injective hp hq h]
  · intro h
    rw [view_injective hp hq h]

theorem startsWith_iff (hp : p.Canonical) (hq : q.Canonical) :
    p.startsWith q false ↔ q.crateName = p.crateName ∧ q.components <+: p.components := by
  rcases canonical_cases hq with rfl | ⟨c, cs, rfl, hc⟩
  · simp [startsWith, root, crateName, components]
  · rcases canonical_cases hp with rfl | ⟨c', cs', rfl, -⟩
    · simp [startsWith, root, crateName, components, ThinVector.size, ThinVector.elems]
      exact hc
    · rw [List.prefix_iff_eq_take]
      simp [startsWith, crateName, components, ThinVector.size, ThinVector.elems]
      intro _ htake
      have hlength := congrArg List.length htake
      rw [List.length_take] at hlength
      omega

/-- A harmless run from a canonical path goes through canonical paths only, and a run through canonical paths is
harmless. -/
theorem canonical_run {p₀ : StoredPath} {es : List PathEvent} (h : Run PathStep p₀ es p) (h₀ : p₀.Canonical) :
    ((∀ e ∈ es, e.Harmless) ↔ ∀ e ∈ es, e.after.Canonical) ∧
      ((∀ e ∈ es, e.Harmless) → p.Canonical ∧ ∀ e ∈ es, e.before.Canonical) := by
  induction h with
  | nil => simp [h₀]
  | step _ hs ih =>
    rcases hs with ⟨op, hop, rfl⟩
    simp only [List.mem_append, List.mem_singleton, or_imp, forall_and, forall_eq]
    have hstep := fun hall => canonical_step (ih.2 hall).1 hop
    constructor
    · constructor
      · rintro ⟨hall, hlast⟩
        exact ⟨ih.1.mp hall, (hstep hall).mpr hlast⟩
      · rintro ⟨hall, hlast⟩
        exact ⟨ih.1.mpr hall, (hstep (ih.1.mpr hall)).mp hlast⟩
    · exact ⟨fun hall => (hstep hall.1).mpr hall.2, fun hall => (ih.2 hall.1).2, fun hall => (ih.2 hall.1).1⟩

/-- In a run every event is an application, and each starts where the one before it ended. -/
theorem run_linked {p₀ : StoredPath} {es : List PathEvent} (h : Run PathStep p₀ es p) :
    (∀ e ∈ es, e.operation.apply e.before = some e.after) ∧ (∀ e, [e] <:+ es → e.after = p) ∧
      ∀ e e', [e, e'] <:+: es → e'.before = e.after := by
  induction h with
  | nil => simp
  | step _ hs ih =>
    rcases hs with ⟨op, hop, rfl⟩
    rcases ih with ⟨happly, hlast, hnext⟩
    constructor
    · simp only [List.mem_append, List.mem_singleton, or_imp, forall_and, forall_eq]
      exact ⟨happly, hop⟩
    constructor
    · intro e he
      rcases List.suffix_concat_iff.mp he with h | ⟨t, ht, -⟩
      · exact absurd h (List.cons_ne_nil e [])
      · have hsplit : [] = t ∧ [e] = [_] := List.append_inj' ht rfl
        rw [List.singleton_inj.mp hsplit.2]
    · intro e e' he
      rcases List.infix_concat_iff.mp he with he | he
      · rcases List.suffix_concat_iff.mp he with h | ⟨t, ht, hsuffix⟩
        · exact absurd h (List.cons_ne_nil e [e'])
        · have hsplit : [e] = t ∧ [e'] = [_] := List.append_inj' ht rfl
          rw [← hsplit.1] at hsuffix
          rw [List.singleton_inj.mp hsplit.2, hlast e hsuffix]
      · exact hnext e e' he

end StoredPath

/-- What a sequence of operations is to do: every path is canonical, `parent` takes back a `+`, and
`pop_component` takes back a `+=` and returns its component. -/
structure PathsRight (es : List PathEvent) (p : StoredPath) : Prop where
  canonical : ∀ e ∈ es, e.after.Canonical
  canonical_last : p.Canonical
  parent_add : ∀ e e', [e, e'] <:+: es → ∀ s, e.operation = .add s → e'.operation = .parent → e'.after = e.before
  pop_addAssign : ∀ e e', [e, e'] <:+: es → ∀ s, e.operation = .addAssign s → e'.operation = .popComponent →
    e'.before.popComponent.1 = s ∧ e'.after = e.before

/-- Two paths compare by their crate names and components. -/
structure PathsComparable (p q : StoredPath) : Prop where
  ord : p.ord q = .eq ↔ p.crateName = q.crateName ∧ p.components = q.components
  startsWith : p.startsWith q false ↔ q.crateName = p.crateName ∧ q.components <+: p.components

namespace StoredPath

variable {p q : StoredPath}

theorem pathsRight_of_harmless {crate : RcString} {cs : List RcString} {es : List PathEvent}
    (h : Run PathStep (new crate cs) es p) (hall : ∀ e ∈ es, e.Harmless) : PathsRight es p := by
  have hcanonical := canonical_run h (canonical_new crate cs)
  have hlinked := run_linked h
  constructor
  case canonical => exact hcanonical.1.mp hall
  case canonical_last => exact (hcanonical.2 hall).1
  case parent_add =>
    intro e e' he s hs hparent
    have hmem : e ∈ es ∧ e' ∈ es := by
      have := he.subset
      simpa using this
    have hafter := hlinked.1 e hmem.1
    have hafter' := hlinked.1 e' hmem.2
    have hbefore := hlinked.2.2 e e' he
    have hharmless := hall e' hmem.2
    rw [hs] at hafter
    rw [hparent] at hafter'
    unfold PathEvent.Harmless at hharmless
    rw [hparent, hbefore, ← Option.some.inj hafter] at hharmless
    rw [← Option.some.inj hafter', hbefore, ← Option.some.inj hafter]
    apply StoredPath.parent_add ((hcanonical.2 hall).2 e hmem.1)
    intro hroot
    apply hharmless s
    rw [hroot]
    rfl
  case pop_addAssign =>
    intro e e' he s hs hpop
    have hmem : e ∈ es ∧ e' ∈ es := by
      have := he.subset
      simpa using this
    have hafter := hlinked.1 e hmem.1
    have hafter' := hlinked.1 e' hmem.2
    have hbefore := hlinked.2.2 e e' he
    rw [hs] at hafter
    rw [hpop] at hafter'
    rw [← Option.some.inj hafter', hbefore, ← Option.some.inj hafter,
      popComponent_addAssign ((hcanonical.2 hall).2 e hmem.1)]
    exact ⟨rfl, rfl⟩

theorem pathsComparable_of_canonical (hp : p.Canonical) (hq : q.Canonical) : PathsComparable p q := by
  constructor
  case ord => rw [ord_eq_iff hp hq, view, view, SimplePath.mk.injEq]
  case startsWith => exact startsWith_iff hp hq

/-- Two sequences of operations are right, and what they leave compares by crate names and components, exactly if
every operation is harmless. -/
theorem right_iff_harmless {crate crate' : RcString} {cs cs' : List RcString} {es es' : List PathEvent}
    (hp : Run PathStep (new crate cs) es p) (hq : Run PathStep (new crate' cs') es' q) :
    PathsRight es p ∧ PathsRight es' q ∧ PathsComparable p q ↔ ∀ e ∈ es ++ es', e.Harmless := by
  constructor
  · rintro ⟨hright, hright', -⟩ e he
    rcases List.mem_append.mp he with he | he
    · exact (canonical_run hp (canonical_new crate cs)).1.mpr hright.canonical e he
    · exact (canonical_run hq (canonical_new crate' cs')).1.mpr hright'.canonical e he
  · intro hall
    have hright := pathsRight_of_harmless hp fun e he => hall e (List.mem_append_left _ he)
    have hright' := pathsRight_of_harmless hq fun e he => hall e (List.mem_append_right _ he)
    exact ⟨hright, hright', pathsComparable_of_canonical hright.canonical_last hright'.canonical_last⟩

/-- A path of the `std` crate, its last component taken off again. -/
theorem right_iff_harmless_std :
    let p : StoredPath := ⟨some [['s', 't', 'd'], ['v', 'e', 'c']]⟩
    let q : StoredPath := ⟨some [['s', 't', 'd']]⟩
    PathsRight [⟨p, .parent, q⟩] q ∧ PathsRight [] p ∧ PathsComparable q p ↔
      ∀ e ∈ [PathEvent.mk p .parent q] ++ [], e.Harmless := by
  have hlast : Run PathStep (new ['s', 't', 'd'] [['v', 'e', 'c']])
      [⟨⟨some [['s', 't', 'd'], ['v', 'e', 'c']]⟩, .parent, ⟨some [['s', 't', 'd']]⟩⟩] ⟨some [['s', 't', 'd']]⟩ :=
    Run.nil.step ⟨.parent, by decide, rfl⟩
  have hnone : Run PathStep (new ['s', 't', 'd'] [['v', 'e', 'c']]) [] ⟨some [['s', 't', 'd'], ['v', 'e', 'c']]⟩ :=
    Run.nil
  exact right_iff_harmless hlast hnone

/-- The parent of an item of the current crate's root is not the root. -/
theorem parent_of_root_item :
    Run PathStep root [⟨root, .add ['a'], ⟨some [[], ['a']]⟩⟩, ⟨⟨some [[], ['a']]⟩, .parent, ⟨some [[]]⟩⟩] ⟨some [[]]⟩ ∧
      ¬ (StoredPath.mk (some [[]])).Canonical ∧ (root.add ['a']).parent ≠ root ∧
      (StoredPath.mk (some [[]])).ord root ≠ .eq ∧ (StoredPath.mk (some [[]])).view = root.view := by
  constructor
  · have hadd : Run PathStep root [⟨root, .add ['a'], ⟨some [[], ['a']]⟩⟩] ⟨some [[], ['a']]⟩ :=
      Run.nil.step ⟨.add ['a'], rfl, rfl⟩
    exact hadd.step ⟨.parent, by decide, rfl⟩
  · decide

end StoredPath

end Mrustc.Hir
