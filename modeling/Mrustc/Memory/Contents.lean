import Mathlib.Order.BoundedOrder.Basic
import Mathlib.Logic.Function.Basic
import Mathlib.Data.Set.Basic
import Mathlib.Tactic

/-! # Memories whose allocations are read and written through projections

A memory gives every base its contents. Contents are ordered by definedness: `k ≤ l` says that `l`
holds what `k` holds, and possibly more where `k` is uninitialised. Nothing is asked of writes to
overlapping parts, so the fields of a union may share their storage.
-/

namespace Mrustc.Memory

/-- Contents `K` with parts named by lists of projections `π`. -/
class Contents (K : Type*) (π : outParam Type*) extends PartialOrder K, OrderBot K where
  get : List π → K → K
  put : List π → K → K → K
  init : K → Bool
  get_nil (k : K) : get [] k = k
  get_append (p q : List π) (k : K) : get (p ++ q) k = get q (get p k)
  get_mono {k l : K} (p : List π) (h : k ≤ l) : get p k ≤ get p l
  put_nil (v k : K) : put [] v k = v
  put_mono {k l : K} (p : List π) (v : K) (h : k ≤ l) : put p v k ≤ put p v l
  put_bot_le (p : List π) (k : K) : put p ⊥ k ≤ k
  not_init_bot : init ⊥ = false
  eq_of_init {k l : K} (hk : init k = true) (h : k ≤ l) : k = l

/-- A part of an allocation. -/
structure Place (B π : Type*) where
  base : B
  path : List π
  deriving DecidableEq, Repr

/-- The part of the place that the projection names. -/
def Place.push {B π : Type*} (pl : Place B π) (x : π) : Place B π := ⟨pl.base, pl.path ++ [x]⟩

section Access

variable {B K π : Type*} [DecidableEq B] [Contents K π] {m m' : B → K} {pl : Place B π} {v : K} {b : B}

/-- The value at a place, where it is initialised. -/
def load (m : B → K) (pl : Place B π) : Option K :=
  let v := Contents.get pl.path (m pl.base)
  if Contents.init v then some v else none

def store (m : B → K) (pl : Place B π) (v : K) : B → K :=
  Function.update m pl.base (Contents.put pl.path v (m pl.base))

/-- The value of the place is moved out or dropped. -/
def vacate (m : B → K) (pl : Place B π) : B → K := store m pl ⊥

omit [DecidableEq B] in
@[simp] theorem load_eq_some : load m pl = some v ↔
    Contents.init v = true ∧ Contents.get pl.path (m pl.base) = v := by
  unfold load
  constructor
  · intro h
    by_cases hi : Contents.init (Contents.get pl.path (m pl.base)) = true
    · simp only [hi, if_true, Option.some.injEq] at h
      exact ⟨h ▸ hi, h⟩
    · simp [hi] at h
  · intro ⟨hi, h⟩
    subst h
    simp [hi]

omit [DecidableEq B] in
theorem load_mono (h : m pl.base ≤ m' pl.base) (hv : load m pl = some v) : load m' pl = some v := by
  obtain ⟨hi, hv⟩ := load_eq_some.mp hv
  have hle : v ≤ Contents.get pl.path (m' pl.base) := hv ▸ Contents.get_mono pl.path h
  exact load_eq_some.mpr ⟨hi, (Contents.eq_of_init hi hle).symm⟩

omit [DecidableEq B] in
theorem load_congr (h : m pl.base = m' pl.base) : load m pl = load m' pl := by rw [load, load, h]

@[simp] theorem store_of_ne (h : b ≠ pl.base) : store m pl v b = m b :=
  Function.update_of_ne h _ _

@[simp] theorem store_self : store m pl v pl.base = Contents.put pl.path v (m pl.base) :=
  Function.update_self _ _ _

@[simp] theorem store_whole : store m ⟨b, []⟩ v b = v := by
  rw [show b = (⟨b, []⟩ : Place B π).base from rfl, store_self]
  exact Contents.put_nil v _

@[simp] theorem vacate_of_ne (h : b ≠ pl.base) : vacate m pl b = m b := store_of_ne h

@[simp] theorem vacate_self : vacate m pl pl.base = Contents.put pl.path ⊥ (m pl.base) := store_self

@[simp] theorem vacate_whole : vacate m ⟨b, []⟩ b = ⊥ := store_whole

theorem vacate_le (m : B → K) (pl : Place B π) (b : B) : vacate m pl b ≤ m b := by
  by_cases h : b = pl.base
  · subst h
    rw [vacate_self]
    exact Contents.put_bot_le pl.path _
  · rw [vacate_of_ne h]

/-- Writing a place keeps the order of two memories wherever they have it. -/
theorem store_mono (h : m b ≤ m' b) : store m pl v b ≤ store m' pl v b := by
  by_cases hb : b = pl.base
  · subst hb
    rw [store_self, store_self]
    exact Contents.put_mono pl.path v h
  · rwa [store_of_ne hb, store_of_ne hb]

end Access

/-- Code outside the model. It looks at some bases and changes some of these; where the ones it
looks at hold more, it does the same and leaves more behind. -/
structure Action (B K α : Type*) [PartialOrder K] where
  run : (B → K) → Option (α × (B → K))
  touched : (B → K) → Set B
  written : (B → K) → Set B
  written_subset (m : B → K) : written m ⊆ touched m
  frame {m m₁ : B → K} {a : α} {b : B} (h : run m = some (a, m₁)) (hb : b ∉ written m) : m₁ b = m b
  mono {m m₁ m' : B → K} {a : α} (h : run m = some (a, m₁)) (hle : ∀ b ∈ touched m, m b ≤ m' b) :
    ∃ m₁', run m' = some (a, m₁') ∧ written m' = written m ∧ ∀ b ∈ written m, m₁ b ≤ m₁' b

namespace Action

variable {B K α : Type*} [PartialOrder K] {x : Action B K α} {m m₁ m₁' m' : B → K} {a : α}

/-- The action that only gives a value. -/
def pure (a : α) : Action B K α where
  run m := some (a, m)
  touched _ := ∅
  written _ := ∅
  written_subset _ := Set.empty_subset _
  frame h _ := by
    cases h
    rfl
  mono {m m₁ m' a} h _ := by
    cases h
    exact ⟨m', rfl, rfl, by simp⟩

end Action

end Mrustc.Memory
