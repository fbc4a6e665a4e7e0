import Mrustc.Memory.Contents

/-! # Contents that are initialised as a whole

Values with parts, over which contents are either uninitialised or a value. Taking a part out leaves
nothing.
-/

namespace Mrustc.Memory

/-- Values `V` with parts named by `π`. -/
class Parts (V : Type*) (π : outParam Type*) where
  part : π → V → Option V
  setPart : π → V → V → Option V

inductive Flat (V : Type*)
  | uninit
  | value (v : V)
  deriving DecidableEq, Repr

namespace Flat

variable {V π : Type*}

def ofOption : Option V → Flat V
  | none => .uninit
  | some v => .value v

def toOption : Flat V → Option V
  | .uninit => none
  | .value v => some v

instance : PartialOrder (Flat V) where
  le k l := k = .uninit ∨ k = l
  le_refl k := .inr rfl
  le_trans k l m hkl hlm := by
    rcases hkl with rfl | rfl
    · exact .inl rfl
    · exact hlm
  le_antisymm k l hkl hlk := by
    rcases hkl with rfl | rfl
    · rcases hlk with rfl | rfl <;> rfl
    · rfl

instance : OrderBot (Flat V) where
  bot := .uninit
  bot_le _ := .inl rfl

variable [Parts V π]

def get : List π → Flat V → Flat V
  | [], k => k
  | x :: p, k => get p (ofOption (k.toOption.bind (Parts.part x)))

def put : List π → Flat V → Flat V → Flat V
  | [], v, _ => v
  | x :: p, v, k =>
    match k with
    | .uninit => .uninit
    | .value w => ofOption ((put p v (ofOption (Parts.part x w))).toOption.bind fun w' =>
        Parts.setPart x w' w)

@[simp] theorem get_uninit (p : List π) : get p (.uninit : Flat V) = .uninit := by
  induction p with
  | nil => rfl
  | cons x p ih => exact ih

@[simp] theorem put_uninit (p : List π) (k : Flat V) : put p .uninit k = .uninit := by
  induction p generalizing k with
  | nil => rfl
  | cons x p ih =>
    cases k with
    | uninit => rfl
    | value w =>
      rw [put, ih]
      rfl

/-- Putting a part back where it was taken from changes nothing. -/
theorem put_get (hset : ∀ (x : π) (u w : V), Parts.part x w = some u → Parts.setPart x u w = some w)
    {p : List π} {k : Flat V} {v : V} (h : get p k = .value v) : put p (.value v) k = k := by
  induction p generalizing k with
  | nil => exact h.symm
  | cons x p ih =>
    cases k with
    | uninit =>
      rw [get_uninit] at h
      cases h
    | value w =>
      rw [get, toOption, Option.bind_some] at h
      rw [put, ih h]
      cases hu : Parts.part x w with
      | none =>
        rw [hu, ofOption, get_uninit] at h
        cases h
      | some u =>
        rw [ofOption, toOption, Option.bind_some, hset x u w hu]
        rfl

instance : Contents (Flat V) π where
  get := get
  put := put
  init k := k.toOption.isSome
  get_nil _ := rfl
  get_append p q k := by
    induction p generalizing k with
    | nil => rfl
    | cons x p ih => exact ih _
  get_mono p h := by
    rcases h with rfl | rfl
    · rw [get_uninit]
      exact .inl rfl
    · exact le_rfl
  put_nil _ _ := rfl
  put_mono p v h := by
    rcases h with rfl | rfl
    · cases p with
      | nil => exact le_rfl
      | cons x p => exact .inl rfl
    · exact le_rfl
  put_bot_le p k := by
    have h : put p ⊥ k = .uninit := put_uninit p k
    rw [h]
    exact .inl rfl
  not_init_bot := rfl
  eq_of_init hk h := by
    rcases h with rfl | rfl
    · cases hk
    · rfl

end Flat

end Mrustc.Memory
