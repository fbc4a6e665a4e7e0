import Mrustc.Memory.Flat
import Mrustc.Mir.Semantics

/-! # A machine of words

Values are lists of words, whose elements are their fields and elements of arrays. A word is a number or
the address of a place. Dropping runs nothing, and the assembler does nothing.
-/

namespace Mrustc.Mir

open Memory

inductive Word
  | num (n : ℕ)
  | addr (base : Storage Unit) (path : List ℕ)
  deriving DecidableEq, Repr

namespace Words

inductive Ty
  | word
  | owned
  | array (inner : Ty)
  | ref (inner : Ty)
  deriving DecidableEq, Repr

def Ty.unwrap : Ty → Wrapper → Option Ty
  | .array t, .index _ => some t
  | .ref t, .deref => some t
  | _, _ => none

def Ty.isCopy : Ty → Bool
  | .word => true
  | .owned => false
  | .array t => t.isCopy
  | .ref _ => true

instance : Parts (List Word) ℕ where
  part i ws := ws[i]?.map ([·])
  setPart i vs ws :=
    match vs with
    | [v] => some (ws.set i v)
    | _ => none

abbrev Value := Flat (List Word)

def param : Param Unit Value → Option (List Word)
  | .lvalue v => v.toOption
  | .borrow _ v => v.toOption
  | .constant (.uint n _) => some [.num n]
  | .constant _ => none

/-- The machine. -/
def interp : Interp Ty Unit (Storage Unit) Value ℕ Unit where
  field := id
  downcast := id
  index := id
  asPlace
    | .value [.addr b p] => some ⟨b, p⟩
    | _ => none
  address pl := .value [.addr pl.base pl.path]
  asIndex
    | .value [.num n] => some n
    | _ => none
  rvalue
    | .borrow _ v => some v
    | .constant (.uint n _) => some (.value [.num n])
    | .tuple vals => (vals.mapM param).map fun vs => .value vs.flatten
    | _ => none
  drop _ _ := .pure ()
  asm _ _ _ _ _ := .pure ((), [])
  asm2 _ _ _ := .pure ((), [])

/-- Slots that are their own bases. -/
def frame (slotType : Storage Unit → Ty) : Frame Ty Unit (Storage Unit) where
  base := id
  base_injective _ _ h := h
  rootType := slotType
  unwrapType := Ty.unwrap
  typeIsCopy := Ty.isCopy
  typeIsCopy_unwrap {t t' w} ht hw h := by
    cases t with
    | word => cases h
    | owned => cases h
    | array t =>
      cases w <;> cases h
      exact ht
    | ref t =>
      cases w <;> cases h
      exact absurd rfl hw

/-- A state whose slots hold the given values. -/
def state (slots : List (Storage Unit × List Word)) : State (Storage Unit) Value :=
  ⟨fun b => Flat.ofOption (slots.lookup b), fun _ => false⟩

end Words

end Mrustc.Mir
