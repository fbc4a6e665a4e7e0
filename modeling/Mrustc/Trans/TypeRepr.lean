import Mrustc.Layout.Placement

/-! # The layout of structs, tuples and unions

`make_type_repr_struct__inner` places the fields on one running offset, in `size_t` arithmetic. The types `T` are
monomorphised.
-/

namespace Mrustc.Trans

/-- `SIZE_MAX`, which marks an unsized type -/
def sizeMax : ℕ := 2 ^ 64 - 1

/-- What ends the computation. -/
inductive Bug
  | fieldIndex
  | duplicateField
  | unsizedNotLast
  | uninitialisedField
  | unsizedInUnion
  | divisionByZero
  deriving DecidableEq, Repr

/-- `field` is `none` for forced padding. -/
structure Ent (T : Type) where
  field : Option ℕ
  size : ℕ
  align : ℕ
  ty : T
  deriving DecidableEq, Repr

structure Field (T : Type) where
  offset : ℕ
  ty : T
  deriving DecidableEq, Repr

/-- The variants of a `TypeRepr` belong to enums. -/
structure TypeRepr (T : Type) where
  align : ℕ
  size : ℕ
  fields : List (Field T)
  deriving DecidableEq, Repr

inductive StructSorting
  | none | allButFinal | all
  deriving DecidableEq, Repr

/-- `sortfn_struct_fields` -/
def sortfnStructFields {T : Type} (a b : Ent T) : Prop :=
  if a.align ≠ b.align then a.align < b.align else a.size < b.size

/-- `std::sort` by `sortfn_struct_fields` -/
structure FieldSorting (T : Type) where
  sort : List (Ent T) → List (Ent T)
  perm (es : List (Ent T)) : (sort es).Perm es
  sorted (es : List (Ent T)) : (sort es).Pairwise fun a b => ¬sortfnStructFields b a

section Loops

variable {T : Type}

/-- `while( cur_ofs % align != 0 ) cur_ofs ++;` -/
def alignOfs (curOfs align : ℕ) : ℕ :=
  if curOfs % align ≠ 0 then alignOfs ((curOfs + 1) % 2 ^ 64) align else curOfs
termination_by if curOfs = 0 then 0 else if curOfs < 2 ^ 64 then 2 ^ 64 - curOfs else 2 ^ 64
decreasing_by
  rename_i h
  have hne : curOfs ≠ 0 := fun h0 => h (h0 ▸ Nat.zero_mod align)
  rw [if_neg hne]
  split_ifs <;> omega

structure LayoutState (T : Type) where
  curOfs : ℕ
  maxAlign : ℕ
  isFirstField : Bool
  fields : List (Option (Field T))

/-- The alignment of a field in the struct, and whether the next one is still the first. -/
def fieldAlign (archName : String) (maxAlignment : ℕ) (isFirstField : Bool) (size align : ℕ) : ℕ × Bool :=
  let (align, isFirstField) :=
    if archName = "powerpc" ∧ size > 0 then
      (if isFirstField = false ∧ align ≥ 4 ∧ align ≤ 8 then 4 else align, false)
    else (align, isFirstField)
  (if maxAlignment > 0 then min align maxAlignment else align, isFirstField)

def setField (fields : List (Option (Field T))) (field : Option ℕ) (f : Field T) :
    Except Bug (List (Option (Field T))) :=
  match field with
  | none => .ok fields
  | some i =>
    match fields[i]? with
    | none => .error .fieldIndex
    | some (some _) => .error .duplicateField
    | some none => .ok (fields.set i (some f))

/-- One round of the loop over the entries. -/
def placeEnt (archName : String) (maxAlignment : ℕ) (isLast : Bool) (st : LayoutState T) (e : Ent T) :
    Except Bug (LayoutState T) := do
  let (align, isFirstField) := fieldAlign archName maxAlignment st.isFirstField e.size e.align
  let curOfs := if align > 0 then alignOfs st.curOfs align else st.curOfs
  let fields ← setField st.fields e.field ⟨curOfs, e.ty⟩
  if e.size = sizeMax ∧ isLast = false then .error .unsizedNotLast
  let curOfs := if e.size = sizeMax then sizeMax else (curOfs + e.size) % 2 ^ 64
  .ok ⟨curOfs, max st.maxAlign align, isFirstField, fields⟩

def placeEnts (archName : String) (maxAlignment : ℕ) : List (Ent T) → LayoutState T → Except Bug (LayoutState T)
  | [], st => .ok st
  | e :: es, st => do placeEnts archName maxAlignment es (← placeEnt archName maxAlignment es.isEmpty st e)

def sortEnts (sorting : FieldSorting T) : StructSorting → List (Ent T) → List (Ent T)
  | .none, es => es
  | .allButFinal, es => sorting.sort es.dropLast ++ es.getLast?.toList
  | .all, es => sorting.sort es

/-- `make_type_repr_struct__inner` -/
def makeTypeReprStructInner (archName : String) (sorting : FieldSorting T) (ents : List (Ent T))
    (structSorting : StructSorting) (forcedAlignment maxAlignment : ℕ) : Except Bug (TypeRepr T) := do
  let ents := sortEnts sorting structSorting ents
  let maxField := (ents.filterMap Ent.field).foldl max 0
  let fields := List.replicate (if ents.length > 0 then maxField + 1 else 0) none
  let st ← placeEnts archName maxAlignment ents ⟨0, 1, true, fields⟩
  let maxAlign := if forcedAlignment > 0 then max st.maxAlign forcedAlignment else st.maxAlign
  let curOfs := if st.curOfs ≠ sizeMax then alignOfs st.curOfs maxAlign else st.curOfs
  let fields ← st.fields.mapM fun f => f.elim (.error .uninitialisedField) .ok
  .ok ⟨maxAlign, curOfs, fields⟩

end Loops

/-! ## The types -/

/-- `HIR::Struct::Repr` -/
inductive Repr
  | rust | c | simd | transparent
  deriving DecidableEq

/-- A struct with the types of its fields; `isDst` is `dst_type != None`. -/
structure Struct (T : Type) where
  fields : List T
  repr : Repr
  isDst : Bool
  forcedAlignment : ℕ
  maxFieldAlignment : ℕ

inductive TypeDef (T : Type)
  | struct_ (str : Struct T)
  | tuple (tys : List T)
  | union_ (variants : List T)

section Types

variable {T : Type} (sizeAndAlignOf : T → Option (ℕ × ℕ))

/-- The entries of the types from index `idx` on, as in `struct_enumerate_fields`. -/
def enumerateFields : (idx : ℕ) → List T → Option (List (Ent T))
  | _, [] => some []
  | idx, ty :: tys => do
    let (size, align) ← sizeAndAlignOf ty
    let ents ← enumerateFields (idx + 1) tys
    return ⟨some idx, size, align, ty⟩ :: ents

def structSorting (str : Struct T) : StructSorting :=
  match str.repr with
  | .c | .simd => .none
  | .transparent | .rust => if str.isDst then .allButFinal else .all

/-- `none` is the null pointer -/
def makeTypeReprStruct (archName : String) (sorting : FieldSorting T) (str : Struct T) :
    Except Bug (Option (TypeRepr T)) :=
  match enumerateFields sizeAndAlignOf 0 str.fields with
  | none => .ok none
  | some ents => do
    let rv ← makeTypeReprStructInner archName sorting ents (structSorting str) str.forcedAlignment
      str.maxFieldAlignment
    return some rv

def makeTypeReprTuple (archName : String) (sorting : FieldSorting T) (tys : List T) :
    Except Bug (Option (TypeRepr T)) :=
  match enumerateFields sizeAndAlignOf 0 tys with
  | none => .ok none
  | some ents => do
    let rv ← makeTypeReprStructInner archName sorting ents .all 0 0
    return some rv

/-- The loop over the variants of a union. -/
def unionVariants : List T → TypeRepr T → Except Bug (Option (TypeRepr T))
  | [], rv => .ok (some rv)
  | ty :: tys, rv =>
    match sizeAndAlignOf ty with
    | none => .ok none
    | some (size, align) =>
      if size = sizeMax then .error .unsizedInUnion
      else unionVariants tys ⟨max rv.align align, max rv.size size, rv.fields ++ [⟨0, ty⟩]⟩

def makeTypeReprUnion (variants : List T) : Except Bug (Option (TypeRepr T)) := do
  match ← unionVariants sizeAndAlignOf variants ⟨0, 0, []⟩ with
  | none => .ok none
  | some rv =>
    if rv.align = 0 then .error .divisionByZero
    else if rv.size % rv.align ≠ 0 then
      .ok (some { rv with size := (rv.size + (rv.align - rv.size % rv.align)) % 2 ^ 64 })
    else .ok (some rv)

def makeTypeRepr (archName : String) (sorting : FieldSorting T) : TypeDef T → Except Bug (Option (TypeRepr T))
  | .struct_ str => makeTypeReprStruct sizeAndAlignOf archName sorting str
  | .tuple tys => makeTypeReprTuple sizeAndAlignOf archName sorting tys
  | .union_ variants => makeTypeReprUnion sizeAndAlignOf variants

end Types

end Mrustc.Trans
