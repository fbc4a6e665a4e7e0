import Mrustc.Trans.StructFields

/-! # Valid layouts

When the computed layouts of structs, tuples and unions are valid.
-/

namespace Mrustc.Trans

open Layout

/-! ## What a valid layout is -/

section Spec

variable {T : Type} (sz : T → Option (ℕ × ℕ)) (archName : String)

/-- The alignment of a field in a struct: at most `packed`, and on PowerPC the embedding alignment. -/
def clampedAlign (packed size align : ℕ) : ℕ :=
  let align := if archName = "powerpc" ∧ size > 0 ∧ align ≥ 4 ∧ align ≤ 8 then 4 else align
  if packed > 0 then min align packed else align

/-- The sized fields are aligned and inside the size, which is a multiple of the alignment. -/
structure Contained (packed : ℕ) (rv : TypeRepr T) : Prop where
  aligned : ∀ f ∈ rv.fields,
    clampedAlign archName packed (sizeOf sz f.ty) (alignOf sz f.ty) ≠ 0 →
      clampedAlign archName packed (sizeOf sz f.ty) (alignOf sz f.ty) ∣ f.offset
  inside : ∀ f ∈ rv.fields, sizeOf sz f.ty ≠ sizeMax → f.offset + sizeOf sz f.ty ≤ rv.size
  size_dvd : (∀ f ∈ rv.fields, sizeOf sz f.ty ≠ sizeMax) → rv.align ∣ rv.size

/-- The sized fields share no bytes, and an unsized one comes after them. -/
structure Separate (rv : TypeRepr T) : Prop where
  apart : rv.fields.Pairwise fun f g => sizeOf sz f.ty ≠ sizeMax → sizeOf sz g.ty ≠ sizeMax →
    f.offset + sizeOf sz f.ty ≤ g.offset ∨ g.offset + sizeOf sz g.ty ≤ f.offset
  unsized_last : ∀ f ∈ rv.fields, ∀ g ∈ rv.fields, sizeOf sz f.ty = sizeMax →
    sizeOf sz g.ty ≠ sizeMax → g.offset + sizeOf sz g.ty ≤ f.offset

/-- The fields of a union share their bytes. -/
def ValidLayout (rv : TypeRepr T) : TypeDef T → Prop
  | .struct_ str => rv.fields.map Field.ty = str.fields ∧
      Contained sz archName str.maxFieldAlignment rv ∧ Separate sz rv
  | .tuple tys => rv.fields.map Field.ty = tys ∧ Contained sz archName 0 rv ∧ Separate sz rv
  | .union_ variants => rv.fields.map Field.ty = variants ∧ Contained sz archName 0 rv

/-- The layout of the type is known, in `size_t`. -/
def Known (ty : T) : Prop :=
  (sz ty).isSome ∧ sizeOf sz ty ≤ sizeMax ∧ alignOf sz ty ≤ sizeMax

/-- Only the last field of a struct or of a tuple may be unsized. -/
def KnownLayouts : TypeDef T → Prop
  | .struct_ str => (∀ ty ∈ str.fields, Known sz ty) ∧
      ∀ ty ∈ str.fields.dropLast, sizeOf sz ty ≠ sizeMax
  | .tuple tys => (∀ ty ∈ tys, Known sz ty) ∧ ∀ ty ∈ tys.dropLast, sizeOf sz ty ≠ sizeMax
  | .union_ tys => ∀ ty ∈ tys, Known sz ty ∧ sizeOf sz ty ≠ sizeMax

/-! ## When layouts are valid -/

/-- Sorting leaves an unsized field at the end, and the rounded end of the fields is a `size_t`. -/
def StructCondition (sorting : FieldSorting T) (structSorting : StructSorting) (forcedAlignment packed : ℕ)
    (tys : List T) : Prop :=
  let its := items archName packed true (placedEnts sz sorting structSorting tys)
  (structSorting = .all → ∀ ty ∈ tys, sizeOf sz ty = sizeMax → ∀ ty' ∈ tys,
    alignOf sz ty' ≤ alignOf sz ty) ∧
  (if ∃ ty ∈ tys, sizeOf sz ty = sizeMax then extent its
    else roundUp (extent its) (structAlign forcedAlignment its)) < 2 ^ 64

/-- Some variant of a union has an alignment. -/
def LayoutCondition (sorting : FieldSorting T) : TypeDef T → Prop
  | .struct_ str => StructCondition sz archName sorting (structSorting str) str.forcedAlignment
      str.maxFieldAlignment str.fields
  | .tuple tys => StructCondition sz archName sorting .all 0 0 tys
  | .union_ tys => (∃ ty ∈ tys, alignOf sz ty ≠ 0) ∧
      roundUp ((tys.map (sizeOf sz)).foldl max 0) ((tys.map (alignOf sz)).foldl max 0) < 2 ^ 64

end Spec

section Union

variable {T : Type} {sz : T → Option (ℕ × ℕ)} {archName : String} {tys : List T} {rv : TypeRepr T}

theorem unionVariants_eq (h : ∀ ty ∈ tys, Known sz ty ∧ sizeOf sz ty ≠ sizeMax) :
    unionVariants sz tys rv =
      .ok (some ⟨(tys.map (alignOf sz)).foldl max rv.align,
        (tys.map (sizeOf sz)).foldl max rv.size, rv.fields ++ tys.map fun ty => ⟨0, ty⟩⟩) := by
  induction tys generalizing rv with
  | nil => simp [unionVariants]
  | cons ty tys ih =>
    obtain ⟨⟨hsome, -⟩, hne⟩ := h ty List.mem_cons_self
    obtain ⟨⟨size, align⟩, hlayout⟩ := Option.isSome_iff_exists.mp hsome
    have hsize : sizeOf sz ty = size := by rw [sizeOf, hlayout]; rfl
    have halign : alignOf sz ty = align := by rw [alignOf, hlayout]; rfl
    rw [hsize] at hne
    simp only [unionVariants, hlayout, if_neg hne]
    rw [ih fun t ht => h t (List.mem_cons_of_mem _ ht)]
    simp [hsize, halign]

theorem foldl_max_le_iff {l : List ℕ} {m k : ℕ} : l.foldl max m ≤ k ↔ m ≤ k ∧ ∀ x ∈ l, x ≤ k := by
  induction l generalizing m with
  | nil => simp
  | cons x l ih =>
    rw [List.foldl_cons, ih, max_le_iff, List.forall_mem_cons, and_assoc]

/-- A size rounded up as in the union. -/
theorem rounded_eq {s a : ℕ} (ha : a ≠ 0) :
    (if s % a ≠ 0 then s + (a - s % a) else s) = roundUp s a := by
  have hlt := Nat.mod_lt s (Nat.pos_of_ne_zero ha)
  have hdm := Nat.div_add_mod s a
  split
  case isFalse h => exact (roundUp_of_dvd (Nat.dvd_of_mod_eq_zero (not_not.mp h))).symm
  case isTrue h =>
    have hmul : s + (a - s % a) = a * (s / a + 1) := by
      rw [mul_add, mul_one]
      omega
    apply le_antisymm
    · have hle := le_roundUp s a
      obtain ⟨k, hk⟩ := @dvd_roundUp s a ha
      have hkge : s / a + 1 ≤ k := by
        by_contra hlt'
        have hkle : k ≤ s / a := by omega
        have hmulle := Nat.mul_le_mul_left a hkle
        omega
      rw [hmul, hk]
      exact Nat.mul_le_mul_left a hkge
    · apply roundUp_le (Nat.le_add_right _ _)
      rw [hmul]
      exact Nat.dvd_mul_right _ _

/-- The layout of a union. -/
theorem union_valid_iff (h : ∀ ty ∈ tys, Known sz ty ∧ sizeOf sz ty ≠ sizeMax) :
    (∃ rv, makeTypeReprUnion sz tys = .ok (some rv) ∧
        rv.fields.map Field.ty = tys ∧ Contained sz archName 0 rv) ↔
      (∃ ty ∈ tys, alignOf sz ty ≠ 0) ∧
        roundUp ((tys.map (sizeOf sz)).foldl max 0) ((tys.map (alignOf sz)).foldl max 0) <
          2 ^ 64 := by
  rw [makeTypeReprUnion, unionVariants_eq h, List.nil_append]
  have hzero : (∃ ty ∈ tys, alignOf sz ty ≠ 0) ↔ (tys.map (alignOf sz)).foldl max 0 ≠ 0 := by
    have hle := @foldl_max_le_iff (tys.map (alignOf sz)) 0 0
    rw [Nat.le_zero] at hle
    rw [ne_eq, hle]
    simp
  rw [hzero]
  have hsizes (k : ℕ) : (tys.map (sizeOf sz)).foldl max 0 ≤ k ↔ ∀ ty ∈ tys, sizeOf sz ty ≤ k := by
    rw [foldl_max_le_iff]
    simp
  have halign : (tys.map (alignOf sz)).foldl max 0 ≤ sizeMax := by
    rw [foldl_max_le_iff]
    simpa using fun ty hty => (h ty hty).1.2.2
  generalize (tys.map (alignOf sz)).foldl max 0 = a at *
  generalize (tys.map (sizeOf sz)).foldl max 0 = s at *
  have hs : s ≤ sizeMax := (hsizes _).mpr fun ty hty => (h ty hty).1.2.1
  by_cases ha : a = 0
  · simp [ha, bind, Except.bind]
  have hrounded := @rounded_eq s a ha
  have hlt := Nat.mod_lt s (Nat.pos_of_ne_zero ha)
  have hres : (if s % a ≠ 0 then
        .ok (some ⟨a, (s + (a - s % a)) % 2 ^ 64, tys.map fun ty => ⟨0, ty⟩⟩)
      else .ok (some ⟨a, s, tys.map fun ty => ⟨0, ty⟩⟩) : Except Bug (Option (TypeRepr T))) =
      .ok (some ⟨a, roundUp s a % 2 ^ 64, tys.map fun ty => ⟨0, ty⟩⟩) := by
    split
    case isTrue hmod => rw [← hrounded, if_pos hmod]
    case isFalse hmod =>
      have hmodlt : s < 2 ^ 64 := by
        rw [sizeMax] at hs
        omega
      rw [← hrounded, if_neg hmod, Nat.mod_eq_of_lt hmodlt]
  simp only [bind, Except.bind, if_neg ha, hres]
  constructor
  · rintro ⟨rv, hrv, -, hcont⟩
    obtain rfl := Option.some.inj (Except.ok.inj hrv)
    refine ⟨ha, ?_⟩
    by_contra hge
    have hsle : s ≤ roundUp s a % 2 ^ 64 := by
      rw [hsizes]
      intro ty hty
      have hin := hcont.inside ⟨0, ty⟩ (List.mem_map_of_mem hty) (h ty hty).2
      rwa [zero_add] at hin
    have hle : roundUp s a ≤ s + a := by
      rw [← hrounded]
      split <;> omega
    rw [sizeMax] at hs halign
    omega
  · rintro ⟨-, hround⟩
    rw [Nat.mod_eq_of_lt hround]
    refine ⟨_, rfl, by simp [Function.comp_def], ?_, ?_, ?_⟩
    · intro f hf _
      obtain ⟨ty, -, rfl⟩ := List.mem_map.mp hf
      exact dvd_zero _
    · intro f hf _
      obtain ⟨ty, hty, rfl⟩ := List.mem_map.mp hf
      rw [zero_add]
      exact ((hsizes s).mp le_rfl ty hty).trans (le_roundUp s a)
    · exact fun _ => dvd_roundUp ha

end Union

section Struct

variable {T : Type} {sz : T → Option (ℕ × ℕ)} {archName : String} {tys : List T} {a s : ℕ}
  {fs fs' : List (Field T)} {sorting : FieldSorting T} {ss : StructSorting} {packed : ℕ}

theorem Contained.perm (h : Contained sz archName packed ⟨a, s, fs⟩) (hperm : fs.Perm fs') :
    Contained sz archName packed ⟨a, s, fs'⟩ where
  aligned f hf := h.aligned f (hperm.mem_iff.mpr hf)
  inside f hf := h.inside f (hperm.mem_iff.mpr hf)
  size_dvd hall := h.size_dvd fun f hf => hall f (hperm.mem_iff.mp hf)

theorem Separate.perm (h : Separate sz ⟨a, s, fs⟩) (hperm : fs.Perm fs') :
    Separate sz ⟨a, s, fs'⟩ where
  apart := (hperm.pairwise_iff fun hap hg hf => (hap hf hg).symm).mp h.apart
  unsized_last f hf g hg := h.unsized_last f (hperm.mem_iff.mpr hf) g (hperm.mem_iff.mpr hg)

/-- The list of the entries starts with those of the first types. -/
theorem entsOf_append (tys : List T) (ty : T) : entsOf sz 0 (tys ++ [ty]) =
    entsOf sz 0 tys ++
      [⟨some tys.length, sizeOf sz ty, alignOf sz ty, ty⟩] := by
  apply List.ext_getElem?
  intro i
  rw [getElem?_entsOf, List.getElem?_append, List.getElem?_append, length_entsOf, getElem?_entsOf]
  split
  case isTrue h => rfl
  case isFalse h =>
    by_cases hi : i = tys.length
    · simp [hi]
    · have hpos : i - tys.length ≠ 0 := by omega
      obtain ⟨k, hk⟩ := Nat.exists_eq_succ_of_ne_zero hpos
      simp [hk]

theorem recorded_of_mem {e : Ent T} {idx : ℕ} (h : e ∈ entsOf sz idx tys) :
    e.ty ∈ tys ∧ e.size = sizeOf sz e.ty ∧ e.align = alignOf sz e.ty := by
  obtain ⟨k, hk, heq⟩ := mem_entsOf h
  exact ⟨List.mem_of_getElem? hk, congrArg Ent.size heq, congrArg Ent.align heq⟩

/-- An unsized field stays last, unless all fields are sorted and another one has a larger alignment. -/
theorem sized_placed_iff (hsizes : ∀ ty ∈ tys, sizeOf sz ty ≤ sizeMax)
    (hsized : ∀ ty ∈ tys.dropLast, sizeOf sz ty ≠ sizeMax) :
    (∀ e ∈ (placedEnts sz sorting ss tys).dropLast, e.size ≠ sizeMax) ↔
      (ss = .all → ∀ ty ∈ tys, sizeOf sz ty = sizeMax → ∀ ty' ∈ tys,
        alignOf sz ty' ≤ alignOf sz ty) := by
  cases tys using List.reverseRecOn with
  | nil =>
    have hnil : placedEnts sz sorting ss ([] : List T) = [] := (sortEnts_perm _ _ _).eq_nil
    rw [hnil]
    simp
  | append_singleton tys ty =>
    rw [List.dropLast_concat] at hsized
    have hfirst : ∀ e ∈ entsOf sz 0 tys, e.size ≠ sizeMax := by
      intro e he
      obtain ⟨hty, hsize, -⟩ := recorded_of_mem he
      exact hsize ▸ hsized _ hty
    have hall : ∀ e ∈ entsOf sz 0 (tys ++ [ty]), e.size ≤ sizeMax := by
      intro e he
      obtain ⟨hty, hsize, -⟩ := recorded_of_mem he
      exact hsize ▸ hsizes _ hty
    cases ss with
    | none =>
      rw [placedEnts, sortEnts, entsOf_append, List.dropLast_concat]
      exact iff_of_true hfirst fun h => by cases h
    | allButFinal =>
      rw [placedEnts, sortEnts, entsOf_append, List.dropLast_concat, List.getLast?_concat, Option.toList_some,
        List.dropLast_concat]
      exact iff_of_true (fun e he => hfirst e ((sorting.perm _).mem_iff.mp he)) fun h => by cases h
    | all =>
      have hperm := sorting.perm (entsOf sz 0 (tys ++ [ty]))
      have hsort := sorting.sorted (entsOf sz 0 (tys ++ [ty]))
      have hne := (hperm.pairwise_iff fun h => h.symm).mpr (@pairwise_entsOf T sz (tys ++ [ty]) 0)
      rw [placedEnts, sortEnts]
      generalize sorting.sort (entsOf sz 0 (tys ++ [ty])) = es at *
      generalize hu : (⟨some tys.length, sizeOf sz ty, alignOf sz ty, ty⟩ : Ent T) = u
      have husize : u.size = sizeOf sz ty := by rw [← hu]
      have hualign : u.align = alignOf sz ty := by rw [← hu]
      have hents : entsOf sz 0 (tys ++ [ty]) = entsOf sz 0 tys ++ [u] := by
        rw [entsOf_append, hu]
      cases es using List.reverseRecOn with
      | nil =>
        rw [hents] at hperm
        exact absurd hperm.symm.eq_nil (by simp)
      | append_singleton init l =>
        rw [List.dropLast_concat]
        have hlast : ∀ e ∈ init, ¬sortfnStructFields l e := fun e he =>
          (List.pairwise_append.mp hsort).2.2 e he l List.mem_cons_self
        constructor
        · intro h _ t ht hmax t' ht'
          have hty : t = ty := by
            rcases List.mem_append.mp ht with ht | ht
            · exact absurd hmax (hsized t ht)
            · exact List.mem_singleton.mp ht
          rw [hty] at hmax ⊢
          have hmem : u ∈ init ++ [l] := hperm.mem_iff.mpr (hents ▸ List.mem_append_right _ List.mem_cons_self)
          have hul : u = l := by
            rcases List.mem_append.mp hmem with hmem | hmem
            · exact absurd (husize.trans hmax) (h u hmem)
            · exact List.mem_singleton.mp hmem
          obtain ⟨k, hk⟩ := List.mem_iff_getElem?.mp ht'
          have hent := @getElem?_entsOf T sz (tys ++ [ty]) 0 k
          rw [hk, Option.map_some] at hent
          rcases List.mem_append.mp (hperm.mem_iff.mpr (List.mem_of_getElem? hent)) with hin | hin
          · have hnot := hlast _ hin
            rw [sortfnStructFields, ← hul, hualign] at hnot
            by_contra hlt
            rw [if_pos (by simp only; omega)] at hnot
            simp only at hnot
            omega
          · have heq := congrArg Ent.align ((List.mem_singleton.mp hin).trans hul.symm)
            rw [hualign] at heq
            exact heq.le
        · intro h e he hmax
          have heu : e = u := by
            have hmem : e ∈ entsOf sz 0 tys ++ [u] := hents ▸ hperm.mem_iff.mp (List.mem_append_left _ he)
            rcases List.mem_append.mp hmem with hmem | hmem
            · exact absurd hmax (hfirst e hmem)
            · exact List.mem_singleton.mp hmem
          have hlmem : l ∈ entsOf sz 0 (tys ++ [ty]) :=
            hperm.mem_iff.mp (List.mem_append_right _ List.mem_cons_self)
          have hlne : l ≠ u := fun hl =>
            (List.pairwise_append.mp hne).2.2 e he l List.mem_cons_self (by rw [heu, hl])
          have hlsize : l.size ≠ sizeMax := by
            rw [hents] at hlmem
            rcases List.mem_append.mp hlmem with hmem | hmem
            · exact hfirst l hmem
            · exact absurd (List.mem_singleton.mp hmem) hlne
          have hlle := hall l hlmem
          obtain ⟨hlty, -, hla⟩ := recorded_of_mem hlmem
          have hlalign := h rfl ty (by simp) (by rw [← husize, ← heu, hmax]) l.ty hlty
          rw [← hla, ← hualign] at hlalign
          have hnot := hlast e he
          rw [sortfnStructFields, heu] at hnot
          rw [heu] at hmax
          by_cases heq : l.align = u.align
          · rw [if_neg (not_not.mpr heq)] at hnot
            omega
          · rw [if_pos heq] at hnot
            omega

/-- Without bounds each field lies at its alignment; on PowerPC the first one is at the start. -/
theorem placed_clamped {first : Bool} {n : ℕ} {es : List (Ent T)}
    (hn : archName = "powerpc" → first = true → n = 0) :
    ∀ p ∈ es.zip (offsets n (items archName packed first es)),
      clampedAlign archName packed p.1.size p.1.align ≠ 0 →
        clampedAlign archName packed p.1.size p.1.align ∣ p.2 := by
  induction es generalizing first n with
  | nil => exact fun p hp => absurd hp List.not_mem_nil
  | cons e es ih =>
    rw [items, offsets, List.zip_cons_cons]
    intro p hp
    rcases List.mem_cons.mp hp with rfl | hp
    · intro hne
      by_cases hstart : archName = "powerpc" ∧ first = true
      · rw [hn hstart.1 hstart.2, roundUp_zero]
        exact dvd_zero _
      · have heq : clampedAlign archName packed e.size e.align = (itemOf archName packed first e).align := by
          simp only [clampedAlign, itemOf, fieldAlign]
          by_cases hppc : archName = "powerpc" ∧ e.size > 0
          · have hfirst : first = false := by
              rw [not_and] at hstart
              exact Bool.eq_false_iff.mpr (hstart hppc.1)
            simp [hppc, hfirst]
          · have hembed : ¬(archName = "powerpc" ∧ e.size > 0 ∧ e.align ≥ 4 ∧ e.align ≤ 8) :=
              fun h => hppc ⟨h.1, h.2.1⟩
            simp only [if_neg hembed, if_neg hppc]
        rw [heq] at hne ⊢
        exact dvd_roundUp hne
    · apply ih _ p hp
      intro harch hfirst
      simp only [fieldAlign] at hfirst
      by_cases hsize : e.size > 0
      · simp [harch, hsize] at hfirst
      · rw [if_neg (fun h => hsize h.2)] at hfirst
        rw [hn harch hfirst, roundUp_zero, itemOf]
        simp only
        omega

/-- Fields with the sizes and the offsets of items are right when the items are. -/
theorem fields_right_iff {its : List Item} {rv : TypeRepr T} {offs : List ℕ}
    (h : rv.fields.map (fun f => (sizeOf sz f.ty, f.offset)) =
      (its.zip offs).map fun p => (p.1.size, p.2)) :
    ItemsValid rv.align rv.size (its.zip offs) ↔
      (∀ f ∈ rv.fields, sizeOf sz f.ty ≠ sizeMax → f.offset + sizeOf sz f.ty ≤ rv.size) ∧
        Separate sz rv ∧
        ((∀ f ∈ rv.fields, sizeOf sz f.ty ≠ sizeMax) → rv.align ∣ rv.size) := by
  have hall (q : ℕ × ℕ → Prop) : (∀ p ∈ its.zip offs, q (p.1.size, p.2)) ↔
      ∀ f ∈ rv.fields, q (sizeOf sz f.ty, f.offset) := by
    rw [← List.forall_mem_map (f := fun p : Item × ℕ => (p.1.size, p.2)), ← h, List.forall_mem_map]
  have hpair (r : ℕ × ℕ → ℕ × ℕ → Prop) :
      (its.zip offs).Pairwise (fun p q => r (p.1.size, p.2) (q.1.size, q.2)) ↔
        rv.fields.Pairwise fun f g => r (sizeOf sz f.ty, f.offset) (sizeOf sz g.ty, g.offset) := by
    rw [← List.pairwise_map (f := fun p : Item × ℕ => (p.1.size, p.2)), ← h, List.pairwise_map]
  have hinside := hall fun x => x.1 ≠ sizeMax → x.2 + x.1 ≤ rv.size
  have hapart := hpair fun x y => x.1 ≠ sizeMax → y.1 ≠ sizeMax → x.2 + x.1 ≤ y.2 ∨ y.2 + y.1 ≤ x.2
  have hlast (x : ℕ × ℕ) := hall fun y => x.1 = sizeMax → y.1 ≠ sizeMax → y.2 + y.1 ≤ x.2
  have hlast' := hall fun x => ∀ f ∈ rv.fields, x.1 = sizeMax → sizeOf sz f.ty ≠ sizeMax →
    f.offset + sizeOf sz f.ty ≤ x.2
  have hdvd := hall fun x => x.1 ≠ sizeMax
  constructor
  · intro hv
    refine ⟨hinside.mp hv.inside, ⟨hapart.mp hv.apart, hlast'.mp fun p hp => ?_⟩,
      fun hs => hv.size_dvd (hdvd.mpr hs)⟩
    exact (hlast (p.1.size, p.2)).mp (hv.unsized_last p hp)
  · rintro ⟨hin, hsep, hsize⟩
    refine ⟨hinside.mpr hin, hapart.mpr hsep.apart, fun p hp => ?_, fun hs => hsize (hdvd.mp hs)⟩
    exact (hlast (p.1.size, p.2)).mpr (hlast'.mpr hsep.unsized_last p hp)

/-- The layout of a struct or a tuple. -/
theorem struct_valid_iff {forcedAlignment : ℕ} (hknown : ∀ ty ∈ tys, Known sz ty)
    (hsized : ∀ ty ∈ tys.dropLast, sizeOf sz ty ≠ sizeMax) :
    (∃ rv, makeTypeReprStructInner archName sorting (entsOf sz 0 tys) ss forcedAlignment packed = .ok rv ∧
        rv.fields.map Field.ty = tys ∧ Contained sz archName packed rv ∧ Separate sz rv) ↔
      StructCondition sz archName sorting ss forcedAlignment packed tys := by
  have hiff := @sized_placed_iff T sz tys sorting ss (fun ty hty => (hknown ty hty).2.1) hsized
  rw [StructCondition, ← hiff]
  by_cases hlast : ∀ e ∈ (placedEnts sz sorting ss tys).dropLast, e.size ≠ sizeMax
  case neg =>
    refine iff_of_false ?_ fun h => hlast h.1
    rintro ⟨rv, hrv, -⟩
    exact hlast (sized_of_inner hrv)
  obtain ⟨fs, hrun, htys, hperm⟩ := @inner_ok T sz tys archName sorting ss forcedAlignment packed hlast
  have hents : ∀ e ∈ placedEnts sz sorting ss tys, e.ty ∈ tys ∧ e.size = sizeOf sz e.ty ∧
      e.align = alignOf sz e.ty := fun e he => recorded_of_mem ((sortEnts_perm _ _ _).mem_iff.mp he)
  generalize placedEnts sz sorting ss tys = es at *
  have hsizes := map_size_items archName packed true es
  have hclamped := @placed_clamped T archName packed true 0 es fun _ _ => rfl
  generalize items archName packed true es = its at *
  have hitems : ∀ it ∈ its.dropLast, it.size ≠ sizeMax := by
    have hdrop : its.dropLast.map Item.size = es.dropLast.map Ent.size := by
      rw [List.map_dropLast, List.map_dropLast, hsizes]
    intro it hit hmax
    have hmem := List.mem_map_of_mem (f := Item.size) hit
    rw [hdrop] at hmem
    obtain ⟨e, he, heq⟩ := List.mem_map.mp hmem
    exact hlast e he (heq.trans hmax)
  have hzip : its.length = (cursors 0 its).length := (length_cursors 0 its).symm
  have hmap : ((es.zip (cursors 0 its)).map fun p => (⟨p.2, p.1.ty⟩ : Field T)).map
      (fun f => (sizeOf sz f.ty, f.offset)) = (its.zip (cursors 0 its)).map fun p => (p.1.size, p.2) := by
    have hsame : (es.zip (cursors 0 its)).map (fun p => (p.1.size, p.2)) =
        (its.zip (cursors 0 its)).map fun p => (p.1.size, p.2) := by
      have hes := @List.zip_map_left _ _ _ Ent.size es (cursors 0 its)
      rw [← hsizes, List.zip_map_left] at hes
      exact hes.symm
    rw [List.map_map, ← hsame]
    apply List.map_congr_left
    intro p hp
    rw [(hents p.1 (List.of_mem_zip hp).1).2.1]
    rfl
  have hunsized : (∃ ty ∈ tys, sizeOf sz ty = sizeMax) ↔ ∃ it ∈ its, it.size = sizeMax := by
    have hperm' := hperm.map fun f => (sizeOf sz f.ty, f.offset)
    rw [hmap] at hperm'
    have hperm'' := hperm'.map Prod.fst
    rw [List.map_map, List.map_map] at hperm''
    have hfst : (its.zip (cursors 0 its)).map (Prod.fst ∘ fun p => (p.1.size, p.2)) = its.map Item.size := by
      conv_rhs => rw [← List.map_fst_zip hzip.le, List.map_map]
      rfl
    have htys' : fs.map (Prod.fst ∘ fun f => (sizeOf sz f.ty, f.offset)) =
        tys.map (sizeOf sz) := by
      rw [← htys, List.map_map]
      rfl
    rw [hfst, htys'] at hperm''
    rw [← List.mem_map, ← List.mem_map]
    exact hperm''.mem_iff
  have hvalid := itemsValid_iff (structAlign_pos forcedAlignment its) hitems
  simp only [hunsized]
  rw [← hvalid]
  constructor
  · rintro ⟨rv, hrv, -, hcont, hsep⟩
    obtain rfl := Except.ok.inj (hrun.symm.trans hrv)
    have hcont' := hcont.perm hperm
    exact ⟨hlast, (fields_right_iff hmap).mpr ⟨hcont'.inside, hsep.perm hperm, hcont'.size_dvd⟩⟩
  · rintro ⟨-, hitems'⟩
    obtain ⟨hin, hsep, hdvd⟩ := (@fields_right_iff T sz its ⟨structAlign forcedAlignment its,
      structSize (structAlign forcedAlignment its) its, _⟩ _ hmap).mp hitems'
    have hextent : extent its < 2 ^ 64 := by
      have hlt := hvalid.mp hitems'
      split at hlt
      · exact hlt
      · exact (le_roundUp _ _).trans_lt hlt
    rw [← cursors_eq_offsets hitems hextent] at hclamped
    have hcont : Contained sz archName packed ⟨structAlign forcedAlignment its,
        structSize (structAlign forcedAlignment its) its,
        (es.zip (cursors 0 its)).map fun p => (⟨p.2, p.1.ty⟩ : Field T)⟩ := by
      refine ⟨?_, hin, hdvd⟩
      intro f hf
      obtain ⟨p, hp, rfl⟩ := List.mem_map.mp hf
      obtain ⟨-, hsize, halign⟩ := hents p.1 (List.of_mem_zip hp).1
      rw [← hsize, ← halign]
      exact hclamped p hp
    exact ⟨_, hrun, htys, hcont.perm hperm.symm, hsep.perm hperm.symm⟩

end Struct

section Examples

/-- A stable sort of the fields. -/
def stableFieldSorting (T : Type) : FieldSorting T where
  sort es := es.mergeSort fun a b => decide (toLex (a.align, a.size) ≤ toLex (b.align, b.size))
  perm es := List.mergeSort_perm _ _
  sorted es := by
    have hsorted : (es.mergeSort fun a b => decide (toLex (a.align, a.size) ≤ toLex (b.align, b.size))).Pairwise
        fun a b => decide (toLex (a.align, a.size) ≤ toLex (b.align, b.size)) = true :=
      List.pairwise_mergeSort (by simpa using fun a b c => le_trans) (by simpa using fun a b => le_total _ _) es
    apply hsorted.imp
    intro a b hle hlt
    have hle' := of_decide_eq_true hle
    rw [Prod.Lex.toLex_le_toLex] at hle'
    rw [sortfnStructFields] at hlt
    split at hlt <;> omega

/-- A byte and a word of four bytes. -/
def byteAndWord : Struct (ℕ × ℕ) := ⟨[(1, 1), (4, 4)], .c, false, 0, 0⟩

end Examples

end Mrustc.Trans
