import Mrustc.Trans.RunningOffset

/-! # The fields of a struct

What the loop over the entries leaves in the fields.
-/

namespace Mrustc.Trans

open Layout

section Loop

variable {T : Type} {archName : String} {packed i : ℕ} {isLast : Bool} {st st' : LayoutState T} {e : Ent T}
  {es : List (Ent T)}

/-- An entry as the loop places it. -/
def itemOf (archName : String) (packed : ℕ) (first : Bool) (e : Ent T) : Item :=
  ⟨e.size, (fieldAlign archName packed first e.size e.align).1⟩

def items (archName : String) (packed : ℕ) : Bool → List (Ent T) → List Item
  | _, [] => []
  | first, e :: es =>
    itemOf archName packed first e :: items archName packed (fieldAlign archName packed first e.size e.align).2 es

@[simp] theorem length_items (archName : String) (packed : ℕ) (first : Bool) (es : List (Ent T)) :
    (items archName packed first es).length = es.length := by
  induction es generalizing first with
  | nil => rfl
  | cons e es ih => rw [items, List.length_cons, List.length_cons, ih]

theorem map_size_items (archName : String) (packed : ℕ) (first : Bool) (es : List (Ent T)) :
    (items archName packed first es).map Item.size = es.map Ent.size := by
  induction es generalizing first with
  | nil => rfl
  | cons e es ih =>
    rw [items, List.map_cons, List.map_cons, ih]
    rfl

theorem placeEnt_eq (hfield : e.field = some i) (hslot : st.fields[i]? = some none)
    (hlast : isLast = true ∨ e.size ≠ sizeMax) :
    placeEnt archName packed isLast st e =
      .ok ⟨cursorAfter (cursorAt st.curOfs (itemOf archName packed st.isFirstField e))
          (itemOf archName packed st.isFirstField e),
        max st.maxAlign (itemOf archName packed st.isFirstField e).align,
        (fieldAlign archName packed st.isFirstField e.size e.align).2,
        st.fields.set i (some ⟨cursorAt st.curOfs (itemOf archName packed st.isFirstField e), e.ty⟩)⟩ := by
  have hcheck : ¬(e.size = sizeMax ∧ isLast = false) := by
    rintro ⟨h1, h2⟩
    rcases hlast with h | h
    · rw [h] at h2
      cases h2
    · exact h h1
  simp only [placeEnt, setField, hfield, hslot, bind, Except.bind, if_neg hcheck]
  rfl

/-- An unsized entry before the last one stops the loop. -/
theorem sized_of_placeEnts (h : placeEnts archName packed es st = .ok st') :
    ∀ e ∈ es.dropLast, e.size ≠ sizeMax := by
  induction es generalizing st with
  | nil => simp
  | cons e es ih =>
    cases hstep : placeEnt archName packed es.isEmpty st e with
    | error b =>
      simp only [placeEnts, hstep, bind, Except.bind] at h
      cases h
    | ok st₁ =>
      simp only [placeEnts, hstep, bind, Except.bind] at h
      cases es with
      | nil => simp
      | cons e' es' =>
        rw [List.dropLast_cons_of_ne_nil (List.cons_ne_nil e' es')]
        intro x hx
        rcases List.mem_cons.mp hx with rfl | hx
        · intro hsize
          simp only [placeEnt, bind, Except.bind] at hstep
          split at hstep
          · cases hstep
          · simp [hsize] at hstep
        · exact ih h x hx

theorem placeEnts_eq (hsized : ∀ e ∈ es.dropLast, e.size ≠ sizeMax)
    (hfields : ∀ e ∈ es, ∃ i, e.field = some i ∧ st.fields[i]? = some none)
    (hne : es.Pairwise fun a b => a.field ≠ b.field) :
    ∃ st', placeEnts archName packed es st = .ok st' ∧
      st'.curOfs = lastCursor st.curOfs (items archName packed st.isFirstField es) ∧
      st'.maxAlign = ((items archName packed st.isFirstField es).map Item.align).foldl max st.maxAlign ∧
      st'.fields.length = st.fields.length ∧
      (∀ p ∈ es.zip (cursors st.curOfs (items archName packed st.isFirstField es)), ∀ i, p.1.field = some i →
        st'.fields[i]? = some (some ⟨p.2, p.1.ty⟩)) ∧
      ∀ i, (∀ e ∈ es, e.field ≠ some i) → st'.fields[i]? = st.fields[i]? := by
  induction es generalizing st with
  | nil => exact ⟨st, rfl, rfl, rfl, rfl, fun p hp => absurd hp List.not_mem_nil, fun _ _ => rfl⟩
  | cons e es ih =>
    rw [List.pairwise_cons] at hne
    obtain ⟨i, hi, hslot⟩ := hfields e List.mem_cons_self
    have hlast : es.isEmpty = true ∨ e.size ≠ sizeMax := by
      cases es with
      | nil => exact .inl rfl
      | cons e' es' =>
        apply Or.inr
        apply hsized
        rw [List.dropLast_cons_of_ne_nil (List.cons_ne_nil e' es')]
        exact List.mem_cons_self
    have hstep := @placeEnt_eq T archName packed i _ st e hi hslot hlast
    generalize hst : (⟨cursorAfter (cursorAt st.curOfs (itemOf archName packed st.isFirstField e))
          (itemOf archName packed st.isFirstField e),
        max st.maxAlign (itemOf archName packed st.isFirstField e).align,
        (fieldAlign archName packed st.isFirstField e.size e.align).2,
        st.fields.set i (some ⟨cursorAt st.curOfs (itemOf archName packed st.isFirstField e), e.ty⟩)⟩ :
          LayoutState T) = st₁ at hstep
    have hset : st₁.fields = st.fields.set i
        (some ⟨cursorAt st.curOfs (itemOf archName packed st.isFirstField e), e.ty⟩) := by rw [← hst]
    have hfirst : st₁.isFirstField = (fieldAlign archName packed st.isFirstField e.size e.align).2 := by rw [← hst]
    have hcur : st₁.curOfs = cursorAfter (cursorAt st.curOfs (itemOf archName packed st.isFirstField e))
        (itemOf archName packed st.isFirstField e) := by rw [← hst]
    have hsized' : ∀ x ∈ es.dropLast, x.size ≠ sizeMax := by
      intro x hx
      apply hsized
      cases es with
      | nil => cases hx
      | cons e' es' =>
        rw [List.dropLast_cons_of_ne_nil (List.cons_ne_nil e' es')]
        exact List.mem_cons_of_mem _ hx
    have hfields' : ∀ x ∈ es, ∃ k, x.field = some k ∧ st₁.fields[k]? = some none := by
      intro x hx
      obtain ⟨k, hk, hslot'⟩ := hfields x (List.mem_cons_of_mem _ hx)
      have hik : i ≠ k := fun h => hne.1 x hx (by rw [hi, hk, h])
      exact ⟨k, hk, by rw [hset, List.getElem?_set_ne hik, hslot']⟩
    obtain ⟨st', hrun, hcur', hmax', hlen', hin', hout'⟩ := ih hsized' hfields' hne.2
    rw [hfirst] at hcur' hmax' hin'
    rw [hcur] at hcur' hin'
    refine ⟨st', ?_, hcur', ?_, ?_, ?_, ?_⟩
    · simp only [placeEnts, hstep, bind, Except.bind]
      exact hrun
    · rw [hmax', ← hst]
      rfl
    · rw [hlen', hset, List.length_set]
    · intro p hp k hk
      rw [items, cursors, List.zip_cons_cons] at hp
      rcases List.mem_cons.mp hp with rfl | hp
      · obtain rfl : i = k := Option.some.inj (hi.symm.trans hk)
        have hlt : i < st.fields.length := (List.getElem?_eq_some_iff.mp hslot).1
        rw [hout' i fun x hx h => hne.1 x hx (hi.trans h.symm), hset, List.getElem?_set_self hlt]
      · exact hin' p hp k hk
    · intro k hk
      have hik : i ≠ k := fun h => hk e List.mem_cons_self (h ▸ hi)
      rw [hout' k fun x hx => hk x (List.mem_cons_of_mem _ hx), hset, List.getElem?_set_ne hik]

end Loop

/-! ## The whole list -/

section Entries

variable {T : Type} {sz : T → Option (ℕ × ℕ)} {tys : List T} {idx k : ℕ}

/-- The size of a type with a known layout. -/
def sizeOf (sz : T → Option (ℕ × ℕ)) (ty : T) : ℕ := ((sz ty).getD (0, 0)).1

def alignOf (sz : T → Option (ℕ × ℕ)) (ty : T) : ℕ := ((sz ty).getD (0, 0)).2

/-- The entries of types with known layouts. -/
def entsOf (sz : T → Option (ℕ × ℕ)) : (idx : ℕ) → List T → List (Ent T)
  | _, [] => []
  | idx, ty :: tys => ⟨some idx, sizeOf sz ty, alignOf sz ty, ty⟩ :: entsOf sz (idx + 1) tys

theorem enumerateFields_eq (h : ∀ ty ∈ tys, (sz ty).isSome) :
    enumerateFields sz idx tys = some (entsOf sz idx tys) := by
  induction tys generalizing idx with
  | nil => rfl
  | cons ty tys ih =>
    obtain ⟨⟨size, align⟩, hlayout⟩ := Option.isSome_iff_exists.mp (h ty List.mem_cons_self)
    have hrest := @ih (idx + 1) fun t ht => h t (List.mem_cons_of_mem _ ht)
    simp [enumerateFields, entsOf, sizeOf, alignOf, hlayout, hrest]

@[simp] theorem length_entsOf : (entsOf sz idx tys).length = tys.length := by
  induction tys generalizing idx with
  | nil => rfl
  | cons ty tys ih => rw [entsOf, List.length_cons, List.length_cons, ih]

theorem getElem?_entsOf : (entsOf sz idx tys)[k]? =
    tys[k]?.map fun ty => ⟨some (idx + k), sizeOf sz ty, alignOf sz ty, ty⟩ := by
  induction tys generalizing idx k with
  | nil => rfl
  | cons ty tys ih =>
    cases k with
    | zero => rfl
    | succ k =>
      have hidx : idx + 1 + k = idx + (k + 1) := by omega
      rw [entsOf, List.getElem?_cons_succ, List.getElem?_cons_succ, ih, hidx]

/-- What an entry of the list records. -/
theorem mem_entsOf {e : Ent T} (h : e ∈ entsOf sz idx tys) :
    ∃ k, tys[k]? = some e.ty ∧ e = ⟨some (idx + k), sizeOf sz e.ty, alignOf sz e.ty, e.ty⟩ := by
  obtain ⟨k, hk⟩ := List.mem_iff_getElem?.mp h
  rw [getElem?_entsOf, Option.map_eq_some_iff] at hk
  obtain ⟨ty, hty, rfl⟩ := hk
  exact ⟨k, hty, rfl⟩

theorem pairwise_entsOf : (entsOf sz idx tys).Pairwise fun a b => a.field ≠ b.field := by
  induction tys generalizing idx with
  | nil => exact .nil
  | cons ty tys ih =>
    rw [entsOf, List.pairwise_cons]
    refine ⟨fun e he => ?_, ih⟩
    obtain ⟨k, -, hk⟩ := mem_entsOf he
    rw [hk]
    simp only [ne_eq, Option.some.injEq]
    omega

theorem filterMap_entsOf : (entsOf sz idx tys).filterMap Ent.field = List.range' idx tys.length := by
  induction tys generalizing idx with
  | nil => rfl
  | cons ty tys ih => rw [entsOf, List.filterMap_cons, ih]; rfl

theorem foldl_max_range' (n m : ℕ) : (List.range' 0 (n + 1)).foldl max m = max m n := by
  induction n with
  | zero => simp
  | succ n ih =>
    rw [List.range'_concat, List.foldl_append, ih]
    simp

/-- There is one slot for each type. -/
theorem slots_eq {es : List (Ent T)} (h : es.Perm (entsOf sz 0 tys)) :
    (if es.length > 0 then (es.filterMap Ent.field).foldl max 0 + 1 else 0) = tys.length := by
  have hlen : es.length = tys.length := h.length_eq.trans length_entsOf
  have hmax : (es.filterMap Ent.field).foldl max 0 = (List.range' 0 tys.length).foldl max 0 := by
    rw [← @filterMap_entsOf T sz tys 0]
    exact (h.filterMap _).foldl_eq 0
  rw [hlen, hmax]
  cases htys : tys.length with
  | zero => rfl
  | succ n => rw [foldl_max_range', if_pos (Nat.succ_pos n), Nat.zero_max]

theorem mapM_slots {fields : List (Option (Field T))} (h : ∀ x ∈ fields, x ≠ none) :
    ∃ fs, (fields.mapM fun f => f.elim (.error .uninitialisedField) .ok : Except Bug (List (Field T))) = .ok fs ∧
      fields = fs.map some := by
  induction fields with
  | nil => exact ⟨[], rfl, rfl⟩
  | cons x fields ih =>
    obtain ⟨fs, hfs, hmap⟩ := ih fun y hy => h y (List.mem_cons_of_mem _ hy)
    obtain ⟨f, rfl⟩ := Option.ne_none_iff_exists'.mp (h x List.mem_cons_self)
    refine ⟨f :: fs, ?_, by rw [List.map_cons, hmap]⟩
    rw [List.mapM_cons, hfs]
    rfl

end Entries

section Inner

variable {T : Type} {sz : T → Option (ℕ × ℕ)} {tys : List T} {archName : String}
  {sorting : FieldSorting T} {structSorting : StructSorting} {forcedAlignment maxAlignment : ℕ} {rv : TypeRepr T}

/-- The alignment of a struct with the items. -/
def structAlign (forcedAlignment : ℕ) (its : List Item) : ℕ :=
  if forcedAlignment > 0 then max ((its.map Item.align).foldl max 1) forcedAlignment
  else (its.map Item.align).foldl max 1

theorem le_foldl_max (l : List ℕ) (m : ℕ) : m ≤ l.foldl max m := by
  induction l generalizing m with
  | nil => exact le_rfl
  | cons x l ih => exact (le_max_left m x).trans (ih _)

theorem structAlign_pos (forcedAlignment : ℕ) (its : List Item) : 0 < structAlign forcedAlignment its := by
  have hone := le_foldl_max (its.map Item.align) 1
  rw [structAlign]
  split <;> omega

theorem sortEnts_perm (sorting : FieldSorting T) (structSorting : StructSorting) (es : List (Ent T)) :
    (sortEnts sorting structSorting es).Perm es := by
  cases structSorting with
  | none => exact .refl _
  | all => exact sorting.perm es
  | allButFinal =>
    cases es using List.reverseRecOn with
    | nil => simpa [sortEnts] using sorting.perm []
    | append_singleton es e =>
      simpa [sortEnts] using (sorting.perm es).append_right [e]

theorem exists_mem_zip {α β : Type} {l : List α} {l' : List β} (hlen : l.length = l'.length) {x : α}
    (hx : x ∈ l) :
    ∃ y, (x, y) ∈ l.zip l' := by
  have hmap : (l.zip l').map Prod.fst = l := List.map_fst_zip hlen.le
  rw [← hmap] at hx
  obtain ⟨⟨x', y⟩, hp, rfl⟩ := List.mem_map.mp hx
  exact ⟨y, hp⟩

/-- The entries in the order of their placement, and as items. -/
def placedEnts (sz : T → Option (ℕ × ℕ)) (sorting : FieldSorting T) (structSorting : StructSorting)
    (tys : List T) : List (Ent T) :=
  sortEnts sorting structSorting (entsOf sz 0 tys)

/-- Each field gets the offset of its entry. -/
theorem inner_ok
    (hsized : ∀ e ∈ (placedEnts sz sorting structSorting tys).dropLast, e.size ≠ sizeMax) :
    ∃ fs, makeTypeReprStructInner archName sorting (entsOf sz 0 tys) structSorting forcedAlignment
        maxAlignment =
      .ok ⟨structAlign forcedAlignment (items archName maxAlignment true
            (placedEnts sz sorting structSorting tys)),
          structSize (structAlign forcedAlignment (items archName maxAlignment true
              (placedEnts sz sorting structSorting tys)))
            (items archName maxAlignment true (placedEnts sz sorting structSorting tys)), fs⟩ ∧
      fs.map Field.ty = tys ∧
      fs.Perm (((placedEnts sz sorting structSorting tys).zip
        (cursors 0 (items archName maxAlignment true (placedEnts sz sorting structSorting tys)))).map
          fun p => ⟨p.2, p.1.ty⟩) := by
  have hperm : (placedEnts sz sorting structSorting tys).Perm (entsOf sz 0 tys) :=
    sortEnts_perm _ _ _
  rw [makeTypeReprStructInner]
  simp only [← placedEnts.eq_1]
  rw [slots_eq hperm]
  generalize placedEnts sz sorting structSorting tys = es at *
  have hmem {e : Ent T} (he : e ∈ es) : ∃ k, e.field = some k ∧ tys[k]? = some e.ty := by
    obtain ⟨k, hk, heq⟩ := mem_entsOf (hperm.mem_iff.mp he)
    exact ⟨k, by rw [heq, Nat.zero_add], hk⟩
  have hfields : ∀ e ∈ es, ∃ k, e.field = some k ∧
      (List.replicate tys.length (none : Option (Field T)))[k]? = some none := by
    intro e he
    obtain ⟨k, hk, hty⟩ := hmem he
    exact ⟨k, hk, List.getElem?_replicate_of_lt (List.getElem?_eq_some_iff.mp hty).1⟩
  have hne : es.Pairwise fun a b => a.field ≠ b.field :=
    (hperm.pairwise_iff fun h => h.symm).mpr pairwise_entsOf
  obtain ⟨st, hrun, hcur, hmax, hlen, hin, -⟩ :=
    @placeEnts_eq T archName maxAlignment ⟨0, 1, true, List.replicate tys.length none⟩ es hsized hfields hne
  simp only at hcur hmax hlen hin
  rw [List.length_replicate] at hlen
  generalize hoffs : cursors 0 (items archName maxAlignment true es) = offs at *
  have hzip : es.length = offs.length := by rw [← hoffs, length_cursors, length_items]
  -- the slot of each type
  have hslot {i : ℕ} (hi : i < tys.length) : ∃ p ∈ es.zip offs, p.1.field = some i ∧ p.1.ty = tys[i] ∧
      (entsOf sz 0 tys)[i]? = some p.1 := by
    have hent : (entsOf sz 0 tys)[i]? = some ⟨some i, sizeOf sz tys[i],
        alignOf sz tys[i], tys[i]⟩ := by
      rw [getElem?_entsOf, List.getElem?_eq_getElem hi, Nat.zero_add]
      rfl
    obtain ⟨o, ho⟩ := exists_mem_zip hzip (hperm.mem_iff.mpr (List.mem_of_getElem? hent))
    exact ⟨_, ho, rfl, rfl, hent⟩
  obtain ⟨fs, hfs, hsome⟩ := @mapM_slots T st.fields (by
    intro x hx hnone
    obtain ⟨i, hi⟩ := List.mem_iff_getElem?.mp hx
    have hlt : i < tys.length := hlen ▸ (List.getElem?_eq_some_iff.mp hi).1
    obtain ⟨p, hp, hfield, -⟩ := hslot hlt
    have := hin p hp i hfield
    rw [hi, hnone] at this
    cases this)
  have hget {p : Ent T × ℕ} (hp : p ∈ es.zip offs) {i : ℕ} (hi : p.1.field = some i) :
      fs[i]? = some ⟨p.2, p.1.ty⟩ := by
    have := hin p hp i hi
    rw [hsome, List.getElem?_map, Option.map_eq_some_iff] at this
    obtain ⟨f, hf, heq⟩ := this
    rw [hf, ← Option.some.inj heq]
  have hfslen : fs.length = tys.length := by rw [← hlen, hsome, List.length_map]
  refine ⟨fs, ?_, ?_, ?_⟩
  · simp only [hrun, hfs, bind, Except.bind, hcur, hmax]
    rfl
  · apply List.ext_getElem?
    intro i
    by_cases hi : i < tys.length
    · obtain ⟨p, hp, hfield, hty, -⟩ := hslot hi
      rw [List.getElem?_map, hget hp hfield, List.getElem?_eq_getElem hi, ← hty]
      rfl
    · rw [List.getElem?_eq_none (by rw [List.length_map]; omega), List.getElem?_eq_none (by omega)]
  · have hfield : (es.zip offs).map (fun p => (⟨p.2, p.1.ty⟩ : Field T)) =
        es.map fun e => ⟨((e.field.bind (fs[·]?)).map Field.offset).getD 0, e.ty⟩ := by
      have hfst : es = (es.zip offs).map Prod.fst := (List.map_fst_zip hzip.le).symm
      conv_rhs => rw [hfst, List.map_map]
      apply List.map_congr_left
      intro p hp
      obtain ⟨k, hk, -⟩ := hmem (List.of_mem_zip hp).1
      simp [hk, hget hp hk]
    have hall : fs = (entsOf sz 0 tys).map
        fun e => ⟨((e.field.bind (fs[·]?)).map Field.offset).getD 0, e.ty⟩ := by
      apply List.ext_getElem?
      intro i
      by_cases hi : i < tys.length
      · obtain ⟨p, hp, hfield, -, hent⟩ := hslot hi
        rw [List.getElem?_map, hent, hget hp hfield]
        simp [hfield, hget hp hfield]
      · rw [List.getElem?_eq_none (by omega), List.getElem?_eq_none (by rw [List.length_map, length_entsOf]; omega)]
    rw [hfield]
    conv_lhs => rw [hall]
    exact (hperm.map _).symm

theorem sized_of_inner (h : makeTypeReprStructInner archName sorting (entsOf sz 0 tys) structSorting
      forcedAlignment maxAlignment = .ok rv) :
    ∀ e ∈ (placedEnts sz sorting structSorting tys).dropLast, e.size ≠ sizeMax := by
  simp only [makeTypeReprStructInner, ← placedEnts.eq_1, bind, Except.bind] at h
  split at h
  · cases h
  · exact sized_of_placeEnts ‹_›

end Inner

end Mrustc.Trans
