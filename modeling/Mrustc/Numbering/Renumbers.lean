import Mathlib.Tactic

/-! # Renumbering what is kept of a list

Some elements of a list are kept and get new positions. Of two renumberings
that keep as much neither keeps more.
-/

namespace Mrustc.Numbering

variable {α β γ : Type} {R : α → β → Prop} {kept : ℕ → Prop} {g : ℕ → Option ℕ} {xs : List α} {ys : List β}

/-- The kept elements of the first list are those of the second one, at their new positions. -/
structure Renumbers (R : α → β → Prop) (kept : ℕ → Prop) (g : ℕ → Option ℕ) (xs : List α) (ys : List β) :
    Prop where
  isSome_iff (i : ℕ) : (g i).isSome ↔ kept i
  injective {i j k : ℕ} (hi : g i = some k) (hj : g j = some k) : i = j
  related {i k : ℕ} (h : g i = some k) : ∃ x y, xs[i]? = some x ∧ ys[k]? = some y ∧ R x y
  onto {k : ℕ} (h : k < ys.length) : ∃ i, g i = some k

namespace Renumbers

theorem exists_new (h : Renumbers R kept g xs ys) {i : ℕ} (hi : kept i) : ∃ k, g i = some k :=
  Option.isSome_iff_exists.mp ((h.isSome_iff i).mpr hi)

theorem kept_of_new (h : Renumbers R kept g xs ys) {i k : ℕ} (hi : g i = some k) : kept i :=
  (h.isSome_iff i).mp (by rw [hi]; rfl)

theorem old_lt (h : Renumbers R kept g xs ys) {i k : ℕ} (hi : g i = some k) : i < xs.length := by
  obtain ⟨x, -, hx, -⟩ := h.related hi
  exact (List.getElem?_eq_some_iff.mp hx).1

theorem new_lt (h : Renumbers R kept g xs ys) {i k : ℕ} (hi : g i = some k) : k < ys.length := by
  obtain ⟨-, y, -, hy, -⟩ := h.related hi
  exact (List.getElem?_eq_some_iff.mp hy).1

theorem imp {R' : α → β → Prop} (h : Renumbers R kept g xs ys) (hR : ∀ x y, R x y → R' x y) :
    Renumbers R' kept g xs ys where
  isSome_iff := h.isSome_iff
  injective := h.injective
  related hi := by
    obtain ⟨x, y, hx, hy, hxy⟩ := h.related hi
    exact ⟨x, y, hx, hy, hR x y hxy⟩
  onto := h.onto

theorem congr_kept {kept' : ℕ → Prop} (h : Renumbers R kept g xs ys) (hk : ∀ i, kept i ↔ kept' i) :
    Renumbers R kept' g xs ys where
  isSome_iff i := (h.isSome_iff i).trans (hk i)
  injective := h.injective
  related := h.related
  onto := h.onto

/-- What is renumbered may be replaced at its new position. -/
theorem replace {g : ℕ → Option ℕ} {ys : List α} {zs : List β} (h : Renumbers (· = ·) kept g xs ys)
    (hlen : zs.length = ys.length)
    (hR : ∀ (k : ℕ) (y : α), ys[k]? = some y → ∃ z, zs[k]? = some z ∧ R y z) : Renumbers R kept g xs zs where
  isSome_iff := h.isSome_iff
  injective := h.injective
  related hi := by
    obtain ⟨x, y, hx, hy, rfl⟩ := h.related hi
    obtain ⟨z, hz, hxz⟩ := hR _ x hy
    exact ⟨x, z, hx, hz, hxz⟩
  onto hk := h.onto (hlen ▸ hk)

/-- Renumbering what was renumbered. -/
theorem trans {Q : β → γ → Prop} {g' : ℕ → Option ℕ} {zs : List γ} (h : Renumbers R kept g xs ys)
    (h' : Renumbers Q (· < ys.length) g' ys zs) :
    Renumbers (Relation.Comp R Q) kept (fun i => (g i).bind g') xs zs where
  isSome_iff i := by
    rw [← h.isSome_iff]
    cases hi : g i with
    | none => rfl
    | some k => simp [h'.isSome_iff, h.new_lt hi]
  injective {i j k} hi hj := by
    obtain ⟨a, ha, hak⟩ := Option.bind_eq_some_iff.mp hi
    obtain ⟨b, hb, hbk⟩ := Option.bind_eq_some_iff.mp hj
    obtain rfl := h'.injective hak hbk
    exact h.injective ha hb
  related {i k} hi := by
    obtain ⟨a, ha, hak⟩ := Option.bind_eq_some_iff.mp hi
    obtain ⟨x, y, hx, hy, hxy⟩ := h.related ha
    obtain ⟨y', z, hy', hz, hyz⟩ := h'.related hak
    obtain rfl := Option.some.inj (hy.symm.trans hy')
    exact ⟨x, z, hx, hz, y, hxy, hyz⟩
  onto {k} hk := by
    obtain ⟨a, ha⟩ := h'.onto hk
    obtain ⟨i, hi⟩ := h.onto (h'.old_lt ha)
    exact ⟨i, by rw [hi, Option.bind_some, ha]⟩

section Count

/-- The positions that are kept. -/
def support (g : ℕ → Option ℕ) (n : ℕ) : Finset ℕ := (Finset.range n).filter fun i => (g i).isSome

theorem mem_support (h : Renumbers R kept g xs ys) (i : ℕ) : i ∈ support g xs.length ↔ kept i := by
  rw [support, Finset.mem_filter, Finset.mem_range, h.isSome_iff]
  refine ⟨And.right, fun hi => ⟨?_, hi⟩⟩
  obtain ⟨k, hk⟩ := h.exists_new hi
  exact h.old_lt hk

theorem injOn (h : Renumbers R kept g xs ys) :
    Set.InjOn (fun i => (g i).getD 0) (support g xs.length) := by
  intro i hi j hj hij
  obtain ⟨k, hk⟩ := h.exists_new ((h.mem_support i).mp hi)
  obtain ⟨l, hl⟩ := h.exists_new ((h.mem_support j).mp hj)
  simp only [hk, hl, Option.getD_some] at hij
  exact h.injective hk (hij ▸ hl)

theorem image_support (h : Renumbers R kept g xs ys) :
    (support g xs.length).image (fun i => (g i).getD 0) = Finset.range ys.length := by
  ext k
  rw [Finset.mem_image, Finset.mem_range]
  constructor
  · rintro ⟨i, hi, rfl⟩
    obtain ⟨k, hk⟩ := h.exists_new ((h.mem_support i).mp hi)
    rw [hk]
    exact h.new_lt hk
  · intro hk
    obtain ⟨i, hi⟩ := h.onto hk
    exact ⟨i, (h.mem_support i).mpr (h.kept_of_new hi), by rw [hi]; rfl⟩

theorem card_support (h : Renumbers R kept g xs ys) : (support g xs.length).card = ys.length := by
  rw [← Finset.card_image_of_injOn h.injOn, h.image_support, Finset.card_range]

variable {R' : α → γ → Prop} {kept' : ℕ → Prop} {g' : ℕ → Option ℕ} {xs' : List α} {zs : List γ}

/-- Of two renumberings that keep as many elements, neither keeps more. -/
theorem kept_of_subset (h : Renumbers R kept g xs ys) (h' : Renumbers R' kept' g' xs' zs)
    (hlen : ys.length = zs.length) (hsub : ∀ i, kept' i → kept i) {i : ℕ} (hi : kept i) : kept' i := by
  have hss : support g' xs'.length ⊆ support g xs.length := fun j hj =>
    (h.mem_support j).mpr (hsub j ((h'.mem_support j).mp hj))
  have heq := Finset.eq_of_subset_of_card_le hss (by rw [h.card_support, h'.card_support, hlen])
  rw [← h'.mem_support, heq, h.mem_support]
  exact hi

end Count

end Renumbers

section Compact

/-- The elements that are marked. -/
def compact : List Bool → List α → List α
  | used :: us, x :: xs => if used then x :: compact us xs else compact us xs
  | _, _ => []

/-- The position of an element among those that are marked. -/
def rank : List Bool → ℕ → Option ℕ
  | [], _ => none
  | used :: _, 0 => if used then some 0 else none
  | used :: us, i + 1 => (rank us i).map (· + used.toNat)

variable {us : List Bool}

theorem rank_isSome (us : List Bool) (i : ℕ) : (rank us i).isSome ↔ us[i]? = some true := by
  induction us generalizing i with
  | nil => simp [rank]
  | cons used us ih =>
    cases i with
    | zero => cases used <;> simp [rank]
    | succ i => simp [rank, ih]

theorem rank_le {i k : ℕ} (h : rank us i = some k) : k ≤ i := by
  induction us generalizing i k with
  | nil => cases h
  | cons used us ih =>
    cases i with
    | zero => cases used <;> simp_all [rank]
    | succ i =>
      rw [rank, Option.map_eq_some_iff] at h
      obtain ⟨k, hk, rfl⟩ := h
      have := ih hk
      cases used <;> simp <;> omega

/-- Nothing moves where everything before is kept. -/
theorem rank_eq_self_iff (us : List Bool) (i : ℕ) : rank us i = some i ↔ ∀ j ≤ i, us[j]? = some true := by
  induction us generalizing i with
  | nil => simpa [rank] using ⟨i, le_rfl⟩
  | cons used us ih =>
    cases i with
    | zero => cases used <;> simp [rank]
    | succ i =>
      rw [rank, Option.map_eq_some_iff]
      constructor
      · rintro ⟨k, hk, hki⟩
        have hle := rank_le hk
        cases used with
        | false => simp at hki; omega
        | true =>
          obtain rfl : k = i := by simpa using hki
          rintro (_ | j) hj
          · rfl
          · exact (ih k).mp hk j (by omega)
      · intro h
        have h0 : used = true := by simpa using h 0 (by omega)
        exact ⟨i, (ih i).mpr fun j hj => h (j + 1) (by omega), by simp [h0]⟩

theorem rank_injective {i j k : ℕ} (hi : rank us i = some k) (hj : rank us j = some k) : i = j := by
  induction us generalizing i j k with
  | nil => cases hi
  | cons used us ih =>
    cases i <;> cases j <;> cases used <;> simp [rank] at hi hj
    case cons.zero.zero.true => rfl
    case cons.zero.succ.true => omega
    case cons.succ.zero.true => omega
    case cons.succ.succ.false => exact congrArg _ (ih hi hj)
    case cons.succ.succ.true =>
      obtain ⟨a, ha, rfl⟩ := hi
      obtain ⟨b, hb, hab⟩ := hj
      obtain rfl : b = a := by omega
      exact congrArg _ (ih ha hb)

theorem compact_rank {i k : ℕ} (hlen : us.length = xs.length) (h : rank us i = some k) :
    ∃ x, xs[i]? = some x ∧ (compact us xs)[k]? = some x := by
  induction us generalizing xs i k with
  | nil => cases h
  | cons used us ih =>
    cases xs with
    | nil => cases hlen
    | cons x xs =>
      cases i with
      | zero =>
        cases used with
        | false => cases h
        | true => exact ⟨x, rfl, by cases h; rfl⟩
      | succ i =>
        rw [rank, Option.map_eq_some_iff] at h
        obtain ⟨k, hk, rfl⟩ := h
        obtain ⟨y, hy, hky⟩ := ih (Nat.succ.inj hlen) hk
        refine ⟨y, hy, ?_⟩
        cases used <;> simpa [compact] using hky

theorem exists_rank (hlen : us.length = xs.length) {k : ℕ} (h : k < (compact us xs).length) :
    ∃ i, rank us i = some k := by
  induction us generalizing xs k with
  | nil => simp [compact] at h
  | cons used us ih =>
    cases xs with
    | nil => cases hlen
    | cons x xs =>
      cases used with
      | false =>
        obtain ⟨i, hi⟩ := ih (Nat.succ.inj hlen) (by simpa [compact] using h)
        exact ⟨i + 1, by simp [rank, hi]⟩
      | true =>
        cases k with
        | zero => exact ⟨0, rfl⟩
        | succ k =>
          obtain ⟨i, hi⟩ := ih (Nat.succ.inj hlen) (by simpa [compact] using h)
          exact ⟨i + 1, by simp [rank, hi]⟩

/-- The marked elements are renumbered by their rank. -/
theorem renumbers_rank (hlen : us.length = xs.length) :
    Renumbers (· = ·) (fun i => us[i]? = some true) (rank us) xs (compact us xs) where
  isSome_iff := rank_isSome us
  injective := rank_injective
  related h := by
    obtain ⟨x, hx, hk⟩ := compact_rank hlen h
    exact ⟨x, x, hx, hk, rfl⟩
  onto := exists_rank hlen

/-- The positions of what is kept of the first `n` numbers, in their order. -/
noncomputable def positions (kept : ℕ → Prop) (n : ℕ) : ℕ → Option ℕ :=
  open Classical in rank ((List.range n).map fun i => decide (kept i))

theorem rank_eq_positions {n : ℕ} (hlen : us.length = n) (h : ∀ i < n, us[i]? = some true ↔ kept i) :
    rank us = positions kept n := by
  classical
  rw [positions]
  congr 1
  apply List.ext_getElem?
  intro i
  rw [List.getElem?_map]
  by_cases hi : i < n
  · rw [List.getElem?_range hi, List.getElem?_eq_getElem (hlen ▸ hi), Option.map_some, Option.some.injEq]
    have := h i hi
    rw [List.getElem?_eq_getElem (hlen ▸ hi), Option.some.injEq] at this
    by_cases hk : kept i
    · rw [this.mpr hk, decide_eq_true hk]
    · rw [decide_eq_false hk]
      exact Bool.not_eq_true _ ▸ fun ht => hk (this.mp ht)
  · rw [List.getElem?_eq_none (hlen ▸ Nat.le_of_not_lt hi),
      List.getElem?_eq_none (by simpa using hi), Option.map_none]

theorem positions_eq_self_iff {n i : ℕ} :
    positions kept n i = some i ↔ i < n ∧ ∀ j ≤ i, kept j := by
  classical
  rw [positions, rank_eq_self_iff]
  constructor
  · intro h
    have hi : i < n := by simpa using (List.getElem?_eq_some_iff.mp (h i le_rfl)).1
    refine ⟨hi, fun j hj => ?_⟩
    simpa [List.getElem?_range (hj.trans_lt hi)] using h j hj
  · rintro ⟨hi, h⟩ j hj
    simp [List.getElem?_range (hj.trans_lt hi), h j hj]

theorem positions_isSome {n i : ℕ} : (positions kept n i).isSome ↔ i < n ∧ kept i := by
  classical
  rw [positions, rank_isSome, List.getElem?_map]
  by_cases hi : i < n
  · simp [hi]
  · simp [hi]

end Compact

section Permute

/-- Putting the elements in another order renumbers them by their positions in it. -/
theorem renumbers_perm {idxes : List ℕ} (hp : idxes.Perm (List.range xs.length))
    (hys : ys.length = idxes.length)
    (hR : ∀ (k i : ℕ) (x : α), idxes[k]? = some i → xs[i]? = some x → ∃ y, ys[k]? = some y ∧ R x y) :
    Renumbers R (· < xs.length) (fun i => if i ∈ idxes then some (idxes.idxOf i) else none) xs ys where
  isSome_iff i := by
    have := hp.mem_iff (a := i)
    rw [List.mem_range] at this
    split_ifs with hi
    · simpa using this.mp hi
    · simpa using fun h => hi (this.mpr h)
  injective {i j k} hi hj := by
    simp only [Option.ite_none_right_eq_some, Option.some.injEq] at hi hj
    exact (List.idxOf_inj hi.1).mp (hi.2.trans hj.2.symm)
  related {i k} hi := by
    simp only [Option.ite_none_right_eq_some, Option.some.injEq] at hi
    obtain ⟨hmem, rfl⟩ := hi
    have hlt := List.mem_range.mp (hp.mem_iff.mp hmem)
    have hget := List.getElem?_eq_getElem hlt
    obtain ⟨y, hy, hxy⟩ := hR (idxes.idxOf i) i _ (List.getElem?_idxOf hmem) hget
    exact ⟨_, y, hget, hy, hxy⟩
  onto {k} hk := by
    rw [hys] at hk
    have hnd : idxes.Nodup := hp.nodup_iff.mpr List.nodup_range
    exact ⟨idxes[k], by simp [hnd.idxOf_getElem k hk]⟩

end Permute

end Mrustc.Numbering
