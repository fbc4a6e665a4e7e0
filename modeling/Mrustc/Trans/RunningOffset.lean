import Mrustc.Trans.TypeRepr

/-! # The running offset of a struct

The loop adds and aligns modulo `2 ^ 64`. It agrees with the placement without bounds exactly when the fields
come out inside the size and apart from each other.
-/

namespace Mrustc.Trans

open Layout

variable {n a : ℕ} {it : Item} {its : List Item}

/-- The loop steps to the next multiple, or past the last offset to zero. -/
theorem alignOfs_eq (ha : a ≠ 0) (hn : n < 2 ^ 64) :
    alignOfs n a = if roundUp n a < 2 ^ 64 then roundUp n a else 0 := by
  fun_induction alignOfs n a with
  | case1 n hmod ih =>
    have hle := le_roundUp n a
    have hdvd : a ∣ roundUp n a := dvd_roundUp ha
    have hlt : n < roundUp n a := by
      apply lt_of_le_of_ne hle
      intro heq
      rw [← heq] at hdvd
      exact hmod (Nat.mod_eq_zero_of_dvd hdvd)
    rw [ih (Nat.mod_lt _ (by norm_num))]
    by_cases hlast : n + 1 < 2 ^ 64
    · have hround : roundUp (n + 1) a = roundUp n a :=
        le_antisymm (roundUp_le hlt hdvd) (roundUp_le ((Nat.le_succ n).trans (le_roundUp _ a)) (dvd_roundUp ha))
      rw [Nat.mod_eq_of_lt hlast, hround]
    · have hzero : (n + 1) % 2 ^ 64 = 0 := by
        have : n + 1 = 2 ^ 64 := by omega
        rw [this, Nat.mod_self]
      rw [hzero, roundUp_zero, if_pos (by norm_num), if_neg (by omega)]
  | case2 n hmod =>
    have hround : roundUp n a = n := roundUp_of_dvd (Nat.dvd_of_mod_eq_zero (not_not.mp hmod))
    rw [hround, if_pos hn]

/-- Where the loop puts an item. -/
def cursorAt (n : ℕ) (it : Item) : ℕ := if it.align > 0 then alignOfs n it.align else n

/-- The offset after an item. -/
def cursorAfter (o : ℕ) (it : Item) : ℕ := if it.size = sizeMax then sizeMax else (o + it.size) % 2 ^ 64

def cursors : ℕ → List Item → List ℕ
  | _, [] => []
  | n, it :: its => cursorAt n it :: cursors (cursorAfter (cursorAt n it) it) its

def lastCursor : ℕ → List Item → ℕ
  | n, [] => n
  | n, it :: its => lastCursor (cursorAfter (cursorAt n it) it) its

@[simp] theorem length_cursors (n : ℕ) (its : List Item) : (cursors n its).length = its.length := by
  induction its generalizing n with
  | nil => rfl
  | cons it its ih => rw [cursors, List.length_cons, List.length_cons, ih]

theorem cursorAt_eq (hn : n < 2 ^ 64) (it : Item) :
    cursorAt n it = if roundUp n it.align < 2 ^ 64 then roundUp n it.align else 0 := by
  rw [cursorAt]
  split
  case isTrue h => exact alignOfs_eq h.ne' hn
  case isFalse h =>
    have h0 : it.align = 0 := by omega
    rw [h0, roundUp, if_pos rfl, if_pos hn]

theorem cursorAt_zero (it : Item) : cursorAt 0 it = 0 := by
  rw [cursorAt_eq (by norm_num), roundUp_zero, if_pos (by norm_num)]

theorem cursorAt_lt (hn : n < 2 ^ 64) (it : Item) : cursorAt n it < 2 ^ 64 := by
  rw [cursorAt_eq hn]
  split
  case isTrue h => exact h
  case isFalse => norm_num

theorem cursorAfter_lt (o : ℕ) (it : Item) : cursorAfter o it < 2 ^ 64 := by
  rw [cursorAfter]
  split
  case isTrue => decide
  case isFalse => exact Nat.mod_lt _ (by norm_num)

theorem lastCursor_lt (hn : n < 2 ^ 64) (its : List Item) : lastCursor n its < 2 ^ 64 := by
  induction its generalizing n with
  | nil => exact hn
  | cons it its ih => exact ih (cursorAfter_lt _ it)

/-- Up to the last offset the loop places the items as they are placed without bounds. -/
theorem cursors_eq (hsized : ∀ it ∈ its, it.size ≠ sizeMax) (h : finish n its < 2 ^ 64) :
    cursors n its = offsets n its ∧ lastCursor n its = finish n its := by
  induction its generalizing n with
  | nil => exact ⟨rfl, rfl⟩
  | cons it its ih =>
    rw [finish] at h
    have hle := le_finish (roundUp n it.align + it.size) its
    have hround := le_roundUp n it.align
    have hat : cursorAt n it = roundUp n it.align := by
      rw [cursorAt_eq (by omega), if_pos (by omega)]
    have hafter : cursorAfter (cursorAt n it) it = roundUp n it.align + it.size := by
      rw [cursorAfter, if_neg (hsized it List.mem_cons_self), hat, Nat.mod_eq_of_lt (by omega)]
    have hrest := ih (fun x hx => hsized x (List.mem_cons_of_mem _ hx)) h
    rw [cursors, lastCursor, offsets, finish, hafter, hat, hrest.1, hrest.2]
    exact ⟨rfl, rfl⟩

/-- Items that do not share bytes. -/
def Apart (p q : Item × ℕ) : Prop := p.2 + p.1.size ≤ q.2 ∨ q.2 + q.1.size ≤ p.2

/-- Once the offset is back at zero, only empty items stay apart from one that was placed there. -/
theorem empty_of_apart {f : Item} (hf : 0 < f.size) (hsized : ∀ it ∈ its, it.size ≠ sizeMax)
    (h : ∀ p ∈ its.zip (cursors 0 its), Apart (f, 0) p) : lastCursor 0 its = 0 := by
  induction its with
  | nil => rfl
  | cons it its ih =>
    have hat := cursorAt_zero it
    have hmem : (it, cursorAt 0 it) ∈ (it :: its).zip (cursors 0 (it :: its)) := by
      rw [cursors, List.zip_cons_cons]
      exact List.mem_cons_self
    have hsize : it.size = 0 := by
      rcases h _ hmem with hap | hap <;> simp only [hat] at hap <;> omega
    have hafter : cursorAfter (cursorAt 0 it) it = 0 := by
      rw [cursorAfter, if_neg (hsized it List.mem_cons_self), hat, hsize]
      rfl
    rw [lastCursor, hafter]
    apply ih (fun x hx => hsized x (List.mem_cons_of_mem _ hx))
    intro p hp
    apply h
    rw [cursors, hafter, List.zip_cons_cons]
    exact List.mem_cons_of_mem _ hp

/-- The items come out right only if their placement without bounds ends in time. The bound `s` is the size, or
the offset of an unsized field after them. -/
theorem finish_lt_of_apart {s : ℕ} (hs : s < 2 ^ 64) (hn : n ≤ s) (hend : lastCursor n its = 0 → s = 0)
    (hsized : ∀ it ∈ its, it.size ≠ sizeMax) (hfirst : 0 < n → ∃ f : Item, 0 < f.size ∧
      ∀ p ∈ its.zip (cursors n its), Apart (f, 0) p)
    (hinside : ∀ p ∈ its.zip (cursors n its), p.2 + p.1.size ≤ s)
    (hapart : (its.zip (cursors n its)).Pairwise Apart) : finish n its < 2 ^ 64 := by
  induction its generalizing n with
  | nil => exact hn.trans_lt hs
  | cons it its ih =>
    have hsized' : ∀ x ∈ its, x.size ≠ sizeMax := fun x hx => hsized x (List.mem_cons_of_mem _ hx)
    rw [cursors, List.zip_cons_cons] at hinside hapart
    rw [List.pairwise_cons] at hapart
    by_cases hround : roundUp n it.align < 2 ^ 64
    · have hat : cursorAt n it = roundUp n it.align := by rw [cursorAt_eq (by omega), if_pos hround]
      have hit := hinside _ List.mem_cons_self
      simp only [hat] at hit
      have hafter : cursorAfter (cursorAt n it) it = roundUp n it.align + it.size := by
        rw [cursorAfter, if_neg (hsized it List.mem_cons_self), hat, Nat.mod_eq_of_lt (by omega)]
      rw [hafter] at hinside hapart
      rw [lastCursor, hafter] at hend
      rw [finish]
      apply ih hit hend hsized' _ (fun p hp => hinside p (List.mem_cons_of_mem _ hp)) hapart.2
      intro hpos
      by_cases hn0 : 0 < n
      · obtain ⟨f, hf, hfap⟩ := hfirst hn0
        refine ⟨f, hf, fun p hp => hfap p ?_⟩
        rw [cursors, hafter, List.zip_cons_cons]
        exact List.mem_cons_of_mem _ hp
      · have hn0' : n = 0 := by omega
        rw [hn0', roundUp_zero, zero_add] at hpos
        refine ⟨it, hpos, fun p hp => ?_⟩
        have hap := hapart.1 p hp
        rwa [hat, hn0', roundUp_zero] at hap
    · -- the offset is back at zero, where an item has been placed
      exfalso
      have hpos : 0 < n := by
        by_contra h0
        rw [Nat.eq_zero_of_not_pos h0, roundUp_zero] at hround
        exact hround (by norm_num)
      obtain ⟨f, hf, hfap⟩ := hfirst hpos
      have hat : cursorAt n it = 0 := by rw [cursorAt_eq (by omega), if_neg hround]
      have hcur : cursors n (it :: its) = cursors 0 (it :: its) := by
        rw [cursors, cursors, hat, cursorAt_zero]
      have hlast : lastCursor n (it :: its) = lastCursor 0 (it :: its) := by
        rw [lastCursor, lastCursor, hat, cursorAt_zero]
      rw [hcur] at hfap
      rw [hlast] at hend
      have hzero := hend (empty_of_apart hf hsized hfap)
      omega

/-! ## The whole list -/

/-- The size that is reported for items with the alignment. -/
def structSize (align : ℕ) (its : List Item) : ℕ :=
  if lastCursor 0 its ≠ sizeMax then alignOfs (lastCursor 0 its) align else lastCursor 0 its

/-- The end of the items, one after the other and without bounds; an unsized one ends where it starts. -/
def extent (its : List Item) : ℕ :=
  finish 0 (its.map fun it => if it.size = sizeMax then { it with size := 0 } else it)

/-- Items at their offsets: the sized ones are inside the size and apart, an unsized one comes after them. -/
structure ItemsValid (align size : ℕ) (ps : List (Item × ℕ)) : Prop where
  inside : ∀ p ∈ ps, p.1.size ≠ sizeMax → p.2 + p.1.size ≤ size
  apart : ps.Pairwise fun p q => p.1.size ≠ sizeMax → q.1.size ≠ sizeMax → Apart p q
  unsized_last : ∀ p ∈ ps, ∀ q ∈ ps, p.1.size = sizeMax → q.1.size ≠ sizeMax → q.2 + q.1.size ≤ p.2
  size_dvd : (∀ p ∈ ps, p.1.size ≠ sizeMax) → align ∣ size

theorem cursors_append (n : ℕ) (its : List Item) (u : Item) :
    cursors n (its ++ [u]) = cursors n its ++ [cursorAt (lastCursor n its) u] ∧
      lastCursor n (its ++ [u]) = cursorAfter (cursorAt (lastCursor n its) u) u := by
  induction its generalizing n with
  | nil => exact ⟨rfl, rfl⟩
  | cons it its ih =>
    have hrest := ih (cursorAfter (cursorAt n it) it)
    rw [List.cons_append, cursors, cursors, lastCursor, lastCursor, hrest.1, hrest.2]
    exact ⟨rfl, rfl⟩

theorem offsets_append (n : ℕ) (its : List Item) (u : Item) :
    offsets n (its ++ [u]) = offsets n its ++ [roundUp (finish n its) u.align] := by
  induction its generalizing n with
  | nil => rfl
  | cons it its ih => rw [List.cons_append, offsets, offsets, finish, ih, List.cons_append]

theorem extent_of_sized (hsized : ∀ it ∈ its, it.size ≠ sizeMax) : extent its = finish 0 its := by
  have hmap : (its.map fun it => if it.size = sizeMax then { it with size := 0 } else it) = its := by
    conv_rhs => rw [← List.map_id its]
    apply List.map_congr_left
    intro it hit
    rw [if_neg (hsized it hit)]
    rfl
  rw [extent, hmap]

theorem extent_append {u : Item} (hsized : ∀ it ∈ its, it.size ≠ sizeMax) (hu : u.size = sizeMax) :
    extent (its ++ [u]) = roundUp (finish 0 its) u.align := by
  rw [extent, List.map_append, List.map_singleton, if_pos hu, finish_append, ← extent, extent_of_sized hsized]
  rfl

/-- The last end is the largest. -/
theorem finish_le {s : ℕ} (hn : n ≤ s) (h : ∀ p ∈ placed n its, p.2 + p.1.size ≤ s) : finish n its ≤ s := by
  induction its generalizing n with
  | nil => exact hn
  | cons it its ih =>
    rw [placed_cons] at h
    exact ih (h _ List.mem_cons_self) fun p hp => h p (List.mem_cons_of_mem _ hp)

section Valid

variable {align : ℕ} (halign : 0 < align)
include halign

/-- The size is the rounded end of sized items, or zero. -/
theorem structSize_of_finish (hcur : lastCursor 0 its = finish 0 its) (hlt : finish 0 its < 2 ^ 64) :
    structSize align its = if finish 0 its = sizeMax then sizeMax
      else if roundUp (finish 0 its) align < 2 ^ 64 then roundUp (finish 0 its) align else 0 := by
  rw [structSize, hcur]
  by_cases h : finish 0 its = sizeMax
  · rw [if_neg (not_not.mpr h), if_pos h, h]
  · rw [if_pos h, if_neg h, alignOfs_eq halign.ne' hlt]

/-- Sized items come out right exactly when their rounded end is an offset. -/
theorem itemsValid_sized_iff (hsized : ∀ it ∈ its, it.size ≠ sizeMax) :
    ItemsValid align (structSize align its) (its.zip (cursors 0 its)) ↔ roundUp (finish 0 its) align < 2 ^ 64 := by
  have hsized' : ∀ p ∈ its.zip (cursors 0 its), p.1.size ≠ sizeMax := fun p hp => hsized _ (List.of_mem_zip hp).1
  constructor
  · intro h
    have hs : structSize align its < 2 ^ 64 := by
      have hlt := @lastCursor_lt 0 (by norm_num) its
      rw [structSize]
      split
      · rw [alignOfs_eq halign.ne' hlt]
        split
        case isTrue h => exact h
        case isFalse => norm_num
      · exact hlt
    have hend : lastCursor 0 its = 0 → structSize align its = 0 := by
      intro h0
      rw [structSize, h0, if_pos (by decide), alignOfs_eq halign.ne' (by norm_num), roundUp_zero,
        if_pos (by norm_num)]
    have hinside : ∀ p ∈ its.zip (cursors 0 its), p.2 + p.1.size ≤ structSize align its :=
      fun p hp => h.inside p hp (hsized' p hp)
    have hapart : (its.zip (cursors 0 its)).Pairwise Apart :=
      h.apart.imp_of_mem fun hp hq hap => hap (hsized' _ hp) (hsized' _ hq)
    have hfin := finish_lt_of_apart hs (Nat.zero_le _) hend hsized (fun h0 => absurd h0 (lt_irrefl 0)) hinside hapart
    obtain ⟨hcur, hlast⟩ := cursors_eq hsized hfin
    have hdvd := h.size_dvd hsized'
    have hle : finish 0 its ≤ structSize align its := finish_le (Nat.zero_le _) (by rwa [hcur] at hinside)
    have hsize := structSize_of_finish halign hlast hfin
    by_contra hge
    have hpos : finish 0 its ≠ 0 := by
      intro h0
      rw [h0, roundUp_zero] at hge
      exact hge (by norm_num)
    rw [if_neg hge] at hsize
    split at hsize
    case isTrue hmax =>
      rw [hsize] at hdvd
      rw [hmax, roundUp_of_dvd hdvd] at hge
      exact hge (by decide)
    case isFalse => omega
  · intro hround
    have hfin : finish 0 its < 2 ^ 64 := (le_roundUp _ _).trans_lt hround
    obtain ⟨hcur, hlast⟩ := cursors_eq hsized hfin
    have hsize : structSize align its = roundUp (finish 0 its) align := by
      rw [structSize_of_finish halign hlast hfin, if_pos hround]
      split
      case isTrue hmax =>
        have hle := le_roundUp (finish 0 its) align
        rw [sizeMax] at hmax ⊢
        omega
      case isFalse => rfl
    rw [hcur, hsize]
    refine ⟨?_, ?_, ?_, ?_⟩
    · exact fun p hp _ => (placed_bounds hp).2.trans (le_roundUp _ _)
    · exact (placed_pairwise 0 its).imp fun hpq _ _ => .inl hpq
    · exact fun p hp _ _ hmax => absurd hmax (hsized _ (List.of_mem_zip hp).1)
    · exact fun _ => dvd_roundUp halign.ne'

omit halign in
/-- With an unsized item at the end they do when this one starts in time. -/
theorem itemsValid_unsized_iff {u : Item} (hsized : ∀ it ∈ its, it.size ≠ sizeMax) (hu : u.size = sizeMax) :
    ItemsValid align (structSize align (its ++ [u])) ((its ++ [u]).zip (cursors 0 (its ++ [u]))) ↔
      roundUp (finish 0 its) u.align < 2 ^ 64 := by
  have hzip : (its ++ [u]).zip (cursors 0 (its ++ [u])) =
      its.zip (cursors 0 its) ++ [(u, cursorAt (lastCursor 0 its) u)] := by
    rw [(cursors_append 0 its u).1, List.zip_append (length_cursors 0 its).symm]
    rfl
  have hsize : structSize align (its ++ [u]) = sizeMax := by
    rw [structSize, (cursors_append 0 its u).2, cursorAfter, if_pos hu, if_neg (not_not.mpr rfl)]
  have hsized' : ∀ p ∈ its.zip (cursors 0 its), p.1.size ≠ sizeMax := fun p hp => hsized _ (List.of_mem_zip hp).1
  rw [hzip, hsize]
  constructor
  · intro h
    have hlast := @lastCursor_lt 0 (by norm_num) its
    have hinside : ∀ p ∈ its.zip (cursors 0 its), p.2 + p.1.size ≤ cursorAt (lastCursor 0 its) u :=
      fun p hp => h.unsized_last _ (List.mem_append_right _ List.mem_cons_self) p (List.mem_append_left _ hp) hu
        (hsized' p hp)
    have hapart : (its.zip (cursors 0 its)).Pairwise Apart :=
      (List.pairwise_append.mp h.apart).1.imp_of_mem fun hp hq hap => hap (hsized' _ hp) (hsized' _ hq)
    have hfin := finish_lt_of_apart (cursorAt_lt hlast u) (Nat.zero_le _)
      (fun h0 => by rw [h0, cursorAt_zero]) hsized (fun h0 => absurd h0 (lt_irrefl 0)) hinside hapart
    obtain ⟨hcur, hlast'⟩ := cursors_eq hsized hfin
    rw [hcur, hlast', cursorAt_eq hfin] at hinside
    by_contra hge
    rw [if_neg hge] at hinside
    have hzero := Nat.le_zero.mp (finish_le (Nat.zero_le 0) hinside)
    rw [hzero, roundUp_zero] at hge
    exact hge (by norm_num)
  · intro hround
    have hfin : finish 0 its < 2 ^ 64 := (le_roundUp _ _).trans_lt hround
    obtain ⟨hcur, hlast⟩ := cursors_eq hsized hfin
    have hat : cursorAt (lastCursor 0 its) u = roundUp (finish 0 its) u.align := by
      rw [hlast, cursorAt_eq hfin, if_pos hround]
    have hle := le_roundUp (finish 0 its) u.align
    rw [hcur, hat]
    refine ⟨?_, ?_, ?_, ?_⟩
    · intro p hp hne
      rcases List.mem_append.mp hp with hp | hp
      · have hbound := (placed_bounds hp).2
        rw [sizeMax]
        omega
      · rw [List.mem_singleton.mp hp] at hne
        exact absurd hu hne
    · rw [List.pairwise_append]
      refine ⟨(placed_pairwise 0 its).imp fun hpq _ _ => .inl hpq, List.pairwise_singleton _ _, ?_⟩
      intro p _ q hq _ hne
      rw [List.mem_singleton.mp hq] at hne
      exact absurd hu hne
    · intro p hp q hq hmax hne
      rcases List.mem_append.mp hp with hp | hp
      · exact absurd hmax (hsized _ (List.of_mem_zip hp).1)
      · rcases List.mem_append.mp hq with hq | hq
        · rw [List.mem_singleton.mp hp]
          exact (placed_bounds hq).2.trans hle
        · rw [List.mem_singleton.mp hq] at hne
          exact absurd hu hne
    · intro hall
      exact absurd hu (hall _ (List.mem_append_right _ List.mem_cons_self))

/-- The items come out right exactly when the end that they have without bounds is an offset. -/
theorem itemsValid_iff (hsized : ∀ it ∈ its.dropLast, it.size ≠ sizeMax) :
    ItemsValid align (structSize align its) (its.zip (cursors 0 its)) ↔
      (if ∃ it ∈ its, it.size = sizeMax then extent its else roundUp (extent its) align) < 2 ^ 64 := by
  by_cases hall : ∃ it ∈ its, it.size = sizeMax
  · rw [if_pos hall]
    cases its using List.reverseRecOn with
    | nil => simp at hall
    | append_singleton its u =>
      rw [List.dropLast_concat] at hsized
      obtain ⟨it, hit, hmax⟩ := hall
      have hu : u.size = sizeMax := by
        rcases List.mem_append.mp hit with hit | hit
        · exact absurd hmax (hsized it hit)
        · rwa [List.mem_singleton.mp hit] at hmax
      rw [itemsValid_unsized_iff hsized hu, extent_append hsized hu]
  · have hall' : ∀ it ∈ its, it.size ≠ sizeMax := fun it hit hmax => hall ⟨it, hit, hmax⟩
    rw [if_neg hall, itemsValid_sized_iff halign hall', extent_of_sized hall']

omit halign in
/-- Then the offsets are those without bounds. -/
theorem cursors_eq_offsets (hsized : ∀ it ∈ its.dropLast, it.size ≠ sizeMax) (h : extent its < 2 ^ 64) :
    cursors 0 its = offsets 0 its := by
  by_cases hall : ∃ it ∈ its, it.size = sizeMax
  · cases its using List.reverseRecOn with
    | nil => rfl
    | append_singleton its u =>
      rw [List.dropLast_concat] at hsized
      obtain ⟨it, hit, hmax⟩ := hall
      have hu : u.size = sizeMax := by
        rcases List.mem_append.mp hit with hit | hit
        · exact absurd hmax (hsized it hit)
        · rwa [List.mem_singleton.mp hit] at hmax
      rw [extent_append hsized hu] at h
      obtain ⟨hcur, hlast⟩ := cursors_eq hsized ((le_roundUp _ _).trans_lt h)
      rw [(cursors_append 0 its u).1, offsets_append, hcur, hlast,
        cursorAt_eq ((le_roundUp _ _).trans_lt h), if_pos h]
  · have hall' : ∀ it ∈ its, it.size ≠ sizeMax := fun it hit hmax => hall ⟨it, hit, hmax⟩
    rw [extent_of_sized hall'] at h
    exact (cursors_eq hall' h).1

end Valid

end Mrustc.Trans
