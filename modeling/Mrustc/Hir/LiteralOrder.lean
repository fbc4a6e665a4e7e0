import Mrustc.Hir.EncodedLiteral

/-! # Literals compare by content

Two slices are the same if they have the same bytes and the same relocations inside, counted from the start of the
slice. Equality and order agree with this, but for relocations beyond the slice that the loop goes on to, and for
relocations of one slice that it does not reach because the other literal has no more.
-/

namespace Mrustc.Hir.Encoded
open Mrustc.Comparison

variable {P : Type}

/-- A relocation counted from an offset. -/
def Reloc.relative (ofs : ℕ) (r : Reloc P) : Reloc P := {r with ofs := r.ofs - ofs}

namespace Slice

variable (x y : Slice P)

/-- The relocations inside a slice, from its start. -/
def inside : List (Reloc P) :=
  (x.base.relocations.filter fun r => x.ofs ≤ r.ofs ∧ r.ofs < x.ofs + x.size).map (Reloc.relative x.ofs)

/-- The relocations of the literal beyond the slice, from its start. -/
def beyond : List (Reloc P) :=
  (x.base.relocations.filter fun r => x.ofs + x.size ≤ r.ofs).map (Reloc.relative x.ofs)

end Slice

section Compare

variable (ordPath : P → P → Ordering)

/-- One relocation: its offset, length and target. -/
def SameReloc (r s : Reloc P) : Prop := r.ofs = s.ofs ∧ r.len = s.len ∧ sameTarget ordPath r.target s.target

/-- The same bytes, and the same relocations inside. -/
def Same (x y : Slice P) : Prop := x.bytes = y.bytes ∧ List.Forall₂ (SameReloc ordPath) x.inside y.inside

/-- The order of relocations counted from one start. -/
def relocOrder : Reloc P → Reloc P → Ordering := ordReloc ordPath 0 0

/-- Where the bytes of two slices are equal: if the relocations inside are too, those beyond do not differ, and if
those inside one are a proper beginning of those inside the other, its literal has relocations beyond. -/
def Comparable (x y : Slice P) : Prop :=
  x.bytes = y.bytes → Apart (relocOrder ordPath) x.inside x.beyond y.inside y.beyond

/-- Equality and order decide whether slices are the same, and the order is total. -/
structure ComparedByContent (s : Set (Slice P)) : Prop where
  eq : ∀ x ∈ s, ∀ y ∈ s, x.eq ordPath y ↔ Same ordPath x y
  ord : ∀ x ∈ s, ∀ y ∈ s, x.ord ordPath y = .eq ↔ Same ordPath x y
  total : TotalOrderOn s (Slice.ord ordPath)

end Compare

section Relocations

variable {ordPath : P → P → Ordering} {x y : Slice P} {r s : Reloc P} {ofs ofs' : ℕ}

theorem sameTarget_iff (t u : RelocTarget P) : sameTarget ordPath t u ↔ ordTarget ordPath t u = .eq := by
  cases t with
  | named p => cases u <;> simp [sameTarget, ordTarget]
  | bytes a => cases u <;> simp [sameTarget, ordTarget]

theorem ordReloc_eq_relative :
    ordReloc ordPath ofs ofs' r s = relocOrder ordPath (r.relative ofs) (s.relative ofs') := rfl

theorem relocOrder_eq_eq : relocOrder ordPath r s = .eq ↔ SameReloc ordPath r s := by
  simp [relocOrder, ordReloc, SameReloc, Ordering.then_eq_eq, sameTarget_iff]

theorem relocOrder_of_lt (h : r.ofs < s.ofs) : relocOrder ordPath r s = .lt := by
  simp [relocOrder, ordReloc, Nat.compare_eq_lt.mpr h]

theorem relocOrder_of_gt (h : s.ofs < r.ofs) : relocOrder ordPath r s = .gt := by
  simp [relocOrder, ordReloc, Nat.compare_eq_gt.mpr h]

instance [Std.TransCmp ordPath] : Std.TransCmp (ordTarget ordPath) where
  eq_swap {a b} := by
    cases a with
    | named p =>
      cases b with
      | named q =>
        have h : ordPath p q = (ordPath q p).swap := Std.OrientedCmp.eq_swap
        exact h
      | bytes b => rfl
    | bytes a =>
      cases b with
      | named q => rfl
      | bytes b =>
        have h : List.compareLex compare a b = (List.compareLex compare b a).swap := Std.OrientedCmp.eq_swap
        exact h
  isLE_trans {a b c} := by
    cases a with
    | named p =>
      cases b with
      | named q =>
        cases c with
        | named r =>
          have h : (ordPath p q).isLE → (ordPath q r).isLE → (ordPath p r).isLE := Std.TransCmp.isLE_trans
          exact h
        | bytes c => exact fun _ h => h
      | bytes b => simp [ordTarget]
    | bytes a =>
      cases b with
      | named q => cases c <;> simp [ordTarget]
      | bytes b =>
        cases c with
        | named r => exact fun _ h => h
        | bytes c =>
          have h : (List.compareLex compare a b).isLE → (List.compareLex compare b c).isLE →
              (List.compareLex compare a c).isLE := Std.TransCmp.isLE_trans
          exact h

instance [Std.TransCmp ordPath] : Std.TransCmp (relocOrder ordPath) :=
  inferInstanceAs (Std.TransCmp (compareLex (comap Reloc.ofs compare)
    (compareLex (comap Reloc.len compare) (comap Reloc.target (ordTarget ordPath)))))

theorem ordLoop_eq_common (rs ss : List (Reloc P)) :
    ordLoop ordPath ofs ofs' rs ss =
      common (relocOrder ordPath) (rs.map (Reloc.relative ofs)) (ss.map (Reloc.relative ofs')) := by
  induction rs generalizing ss with
  | nil => rfl
  | cons r rs ih =>
    cases ss with
    | nil => rfl
    | cons s ss => rw [ordLoop, ih, List.map_cons, List.map_cons, common, ordReloc_eq_relative]

theorem eqLoop_iff (rs ss : List (Reloc P)) :
    eqLoop ordPath ofs ofs' rs ss ↔ ordLoop ordPath ofs ofs' rs ss = .eq := by
  induction rs generalizing ss with
  | nil => simp [eqLoop, ordLoop]
  | cons r rs ih =>
    cases ss with
    | nil => simp [eqLoop, ordLoop]
    | cons s ss =>
      rw [ordLoop, Ordering.then_eq_eq, ← ih, ordReloc_eq_relative, relocOrder_eq_eq]
      simp [eqLoop, SameReloc, Reloc.relative]
      tauto

theorem dropWhile_of_sorted {lo hi : ℕ} (h : lo ≤ hi) {rs : List (Reloc P)}
    (hsorted : rs.Pairwise fun r s => r.ofs < s.ofs) :
    rs.dropWhile (fun r => ¬ lo ≤ r.ofs) =
      (rs.filter fun r => lo ≤ r.ofs ∧ r.ofs < hi) ++ rs.filter fun r => hi ≤ r.ofs := by
  induction rs with
  | nil => rfl
  | cons r rs ih =>
    rcases List.pairwise_cons.mp hsorted with ⟨hr, hrs⟩
    by_cases hlo : lo ≤ r.ofs
    · have hself : rs.dropWhile (fun r => ¬ lo ≤ r.ofs) = rs := by
        rw [List.dropWhile_eq_self_iff]
        intro hlength
        have := hr _ (List.getElem_mem hlength)
        simp
        omega
      have hih := ih hrs
      rw [hself] at hih
      by_cases hhi : r.ofs < hi
      · simp [hlo, hhi, show ¬ hi ≤ r.ofs by omega]
        simpa using hih
      · have hnone : (rs.filter fun r => lo ≤ r.ofs ∧ r.ofs < hi) = [] := by
          rw [List.filter_eq_nil_iff]
          intro s hs
          have := hr s hs
          simp
          omega
        rw [hnone, List.nil_append] at hih
        simp only [List.filter_cons, List.dropWhile_cons, hnone]
        simp [hlo, hhi, show hi ≤ r.ofs by omega, ← hih]
    · have hlt : r.ofs < lo := by omega
      simpa [List.dropWhile_cons, hlo, hlt, show ¬ hi ≤ r.ofs by omega] using ih hrs

/-- The relocations from the start on are those inside and those beyond. -/
theorem fromStart_relative (x : Slice P) :
    x.fromStart.map (Reloc.relative x.ofs) = x.inside ++ x.beyond := by
  rw [Slice.fromStart, dropWhile_of_sorted (Nat.le_add_right x.ofs x.size) x.base.sorted, List.map_append]
  rfl

theorem inside_ofs (x : Slice P) (hr : r ∈ x.inside) : r.ofs < x.size := by
  simp only [Slice.inside, List.mem_map, List.mem_filter, decide_eq_true_eq] at hr
  rcases hr with ⟨r, ⟨-, hlo, hhi⟩, rfl⟩
  simp only [Reloc.relative]
  omega

theorem beyond_ofs (x : Slice P) (hr : r ∈ x.beyond) : x.size ≤ r.ofs := by
  simp only [Slice.beyond, List.mem_map, List.mem_filter, decide_eq_true_eq] at hr
  rcases hr with ⟨r, ⟨-, hhi⟩, rfl⟩
  simp only [Reloc.relative]
  omega

/-- A relocation at the end of a slice stands for the end of those inside. -/
def ended (x : Slice P) : List (Reloc P) := x.inside ++ [⟨x.size, 0, .bytes []⟩]

/-- The order that a slice would have by its content alone. -/
def contentOrder (ordPath : P → P → Ordering) : Slice P → Slice P → Ordering :=
  compareLex (comap Slice.bytes (List.compareLex compare)) (comap ended (List.compareLex (relocOrder ordPath)))

instance [Std.TransCmp ordPath] : Std.TransCmp (contentOrder ordPath) := inferInstanceAs (Std.TransCmp (compareLex _ _))

theorem length_bytes (x : Slice P) : x.bytes.length = x.size := by
  have := x.fits
  simp only [Slice.bytes, List.length_take, List.length_drop]
  omega

theorem size_eq_of_bytes (h : x.bytes = y.bytes) : x.size = y.size := by
  rw [← length_bytes, ← length_bytes, h]

theorem ord_eq (x y : Slice P) : x.ord ordPath y =
    (List.compareLex compare x.bytes y.bytes).then
      (common (relocOrder ordPath) (x.inside ++ x.beyond) (y.inside ++ y.beyond)) := by
  rw [Slice.ord, ← Ordering.then_assoc, ordLoop_eq_common, fromStart_relative, fromStart_relative,
    ← common_then_length, length_bytes, length_bytes]

theorem eq_iff_ord (x y : Slice P) : x.eq ordPath y ↔ x.ord ordPath y = .eq := by
  have hbytes : List.compareLex compare x.bytes y.bytes = .eq ↔ x.bytes = y.bytes := by simp
  rw [Slice.ord, ← Ordering.then_assoc, Ordering.then_eq_eq, ← length_bytes x, ← length_bytes y, common_then_length,
    hbytes, ← eqLoop_iff]
  unfold Slice.eq
  split
  next hsize => exact iff_of_false (by simp) fun h => hsize (size_eq_of_bytes h.1)
  next =>
    split
    next h => exact iff_of_false (by simp) fun h' => h h'.1
    next h => simp [not_not.mp h]

theorem same_iff (x y : Slice P) :
    Same ordPath x y ↔ x.bytes = y.bytes ∧ Matches (relocOrder ordPath) x.inside y.inside := by
  simp [Same, Matches, relocOrder_eq_eq]

/-- Where nothing beyond the slices counts, the order is that of the content. -/
theorem ord_eq_contentOrder [Std.TransCmp ordPath] (h : Comparable ordPath x y) :
    x.ord ordPath y = contentOrder ordPath x y := by
  rw [ord_eq, contentOrder, compareLex, comap, comap]
  by_cases hbytes : x.bytes = y.bytes
  · have hsize := size_eq_of_bytes hbytes
    have hrest : common (relocOrder ordPath) (x.inside ++ x.beyond) (y.inside ++ y.beyond) =
        List.compareLex (relocOrder ordPath) (ended x) (ended y) := by
      rw [ended, ended, ← hsize]
      apply common_append (h hbytes)
      · intro r hr s hs
        apply relocOrder_of_gt
        have := inside_ofs y hs
        rcases List.mem_cons.mp hr with rfl | hr
        · exact hsize ▸ this
        · have := beyond_ofs x hr
          omega
      · intro r hr s hs
        apply relocOrder_of_lt
        have := inside_ofs x hr
        rcases List.mem_cons.mp hs with rfl | hs
        · exact this
        · have := beyond_ofs y hs
          omega
      · exact Std.ReflCmp.compare_self
    rw [hrest]
  · have hne : List.compareLex compare x.bytes y.bytes ≠ .eq := by simpa using hbytes
    cases hcmp : List.compareLex compare x.bytes y.bytes with
    | lt => rfl
    | eq => exact absurd hcmp hne
    | gt => rfl

theorem contentOrder_eq_eq [Std.TransCmp ordPath] : contentOrder ordPath x y = .eq ↔ Same ordPath x y := by
  have hbytes : List.compareLex compare x.bytes y.bytes = .eq ↔ x.bytes = y.bytes := by simp
  rw [same_iff, contentOrder, compareLex_eq_eq, comap, comap, hbytes, ← matches_iff_compareLex, ended, ended]
  apply and_congr_right
  intro h
  rw [size_eq_of_bytes h]
  have hlast : relocOrder ordPath ⟨y.size, 0, .bytes []⟩ ⟨y.size, 0, .bytes []⟩ = .eq := Std.ReflCmp.compare_self
  rw [matches_concat]
  exact and_iff_left hlast

/-- Otherwise the answer is wrong. -/
theorem comparable_of_eq_iff (h : x.eq ordPath y ↔ Same ordPath x y) : Comparable ordPath x y := by
  intro hbytes
  rw [eq_iff_ord, ord_eq, same_iff, Ordering.then_eq_eq] at h
  have heq : List.compareLex compare x.bytes y.bytes = .eq := by simp [hbytes]
  simp only [hbytes, true_and] at h
  constructor
  case rest =>
    intro hmatches
    rw [← common_append_of_matches hmatches]
    exact (h.mpr hmatches).2
  case left =>
    intro hends hnil
    apply not_matches_of_endsFirst hends
    apply h.mp
    rw [hnil, List.append_nil]
    exact ⟨by simp, common_append_of_endsFirst hends⟩
  case right =>
    intro hends hnil
    apply not_matches_of_endsFirst hends
    apply matches_flip.mpr
    apply h.mp
    rw [hnil, List.append_nil, ← common_flip]
    exact ⟨by simp, common_append_of_endsFirst hends⟩

/-- A set of slices is compared by content exactly if every two of them are comparable. -/
theorem comparedByContent_iff [Std.TransCmp ordPath] (s : Set (Slice P)) :
    ComparedByContent ordPath s ↔ ∀ x ∈ s, ∀ y ∈ s, Comparable ordPath x y := by
  constructor
  · intro h x hx y hy
    exact comparable_of_eq_iff (h.eq x hx y hy)
  · intro h
    have hord : ∀ x ∈ s, ∀ y ∈ s, x.ord ordPath y = contentOrder ordPath x y :=
      fun x hx y hy => ord_eq_contentOrder (h x hx y hy)
    constructor
    case eq =>
      intro x hx y hy
      rw [eq_iff_ord, hord x hx y hy, contentOrder_eq_eq]
    case ord =>
      intro x hx y hy
      rw [hord x hx y hy, contentOrder_eq_eq]
    case total => exact .of_eq hord

end Relocations

end Mrustc.Hir.Encoded
