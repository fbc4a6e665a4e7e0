import Mathlib.Data.List.GetD
import Mathlib.Data.List.TakeWhile
import Mathlib.Tactic

/-! # The set of interned strings

`TieredSet`: sorted buffers of at most 1024 entries, split in half when full. The entries are generic; what
is looked for is given by how an entry compares with it.
-/

namespace Mrustc.RcString

variable {α : Type} (c : α → Ordering)

def blockSize : ℕ := 1024

/-- `std::lower_bound`, on a range whose front part satisfies `p`. -/
def lowerBound {β : Type} (p : β → Bool) (l : List β) : ℕ := (l.takeWhile p).length

/-- `vector::insert` -/
def insertAt (l : List α) (j : ℕ) (x : α) : List α := l.take j ++ x :: l.drop j

/-- `insert_into_block`, with the block and the slot as indices. A full block is split before. -/
def insertIntoBlock (blocks : List (List α)) (i j : ℕ) (rv : α) : List (List α) :=
  let ents := blocks.getD i []
  let splitPoint := ents.length / 2
  if ents.length = blockSize then
    if j ≥ splitPoint then
      blocks.take i ++ [ents.take splitPoint, (ents.drop splitPoint).take (j - splitPoint) ++ rv :: ents.drop j] ++
        blocks.drop (i + 1)
    else
      blocks.take i ++ [insertAt (ents.take splitPoint) j rv, ents.drop splitPoint] ++ blocks.drop (i + 1)
  else blocks.take i ++ [insertAt ents j rv] ++ blocks.drop (i + 1)

/-- The first entry of a block sorts before the string. -/
def frontLess (b : List α) : Bool := b.head?.any (c · == .lt)

/-- `lookup_or_add`: the entry that is equal to the string, or the blocks with `rv` added. -/
def lookupOrAdd (blocks : List (List α)) (rv : α) : Option α × List (List α) :=
  if blocks.isEmpty then (none, [[rv]])
  else
    let i := lowerBound (frontLess c) blocks
    match (blocks[i]?.bind List.head?).filter (c · == .eq) with
    | some e => (some e, blocks)
    | none =>
      if i = 0 then (none, insertIntoBlock blocks 0 0 rv)
      else
        let ents := blocks.getD (i - 1) []
        let j := lowerBound (c · == .lt) ents
        match ents[j]?.filter (c · == .eq) with
        | some e => (some e, blocks)
        | none => (none, insertIntoBlock blocks (i - 1) j rv)

section Insert

/-- Every block has an entry, and none has more than fit. -/
def WellFormed (blocks : List (List α)) : Prop := ∀ b ∈ blocks, b ≠ [] ∧ b.length ≤ blockSize

theorem length_insertAt (l : List α) (j : ℕ) (x : α) : (insertAt l j x).length = l.length + 1 := by
  rw [insertAt, List.length_append, List.length_cons, List.length_take, List.length_drop]
  omega

theorem insertAt_ne_nil (l : List α) (j : ℕ) (x : α) : insertAt l j x ≠ [] :=
  List.append_ne_nil_of_right_ne_nil _ (List.cons_ne_nil _ _)

theorem splitAt_block (front back : List (List α)) (ents : List α) :
    (front ++ ents :: back).getD front.length [] = ents ∧
      (front ++ ents :: back).take front.length = front ∧
      (front ++ ents :: back).drop (front.length + 1) = back := by
  refine ⟨?_, List.take_left, ?_⟩
  · rw [List.getD_append_right _ _ _ _ le_rfl, Nat.sub_self, List.getD_cons_zero]
  · rw [List.drop_append, List.drop_of_length_le (Nat.le_succ _), Nat.add_sub_cancel_left]
    rfl

/-- Whether the block is split or not, the entry comes to stand in its slot. -/
theorem flatten_insertIntoBlock (front back : List (List α)) (ents : List α) (j : ℕ) (rv : α) :
    (insertIntoBlock (front ++ ents :: back) front.length j rv).flatten =
      front.flatten ++ ents.take j ++ rv :: (ents.drop j ++ back.flatten) := by
  obtain ⟨h1, h2, h3⟩ := splitAt_block front back ents
  rw [insertIntoBlock, h1, h2, h3]
  have hhalves := List.take_append_drop (ents.length / 2) ents
  split_ifs with hfull hj
  · have htake : ents.take (ents.length / 2) ++ (ents.drop (ents.length / 2)).take (j - ents.length / 2) =
        ents.take j := by
      rw [← List.take_add, Nat.add_sub_cancel' hj]
    simp only [List.flatten_append, List.flatten_cons, ← htake,
      List.append_assoc, List.cons_append, List.nil_append]
  · have hle : j ≤ ents.length / 2 := (Nat.lt_of_not_ge hj).le
    have htake : (ents.take (ents.length / 2)).take j = ents.take j := by
      rw [List.take_take, Nat.min_eq_left hle]
    have hdrop : (ents.take (ents.length / 2)).drop j ++ ents.drop (ents.length / 2) = ents.drop j := by
      conv_rhs => rw [← hhalves]
      rw [List.drop_append_of_le_length]
      rw [List.length_take]
      omega
    simp only [insertAt, List.flatten_append, List.flatten_cons, htake,
      ← hdrop, List.append_assoc, List.cons_append, List.nil_append]
  · simp only [insertAt, List.flatten_append, List.flatten_cons, List.nil_append,
      List.append_assoc, List.cons_append]

theorem wellFormed_insertIntoBlock {front back : List (List α)} {ents : List α}
    (h : WellFormed (front ++ ents :: back)) {j : ℕ} (hj : j ≤ ents.length) (rv : α) :
    WellFormed (insertIntoBlock (front ++ ents :: back) front.length j rv) := by
  obtain ⟨h1, h2, h3⟩ := splitAt_block front back ents
  obtain ⟨hne, hle⟩ := h ents (by simp)
  have hsize : blockSize = 1024 := rfl
  have hrest {new : List (List α)} (hnew : ∀ b ∈ new, b ≠ [] ∧ b.length ≤ blockSize) :
      WellFormed (front ++ new ++ back) := by
    intro b hb
    rcases List.mem_append.mp hb with hb | hb
    · rcases List.mem_append.mp hb with hb | hb
      · exact h b (List.mem_append_left _ hb)
      · exact hnew b hb
    · exact h b (List.mem_append_right _ (List.mem_cons_of_mem _ hb))
  rw [insertIntoBlock, h1, h2, h3]
  split_ifs with hfull hsplit
  · refine hrest ?_
    simp only [List.forall_mem_cons, List.not_mem_nil, IsEmpty.forall_iff, implies_true, and_true]
    refine ⟨⟨?_, ?_⟩, List.append_ne_nil_of_right_ne_nil _ (List.cons_ne_nil _ _), ?_⟩
    · exact List.ne_nil_of_length_pos (by rw [List.length_take]; omega)
    · rw [List.length_take]
      omega
    · rw [List.length_append, List.length_take, List.length_cons, List.length_drop, List.length_drop]
      omega
  · refine hrest ?_
    simp only [List.forall_mem_cons, List.not_mem_nil, IsEmpty.forall_iff, implies_true, and_true]
    refine ⟨⟨insertAt_ne_nil _ _ _, ?_⟩, ?_, ?_⟩
    · rw [length_insertAt, List.length_take]
      omega
    · exact List.ne_nil_of_length_pos (by rw [List.length_drop]; omega)
    · rw [List.length_drop]
      omega
  · refine hrest ?_
    simp only [List.forall_mem_cons, List.not_mem_nil, IsEmpty.forall_iff, implies_true, and_true]
    refine ⟨insertAt_ne_nil _ _ _, ?_⟩
    rw [length_insertAt]
    omega

end Insert

section Lookup

variable {c} {blocks : List (List α)} {rv : α}

/-- Behind an entry that does not sort before the string, all sort after it. -/
def Ordered (c : α → Ordering) (l : List α) : Prop := l.Pairwise fun x y => c x ≠ .lt → c y = .gt

/-- From the lower bound on, the entries sort after the string unless the first is equal to it. -/
theorem gt_of_head {l : List α} (h : Ordered c l) (hne : ∀ e ∈ l.head?, c e = .gt) : ∀ e ∈ l, c e = .gt := by
  cases l with
  | nil => exact fun e he => by cases he
  | cons x l =>
    have hx : c x = .gt := hne x rfl
    intro e he
    rcases List.mem_cons.mp he with rfl | he
    · exact hx
    · exact List.rel_of_pairwise_cons h he (by rw [hx]; exact Ordering.noConfusion)

/-- Before a block whose first entry sorts before the string, all entries do. -/
theorem lt_of_frontLess {l b l' : List α} (h : Ordered c (l ++ b ++ l')) (hb : frontLess c b = true) :
    ∀ e ∈ l, c e = .lt := by
  cases b with
  | nil => cases hb
  | cons x xs =>
    intro e he
    have hx : c x = .lt := by simpa [frontLess] using hb
    by_contra hne
    have hgt := (List.pairwise_append.mp (List.pairwise_append.mp h).1).2.2 e he x List.mem_cons_self hne
    rw [hx] at hgt
    cases hgt

theorem lowerBound_split {β : Type} (p : β → Bool) (l : List β) :
    ∃ a b, l = a ++ b ∧ lowerBound p l = a.length ∧ (∀ x ∈ a, p x = true) ∧ (∀ x ∈ b.head?, p x = false) := by
  refine ⟨l.takeWhile p, l.dropWhile p, List.takeWhile_append_dropWhile.symm, rfl,
    fun x hx => List.mem_takeWhile_imp hx, ?_⟩
  intro x hx
  have hhead := List.head?_dropWhile_not p l
  rwa [Option.mem_def.mp hx] at hhead

theorem gt_of_not_lt {x : α} (hlt : (c x == .lt) = false) (heq : ¬c x = .eq) : c x = .gt := by
  cases h : c x with
  | lt => rw [h] at hlt; cases hlt
  | eq => exact absurd h heq
  | gt => rfl

/-- The blocks from the lower bound on hold nothing that is not after the string. -/
theorem gt_of_blocks (hw : WellFormed blocks) (h : Ordered c blocks.flatten)
    (hhead : ∀ b ∈ blocks.head?, frontLess c b = false)
    (hnone : (blocks.head?.bind List.head?).filter (c · == .eq) = none) : ∀ e ∈ blocks.flatten, c e = .gt := by
  refine gt_of_head h ?_
  cases blocks with
  | nil => exact fun e he => by cases he
  | cons b rest =>
    cases b with
    | nil => exact absurd rfl (hw [] List.mem_cons_self).1
    | cons x xs =>
      intro e he
      cases he
      have hlt : (c x == .lt) = false := hhead (x :: xs) rfl
      refine gt_of_not_lt hlt fun heq => ?_
      simp [heq] at hnone

/-- The insertion at the slot `l.length` of the block `l ++ r`. -/
theorem insert_spec {front back : List (List α)} {l r : List α}
    (hw : WellFormed (front ++ (l ++ r) :: back)) (rv : α) :
    (insertIntoBlock (front ++ (l ++ r) :: back) front.length l.length rv).flatten =
        front.flatten ++ l ++ rv :: (r ++ back.flatten) ∧
      WellFormed (insertIntoBlock (front ++ (l ++ r) :: back) front.length l.length rv) := by
  refine ⟨?_, wellFormed_insertIntoBlock hw (by simp) rv⟩
  rw [flatten_insertIntoBlock, List.take_left, List.drop_left]

/-- What a search finds, and where it adds what it does not find. -/
theorem lookupOrAdd_spec (hw : WellFormed blocks) (h : Ordered c blocks.flatten) (rv : α) :
    (∃ e ∈ blocks.flatten, c e = .eq ∧ lookupOrAdd c blocks rv = (some e, blocks)) ∨
    ∃ l r blocks', blocks.flatten = l ++ r ∧ (∀ e ∈ l, c e = .lt) ∧ (∀ e ∈ r, c e = .gt) ∧
      lookupOrAdd c blocks rv = (none, blocks') ∧ blocks'.flatten = l ++ rv :: r ∧ WellFormed blocks' := by
  rw [lookupOrAdd]
  by_cases hnil : blocks = []
  · subst hnil
    refine .inr ⟨[], [], [[rv]], rfl, by simp, by simp, rfl, rfl, ?_⟩
    simp [WellFormed, blockSize]
  rw [if_neg (by simpa using hnil)]
  obtain ⟨before, after, rfl, hi, hbefore, hafter⟩ := lowerBound_split (frontLess c) blocks
  rw [hi]
  have hget : (before ++ after)[before.length]? = after.head? := by
    rw [List.getElem?_append_right le_rfl, Nat.sub_self, List.head?_eq_getElem?]
  dsimp only
  rw [hget]
  cases hfound : (after.head?.bind List.head?).filter (c · == .eq) with
  | some e =>
    rw [Option.filter_eq_some_iff] at hfound
    obtain ⟨hfront, heq⟩ := hfound
    obtain ⟨b, hb, he⟩ := Option.bind_eq_some_iff.mp hfront
    refine .inl ⟨e, ?_, by simpa using heq, rfl⟩
    exact List.mem_flatten.mpr ⟨b, List.mem_append_right _ (List.mem_of_mem_head? hb), List.mem_of_mem_head? he⟩
  | none =>
    have hparts := h
    rw [List.flatten_append] at hparts
    obtain ⟨hsorted, hsorted', -⟩ := List.pairwise_append.mp hparts
    have hgt : ∀ e ∈ after.flatten, c e = .gt :=
      gt_of_blocks (fun b hb => hw b (List.mem_append_right _ hb)) hsorted' hafter hfound
    dsimp only
    rcases List.eq_nil_or_concat' before with rfl | ⟨front, ents, rfl⟩
    · -- the first block takes it at its start
      cases after with
      | nil => exact absurd rfl hnil
      | cons b back =>
        obtain ⟨hflat, hwell⟩ := @insert_spec α [] back [] b hw rv
        exact .inr ⟨[], (b :: back).flatten, _, rfl, by simp, hgt, if_pos rfl, hflat, hwell⟩
    · -- the last block that starts before it takes it
      have hshape : front ++ [ents] ++ after = front ++ ents :: after := by simp
      rw [hshape] at hw h ⊢
      have hpos : (front ++ [ents]).length ≠ 0 := by simp
      have hlast : (front ++ [ents]).length - 1 = front.length := by simp
      rw [if_neg hpos, hlast, (splitAt_block front after ents).1]
      obtain ⟨l, r, rfl, hj, hl, hr⟩ := lowerBound_split (c · == .lt) ents
      have hget' : (l ++ r)[l.length]? = r.head? := by
        rw [List.getElem?_append_right le_rfl, Nat.sub_self, List.head?_eq_getElem?]
      rw [hj, hget']
      have hmem {e : α} (he : e ∈ l ++ r) : e ∈ (front ++ (l ++ r) :: after).flatten :=
        List.mem_flatten.mpr ⟨_, List.mem_append_right _ List.mem_cons_self, he⟩
      have hflat : (front ++ (l ++ r) :: after).flatten = (front.flatten ++ l) ++ (r ++ after.flatten) := by
        simp
      cases hfound' : r.head?.filter (c · == .eq) with
      | some e =>
        rw [Option.filter_eq_some_iff] at hfound'
        exact .inl ⟨e, hmem (List.mem_append_right _ (List.mem_of_mem_head? hfound'.1)),
          by simpa using hfound'.2, rfl⟩
      | none =>
        have hfront : ∀ e ∈ front.flatten, c e = .lt := by
          refine @lt_of_frontLess α c front.flatten (l ++ r) after.flatten ?_ (hbefore _ (by simp))
          rwa [hflat, List.append_assoc, ← List.append_assoc l, ← List.append_assoc] at h
        rw [hflat] at h
        have hright := (List.pairwise_append.mp h).2.1
        obtain ⟨hins, hwell⟩ := insert_spec hw rv
        refine .inr ⟨front.flatten ++ l, r ++ after.flatten, _, hflat, ?_, ?_, rfl, hins, hwell⟩
        · intro e he
          rcases List.mem_append.mp he with he | he
          · exact hfront e he
          · simpa using hl e he
        · intro e he
          rcases List.mem_append.mp he with he | he
          · refine gt_of_head (List.pairwise_append.mp hright).1 ?_ e he
            intro x hx
            refine gt_of_not_lt (hr x hx) fun heq => ?_
            rw [Option.mem_def.mp hx] at hfound'
            simp [heq] at hfound'
          · exact hgt e he

end Lookup

end Mrustc.RcString
