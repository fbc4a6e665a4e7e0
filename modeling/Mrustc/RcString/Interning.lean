import Mrustc.RcString.TieredSet

/-! # Interned strings

The nodes that `RcString` points to, without their reference counts: addresses are positions in the heap, and
what is dropped stays. Sizes and orderings are `unsigned int`.
-/

namespace Mrustc.RcString

/-- Lexicographic order of the bytes, the shorter prefix first. -/
def byteOrder (s t : List UInt8) : Ordering := List.compareLex compare s t

instance : Std.TransCmp byteOrder := inferInstanceAs (Std.TransCmp (List.compareLex compare))

instance : Std.LawfulEqCmp byteOrder := inferInstanceAs (Std.LawfulEqCmp (List.compareLex compare))

/-- `memcmp`, over as many bytes as both have -/
def memcmp : List UInt8 → List UInt8 → Ordering
  | a :: as, b :: bs => (compare a b).then (memcmp as bs)
  | _, _ => .eq

/-- `RcString::Inner`. The ordering is populated only for interned strings, 0 otherwise. -/
structure Inner where
  size : BitVec 32
  ordering : BitVec 32
  data : List UInt8

namespace Inner

/-- The node that the constructor of `RcString` makes. -/
def new (s : List UInt8) (ordering : BitVec 32) : Inner := ⟨BitVec.ofNat 32 s.length, ordering, s⟩

/-- The `size()` bytes at `c_str()`. -/
def bytes (x : Inner) : List UInt8 := x.data.take x.size.toNat

/-- `ord(const char*, size_t)` -/
def ordBytes (x : Inner) (s : List UInt8) : Ordering :=
  let cmpLen := min s.length x.size.toNat
  (memcmp (x.data.take cmpLen) (s.take cmpLen)).then (compare x.size.toNat s.length)

end Inner

/-- The heap, `RcString_interned_strings` and `RcString_interned_ordering_valid`. -/
structure State where
  heap : List Inner
  internedStrings : List (List ℕ)
  orderingValid : Bool

namespace State

def init : State := ⟨[], [], false⟩

def node (st : State) (p : ℕ) : Inner := st.heap.getD p (.new [] 0)

/-- The constructor: an empty string has no node. -/
def make (st : State) (s : List UInt8) : Option ℕ × State :=
  if s.length > 0 then (some st.heap.length, {st with heap := st.heap ++ [.new s 0]}) else (none, st)

/-- `new_interned`: an insertion invalidates the cached ordering. -/
def newInterned (st : State) (s : List UInt8) : Option ℕ × State :=
  if s.length = 0 then (none, st)
  else
    match lookupOrAdd (fun p => (st.node p).ordBytes s) st.internedStrings st.heap.length with
    | (some p, _) => (some p, st)
    | (none, blocks) => (some st.heap.length, ⟨st.heap ++ [.new s 1], blocks, false⟩)

def isInterned (st : State) (p : ℕ) : Bool := (st.node p).ordering ≠ 0

/-- Numbers the nodes of the set, from `i` on. -/
def populate : List Inner → BitVec 32 → List ℕ → List Inner
  | heap, _, [] => heap
  | heap, i, p :: ps => populate (heap.modify p fun x => {x with ordering := i}) (i + 1) ps

/-- The cached ordering, populated where it is not valid. -/
def ordered (st : State) : State :=
  if st.orderingValid then st
  else {st with heap := populate st.heap 1 st.internedStrings.flatten, orderingValid := true}

/-- `ord_interned` -/
def ordInterned (st : State) (p q : ℕ) : Ordering × State :=
  (compare (st.ordered.node p).ordering.toNat (st.ordered.node q).ordering.toNat, st.ordered)

/-- `ord(const RcString&)` -/
def ord (st : State) (a b : Option ℕ) : Ordering × State :=
  if a = b then (.eq, st)
  else
    match a, b with
    | none, _ => (.lt, st)
    | some _, none => (.gt, st)
    | some p, some q =>
      if st.isInterned p && st.isInterned q then st.ordInterned p q
      else ((st.node p).ordBytes (st.node q).bytes, st)

/-- The string that a handle stands for. -/
def text (st : State) : Option ℕ → List UInt8
  | none => []
  | some p => (st.node p).data

end State

/-- What a program does with strings. -/
inductive Op
  | make (s : List UInt8)
  | newInterned (s : List UInt8)
  | ord (a b : Option ℕ)

/-- The string that an operation is given. -/
def Op.given : Op → Option (List UInt8)
  | make s | newInterned s => some s
  | ord _ _ => none

/-- The string that an operation interns. -/
def Op.interned : Op → Option (List UInt8)
  | newInterned s => some s
  | _ => none

inductive Result
  | string (a : Option ℕ)
  | ordering (o : Ordering)

namespace State

/-- A handle was returned by an earlier operation. -/
def Live (st : State) (a : Option ℕ) : Bool := a.all (· < st.heap.length)

/-- One operation, with live handles. -/
def step (st : State) : Op → Option (Result × State)
  | .make s => some (.string (st.make s).1, (st.make s).2)
  | .newInterned s => some (.string (st.newInterned s).1, (st.newInterned s).2)
  | .ord a b => if st.Live a && st.Live b then some (.ordering (st.ord a b).1, (st.ord a b).2) else none

def run : State → List Op → Option (List Result × State)
  | st, [] => some ([], st)
  | st, op :: ops => do
    let (r, st) ← st.step op
    let (rs, st) ← st.run ops
    some (r :: rs, st)

end State

section Compare

theorem byteOrder_cons (a b : UInt8) (as bs : List UInt8) :
    byteOrder (a :: as) (b :: bs) = (compare a b).then (byteOrder as bs) := List.compareLex_cons_cons

/-- The common length first, then the sizes. -/
theorem memcmp_then (s t : List UInt8) :
    (memcmp (s.take (min t.length s.length)) (t.take (min t.length s.length))).then
      (compare s.length t.length) = byteOrder s t := by
  induction s generalizing t with
  | nil =>
    cases t with
    | nil => rfl
    | cons b bs => simp [memcmp, byteOrder, List.compareLex, Nat.compare_eq_lt]
  | cons a as ih =>
    cases t with
    | nil => simp [memcmp, byteOrder, List.compareLex, Nat.compare_eq_gt]
    | cons b bs =>
      rw [byteOrder_cons, ← ih]
      have hlen : compare (as.length + 1) (bs.length + 1) = compare as.length bs.length := by
        simp [compare, compareOfLessAndEq]
      simp [memcmp, Nat.succ_min_succ, Ordering.then_assoc, hlen]

/-- A node whose size is not cut off. -/
def Inner.Whole (x : Inner) : Prop := x.size.toNat = x.data.length ∧ x.data ≠ []

theorem Inner.Whole.ordBytes {x : Inner} (h : x.Whole) (s : List UInt8) :
    x.ordBytes s = byteOrder x.data s := by
  rw [Inner.ordBytes, h.1]
  exact memcmp_then x.data s

theorem Inner.Whole.bytes {x : Inner} (h : x.Whole) : x.bytes = x.data := by
  rw [Inner.bytes, h.1, List.take_length]

theorem Inner.whole_new {s : List UInt8} (hs : s ≠ []) (hlen : s.length < 2 ^ 32) (i : BitVec 32) :
    (Inner.new s i).Whole := by
  refine ⟨?_, hs⟩
  rw [Inner.new, BitVec.toNat_ofNat, Nat.mod_eq_of_lt hlen]

end Compare

section Nodes

variable {st : State} {p : ℕ}

theorem getD_append_of_lt {heap : List Inner} (x d : Inner) (h : p < heap.length) :
    (heap ++ [x]).getD p d = heap.getD p d := List.getD_append _ _ _ _ h

theorem getD_append_length (heap : List Inner) (x d : Inner) : (heap ++ [x]).getD heap.length d = x := by
  rw [List.getD_append_right _ _ _ _ le_rfl, Nat.sub_self, List.getD_cons_zero]

theorem length_populate (heap : List Inner) (i : BitVec 32) (ps : List ℕ) :
    (State.populate heap i ps).length = heap.length := by
  induction ps generalizing heap i with
  | nil => rfl
  | cons p ps ih => rw [State.populate, ih, List.length_modify]

/-- Every node of the list gets its number, and keeps everything else. -/
theorem getElem?_populate {ps : List ℕ} (h : ps.Nodup) (heap : List Inner) (i : BitVec 32) (p : ℕ) :
    (State.populate heap i ps)[p]? = heap[p]?.map fun x =>
      {x with ordering := if p ∈ ps then i + BitVec.ofNat 32 (ps.idxOf p) else x.ordering} := by
  induction ps generalizing heap i with
  | nil => simp [State.populate]
  | cons q ps ih =>
    obtain ⟨hq, hps⟩ := List.nodup_cons.mp h
    rw [State.populate, ih hps, List.getElem?_modify]
    by_cases hpq : q = p
    · subst hpq
      cases heap[q]? with
      | none => rfl
      | some x => simp [hq]
    · cases heap[p]? with
      | none => rfl
      | some x =>
        have hidx : i + 1#32 + BitVec.ofNat 32 (ps.idxOf p) = i + BitVec.ofNat 32 (ps.idxOf p + 1) := by
          rw [BitVec.ofNat_add, BitVec.add_assoc, BitVec.add_comm 1#32]
        simp [hpq, Ne.symm hpq, List.idxOf_cons_ne, hidx]

end Nodes

section Invariant

variable {st st' : State} {S : Finset (List UInt8)} {s : List UInt8} {p q : ℕ}

/-- The concatenation of the blocks. -/
def State.entries (st : State) : List ℕ := st.internedStrings.flatten

/-- What holds between the operations, if only strings of `S` are interned. -/
structure Inv (S : Finset (List UInt8)) (st : State) : Prop where
  wellFormed : WellFormed st.internedStrings
  sorted : st.entries.Pairwise fun p q => byteOrder (st.node p).data (st.node q).data = .lt
  live : ∀ p ∈ st.entries, p < st.heap.length
  whole : ∀ p < st.heap.length, (st.node p).Whole
  interned : ∀ p < st.heap.length, st.isInterned p = true ↔ p ∈ st.entries
  known : ∀ p ∈ st.entries, (st.node p).data ∈ S
  cached : st.orderingValid = true → ∀ k p, st.entries[k]? = some p → (st.node p).ordering.toNat = k + 1

/-- Nodes keep their strings, and the set keeps its nodes. -/
structure Extends (st st' : State) : Prop where
  length : st.heap.length ≤ st'.heap.length
  data : ∀ p < st.heap.length, (st'.node p).data = (st.node p).data
  entries : ∀ p ∈ st.entries, p ∈ st'.entries

theorem Extends.refl (st : State) : Extends st st := ⟨le_rfl, fun _ _ => rfl, fun _ h => h⟩

theorem Extends.trans {st'' : State} (h : Extends st st') (h' : Extends st' st'') : Extends st st'' where
  length := h.length.trans h'.length
  data := fun p hp => (h'.data p (hp.trans_le h.length)).trans (h.data p hp)
  entries := fun p hp => h'.entries p (h.entries p hp)

theorem byteOrder_self (s : List UInt8) : byteOrder s s = .eq := Std.ReflCmp.compare_self

theorem Inv.nodup (h : Inv S st) : st.entries.Nodup := by
  refine h.sorted.imp ?_
  rintro p q hpq rfl
  rw [byteOrder_self] at hpq
  cases hpq

/-- No two nodes of the set hold the same string. -/
theorem Inv.eq_of_data (h : Inv S st) (hp : p ∈ st.entries) (hq : q ∈ st.entries)
    (hdata : (st.node p).data = (st.node q).data) : p = q := by
  by_contra hne
  have hsym : Std.Symm fun p q : ℕ => (st.node p).data ≠ (st.node q).data := ⟨fun _ _ h => h.symm⟩
  have hdistinct : st.entries.Pairwise fun p q => (st.node p).data ≠ (st.node q).data := by
    refine h.sorted.imp ?_
    intro p q hpq heq
    rw [heq, byteOrder_self] at hpq
    cases hpq
  exact hdistinct.forall hp hq hne hdata

theorem Inv.length_le (h : Inv S st) : st.entries.length ≤ S.card := by
  have hnodup : (st.entries.map fun p => (st.node p).data).Nodup :=
    List.Nodup.map_on (fun p hp q hq heq => h.eq_of_data hp hq heq) h.nodup
  have hsub : (st.entries.map fun p => (st.node p).data).toFinset ⊆ S := by
    intro t ht
    obtain ⟨p, hp, rfl⟩ := List.mem_map.mp (List.mem_toFinset.mp ht)
    exact h.known p hp
  have hcard := Finset.card_le_card hsub
  rwa [List.toFinset_card_of_nodup hnodup, List.length_map] at hcard

theorem inv_init : Inv S State.init where
  wellFormed := fun b hb => by cases hb
  sorted := List.Pairwise.nil
  live := fun p hp => by cases hp
  whole := fun p hp => absurd hp (Nat.not_lt_zero p)
  interned := fun p hp => absurd hp (Nat.not_lt_zero p)
  known := fun p hp => by cases hp
  cached := fun h => by cases h

section Make

theorem node_append_of_lt {heap : List Inner} {blocks : List (List ℕ)} {v : Bool} (x : Inner)
    (h : p < heap.length) : State.node ⟨heap ++ [x], blocks, v⟩ p = heap.getD p (.new [] 0) :=
  getD_append_of_lt x _ h

theorem lt_succ_cases {n : ℕ} (h : p < n + 1) : p < n ∨ p = n := Nat.lt_succ_iff_lt_or_eq.mp h

/-- A string outside the set. -/
theorem inv_make (h : Inv S st) (hlen : s.length < 2 ^ 32) : Inv S (st.make s).2 := by
  rw [State.make]
  by_cases hs : s.length > 0
  · rw [if_pos hs]
    have hold {p : ℕ} (hp : p < st.heap.length) :
        State.node {st with heap := st.heap ++ [.new s 0]} p = st.node p := getD_append_of_lt _ _ hp
    have hnew : State.node {st with heap := st.heap ++ [.new s 0]} st.heap.length = .new s 0 :=
      getD_append_length _ _ _
    have hne : s ≠ [] := List.ne_nil_of_length_pos hs
    refine ⟨h.wellFormed, ?_, ?_, ?_, ?_, ?_, ?_⟩
    · refine h.sorted.imp_of_mem ?_
      intro p q hp hq hpq
      rwa [hold (h.live p hp), hold (h.live q hq)]
    · intro p hp
      exact (h.live p hp).trans_le (by simp)
    · intro p hp
      rw [List.length_append, List.length_singleton] at hp
      rcases lt_succ_cases hp with hp | rfl
      · rw [hold hp]
        exact h.whole p hp
      · rw [hnew]
        exact Inner.whole_new hne hlen 0
    · intro p hp
      rw [List.length_append, List.length_singleton] at hp
      rcases lt_succ_cases hp with hp | rfl
      · rw [State.isInterned, hold hp]
        exact h.interned p hp
      · rw [State.isInterned, hnew]
        exact iff_of_false (by simp [Inner.new]) fun hmem => absurd (h.live _ hmem) (lt_irrefl _)
    · intro p hp
      rw [hold (h.live p hp)]
      exact h.known p hp
    · intro hv k p hk
      rw [hold (h.live p (List.mem_of_getElem? hk))]
      exact h.cached hv k p hk
  · rw [if_neg hs]
    exact h

theorem extends_make (st : State) (s : List UInt8) : Extends st (st.make s).2 := by
  rw [State.make]
  split
  · exact ⟨by simp, fun p hp => congrArg Inner.data (getD_append_of_lt _ _ hp), fun p hp => hp⟩
  · exact Extends.refl st

end Make

section Intern

/-- The nodes are ordered for a search. -/
theorem Inv.ordered (h : Inv S st) (s : List UInt8) :
    Ordered (fun p => (st.node p).ordBytes s) st.internedStrings.flatten := by
  refine h.sorted.imp_of_mem ?_
  intro p q hp hq hpq hlt
  dsimp only at hlt ⊢
  rw [(h.whole p (h.live p hp)).ordBytes] at hlt
  rw [(h.whole q (h.live q hq)).ordBytes]
  cases hcmp : byteOrder (st.node p).data s with
  | lt => exact absurd hcmp hlt
  | eq =>
    rw [← Std.LawfulEqCmp.eq_of_compare hcmp]
    exact Std.OrientedCmp.gt_of_lt hpq
  | gt => exact Std.OrientedCmp.gt_of_lt (Std.TransCmp.lt_trans (Std.OrientedCmp.lt_of_gt hcmp) hpq)

/-- A new node between those before it and those after it. -/
theorem inv_insert (h : Inv S st) (hs : s ≠ []) (hlen : s.length < 2 ^ 32) (hmem : s ∈ S) {l r : List ℕ}
    {blocks : List (List ℕ)} (hsplit : st.internedStrings.flatten = l ++ r)
    (hl : ∀ p ∈ l, (st.node p).ordBytes s = .lt) (hr : ∀ p ∈ r, (st.node p).ordBytes s = .gt)
    (hblocks : blocks.flatten = l ++ st.heap.length :: r) (hw : WellFormed blocks) :
    Inv S ⟨st.heap ++ [.new s 1], blocks, false⟩ := by
  have hold {p : ℕ} (hp : p < st.heap.length) :
      State.node ⟨st.heap ++ [.new s 1], blocks, false⟩ p = st.node p := getD_append_of_lt _ _ hp
  have hnew : State.node ⟨st.heap ++ [.new s 1], blocks, false⟩ st.heap.length = .new s 1 :=
    getD_append_length _ _ _
  have hentries : State.entries ⟨st.heap ++ [.new s 1], blocks, false⟩ = l ++ st.heap.length :: r := hblocks
  have hmem_iff (p : ℕ) : p ∈ l ++ st.heap.length :: r ↔ p ∈ st.entries ∨ p = st.heap.length := by
    rw [State.entries, hsplit]
    simp only [List.mem_append, List.mem_cons]
    tauto
  have hlive {p : ℕ} (hp : p ∈ l ++ r) : p < st.heap.length := h.live p (by rwa [State.entries, hsplit])
  have hsorted := h.sorted
  rw [State.entries, hsplit, List.pairwise_append] at hsorted
  obtain ⟨hsl, hsr, hslr⟩ := hsorted
  refine ⟨hw, ?_, ?_, ?_, ?_, ?_, ?_⟩
  · have hbefore {p : ℕ} (hp : p ∈ l) : byteOrder (st.node p).data s = .lt := by
      have hp' := List.mem_append_left r hp
      rw [← (h.whole p (hlive hp')).ordBytes]
      exact hl p hp
    have hafter {p : ℕ} (hp : p ∈ r) : byteOrder s (st.node p).data = .lt := by
      have hp' := List.mem_append_right l hp
      apply Std.OrientedCmp.lt_of_gt
      rw [← (h.whole p (hlive hp')).ordBytes]
      exact hr p hp
    have hdata : (Inner.new s 1).data = s := rfl
    rw [hentries, List.pairwise_append, List.pairwise_cons]
    refine ⟨?_, ⟨?_, ?_⟩, ?_⟩
    · refine hsl.imp_of_mem ?_
      intro p q hp hq hpq
      rwa [hold (hlive (List.mem_append_left r hp)), hold (hlive (List.mem_append_left r hq))]
    · intro q hq
      rw [hnew, hold (hlive (List.mem_append_right l hq))]
      exact hafter hq
    · refine hsr.imp_of_mem ?_
      intro p q hp hq hpq
      rwa [hold (hlive (List.mem_append_right l hp)), hold (hlive (List.mem_append_right l hq))]
    · intro p hp q hq
      rw [hold (hlive (List.mem_append_left r hp))]
      rcases List.mem_cons.mp hq with rfl | hq
      · rw [hnew]
        exact hbefore hp
      · rw [hold (hlive (List.mem_append_right l hq))]
        exact hslr p hp q hq
  · intro p hp
    rw [hentries, hmem_iff] at hp
    rw [List.length_append, List.length_singleton]
    rcases hp with hp | rfl
    · exact (h.live p hp).trans (Nat.lt_succ_self _)
    · exact Nat.lt_succ_self _
  · intro p hp
    rw [List.length_append, List.length_singleton] at hp
    rcases lt_succ_cases hp with hp | rfl
    · rw [hold hp]
      exact h.whole p hp
    · rw [hnew]
      exact Inner.whole_new hs hlen 1
  · intro p hp
    rw [List.length_append, List.length_singleton] at hp
    rw [hentries, hmem_iff]
    rcases lt_succ_cases hp with hp | rfl
    · rw [State.isInterned, hold hp]
      exact (h.interned p hp).trans (by simp [hp.ne])
    · rw [State.isInterned, hnew]
      exact iff_of_true (by simp [Inner.new]) (.inr rfl)
  · intro p hp
    rw [hentries, hmem_iff] at hp
    rcases hp with hp | rfl
    · rw [hold (h.live p hp)]
      exact h.known p hp
    · rw [hnew]
      exact hmem
  · exact fun hv => by cases hv

/-- What `new_interned` returns is a node of the set with the string, or nothing for the empty one. -/
theorem newInterned_spec (h : Inv S st) (hlen : s.length < 2 ^ 32) (hmem : s ∈ S) :
    Inv S (st.newInterned s).2 ∧ Extends st (st.newInterned s).2 ∧
      (st.newInterned s).2.text (st.newInterned s).1 = s ∧
      ∀ p, (st.newInterned s).1 = some p → p ∈ (st.newInterned s).2.entries := by
  rw [State.newInterned]
  by_cases hs : s.length = 0
  · rw [if_pos hs]
    exact ⟨h, Extends.refl st, (List.eq_nil_of_length_eq_zero hs).symm, fun p hp => by cases hp⟩
  rw [if_neg hs]
  have hne : s ≠ [] := fun hnil => hs (congrArg List.length hnil)
  rcases lookupOrAdd_spec h.wellFormed (h.ordered s) st.heap.length with
    ⟨p, hp, heq, hfound⟩ | ⟨l, r, blocks, hsplit, hl, hr, hadded, hblocks, hw⟩
  · rw [hfound]
    rw [(h.whole p (h.live p hp)).ordBytes] at heq
    refine ⟨h, Extends.refl st, Std.LawfulEqCmp.eq_of_compare heq, ?_⟩
    rintro q ⟨⟩
    exact hp
  · rw [hadded]
    refine ⟨inv_insert h hne hlen hmem hsplit hl hr hblocks hw, ⟨by simp, ?_, ?_⟩, ?_, ?_⟩
    · exact fun p hp => congrArg Inner.data (getD_append_of_lt _ _ hp)
    · intro p hp
      rw [State.entries, hsplit] at hp
      rw [State.entries, hblocks]
      simp only [List.mem_append, List.mem_cons] at hp ⊢
      tauto
    · exact congrArg Inner.data (getD_append_length _ _ _)
    · rintro q ⟨⟩
      rw [State.entries, hblocks]
      exact List.mem_append_right _ List.mem_cons_self

end Intern

section Order

theorem node_ordered (h : Inv S st) (hv : ¬st.orderingValid = true) (p : ℕ) (hp : p < st.heap.length) :
    st.ordered.node p = {st.node p with
      ordering := if p ∈ st.entries then 1 + BitVec.ofNat 32 (st.entries.idxOf p)
        else (st.node p).ordering} := by
  have hpop := getElem?_populate h.nodup st.heap 1 p
  rw [State.ordered, if_neg hv, State.node, State.node]
  rw [List.getD_eq_getElem?_getD, List.getD_eq_getElem?_getD]
  change ((State.populate st.heap 1 st.entries)[p]?).getD _ = _
  rw [hpop, List.getElem?_eq_getElem hp]
  rfl

theorem extends_ordered (h : Inv S st) : Extends st st.ordered := by
  by_cases hv : st.orderingValid = true
  · rw [State.ordered, if_pos hv]
    exact Extends.refl st
  · refine ⟨?_, fun p hp => by rw [node_ordered h hv p hp], ?_⟩
    · rw [State.ordered, if_neg hv, length_populate]
    · intro p hp
      rwa [State.ordered, if_neg hv]

/-- The numbers are those of the order of the strings. -/
theorem inv_ordered (h : Inv S st) (hS : S.card < 2 ^ 32) :
    Inv S st.ordered ∧ st.ordered.orderingValid = true := by
  by_cases hv : st.orderingValid = true
  · rw [State.ordered, if_pos hv]
    exact ⟨h, hv⟩
  have hnode := node_ordered h hv
  have hentries : st.ordered.entries = st.entries := by rw [State.ordered, if_neg hv]; rfl
  have hlength : st.ordered.heap.length = st.heap.length := by
    rw [State.ordered, if_neg hv, length_populate]
  have hnumber {k p : ℕ} (hk : st.entries[k]? = some p) : (st.ordered.node p).ordering.toNat = k + 1 := by
    have hp := List.mem_of_getElem? hk
    have hlt := (List.getElem?_eq_some_iff.mp hk).1
    have hidx : st.entries.idxOf p = k := by
      rw [← (List.getElem?_eq_some_iff.mp hk).2]
      exact h.nodup.idxOf_getElem k hlt
    have hcount := h.length_le
    have hone : (1 : BitVec 32).toNat = 1 := rfl
    rw [hnode p (h.live p hp)]
    dsimp only
    rw [if_pos hp, hidx, BitVec.toNat_add, BitVec.toNat_ofNat, hone]
    omega
  refine ⟨⟨?_, ?_, ?_, ?_, ?_, ?_, ?_⟩, by rw [State.ordered, if_neg hv]⟩
  · rw [State.ordered, if_neg hv]
    exact h.wellFormed
  · rw [hentries]
    refine h.sorted.imp_of_mem ?_
    intro p q hp hq hpq
    rwa [hnode p (h.live p hp), hnode q (h.live q hq)]
  · rw [hentries, hlength]
    exact h.live
  · intro p hp
    rw [hlength] at hp
    rw [hnode p hp]
    exact h.whole p hp
  · intro p hp
    rw [hlength] at hp
    rw [hentries]
    by_cases hmem : p ∈ st.entries
    · obtain ⟨k, hk⟩ := List.mem_iff_getElem?.mp hmem
      refine iff_of_true ?_ hmem
      have hpos := hnumber hk
      rw [State.isInterned, decide_eq_true_eq]
      intro h0
      rw [h0] at hpos
      cases hpos
    · have hold := h.interned p hp
      rw [State.isInterned] at hold ⊢
      rwa [hnode p hp, if_neg hmem]
  · intro p hp
    rw [hentries] at hp
    rw [hnode p (h.live p hp)]
    exact h.known p hp
  · intro _ k p hk
    rw [hentries] at hk
    exact hnumber hk

/-- Numbers compare as the strings do. -/
theorem compare_cached (h : Inv S st) (hv : st.orderingValid = true) (hp : p ∈ st.entries)
    (hq : q ∈ st.entries) : compare (st.node p).ordering.toNat (st.node q).ordering.toNat =
      byteOrder (st.node p).data (st.node q).data := by
  obtain ⟨i, hi⟩ := List.mem_iff_getElem?.mp hp
  obtain ⟨j, hj⟩ := List.mem_iff_getElem?.mp hq
  rw [h.cached hv i p hi, h.cached hv j q hj]
  obtain ⟨hi', rfl⟩ := List.getElem?_eq_some_iff.mp hi
  obtain ⟨hj', rfl⟩ := List.getElem?_eq_some_iff.mp hj
  have hsorted := List.pairwise_iff_getElem.mp h.sorted
  rcases lt_trichotomy i j with hlt | rfl | hgt
  · rw [hsorted i j hi' hj' hlt, compare_lt_iff_lt]
    omega
  · rw [byteOrder_self, compare_eq_iff_eq]
  · rw [Std.OrientedCmp.gt_of_lt (hsorted j i hj' hi' hgt), compare_gt_iff_gt]
    omega

theorem ord_self (st : State) (a : Option ℕ) : st.ord a a = (.eq, st) := by
  unfold State.ord
  exact if_pos rfl

theorem ord_nodes (h : Inv S st) (hS : S.card < 2 ^ 32) (hp : p < st.heap.length) (hq : q < st.heap.length)
    (hpq : p ≠ q) : Inv S (st.ord (some p) (some q)).2 ∧ Extends st (st.ord (some p) (some q)).2 ∧
      (st.ord (some p) (some q)).1 = byteOrder (st.node p).data (st.node q).data := by
  have hne : some p ≠ some q := fun heq => hpq (Option.some.inj heq)
  rw [State.ord, if_neg hne]
  by_cases hboth : (st.isInterned p && st.isInterned q) = true
  · rw [if_pos hboth]
    rw [Bool.and_eq_true, h.interned p hp, h.interned q hq] at hboth
    obtain ⟨hinv, hv⟩ := inv_ordered h hS
    have hext := extends_ordered h
    have hcmp := compare_cached hinv hv (hext.entries p hboth.1) (hext.entries q hboth.2)
    rw [hext.data p hp, hext.data q hq] at hcmp
    exact ⟨hinv, hext, hcmp⟩
  · rw [if_neg hboth, (h.whole p hp).ordBytes, (h.whole q hq).bytes]
    exact ⟨h, Extends.refl st, rfl⟩

theorem ord_spec (h : Inv S st) (hS : S.card < 2 ^ 32) {a b : Option ℕ} (ha : st.Live a = true)
    (hb : st.Live b = true) : Inv S (st.ord a b).2 ∧ Extends st (st.ord a b).2 ∧
      (st.ord a b).1 = byteOrder (st.text a) (st.text b) := by
  by_cases hab : a = b
  · rw [hab, ord_self, byteOrder_self]
    exact ⟨h, Extends.refl st, rfl⟩
  -- an empty string is the null pointer, and comes first
  have hdata {p : ℕ} (hp : p < st.heap.length) : ∃ c cs, (st.node p).data = c :: cs :=
    List.exists_cons_of_ne_nil (h.whole p hp).2
  match a, b with
  | none, none => exact absurd rfl hab
  | none, some q =>
    obtain ⟨c, cs, hq⟩ := hdata (by simpa [State.Live] using hb)
    refine ⟨h, Extends.refl st, ?_⟩
    rw [State.text, State.text, hq]
    rfl
  | some p, none =>
    obtain ⟨c, cs, hp⟩ := hdata (by simpa [State.Live] using ha)
    refine ⟨h, Extends.refl st, ?_⟩
    rw [State.text, State.text, hp]
    rfl
  | some p, some q =>
    exact ord_nodes h hS (by simpa [State.Live] using ha) (by simpa [State.Live] using hb)
      fun hpq => hab (congrArg some hpq)

end Order

section Runs

/-- What an operation has returned, as the later state sees it. -/
def Meets (st : State) : Op → Result → Prop
  | .make s, .string a => st.Live a = true ∧ st.text a = s
  | .newInterned s, .string a => st.Live a = true ∧ st.text a = s ∧ ∀ p, a = some p → p ∈ st.entries
  | .ord a b, .ordering o => st.Live a = true ∧ st.Live b = true ∧ o = byteOrder (st.text a) (st.text b)
  | _, _ => False

theorem Extends.live (h : Extends st st') {a : Option ℕ} (ha : st.Live a = true) : st'.Live a = true := by
  cases a with
  | none => rfl
  | some p =>
    have hp : p < st.heap.length := by simpa [State.Live] using ha
    simpa [State.Live] using hp.trans_le h.length

theorem Extends.text (h : Extends st st') {a : Option ℕ} (ha : st.Live a = true) : st'.text a = st.text a := by
  cases a with
  | none => rfl
  | some p => exact h.data p (by simpa [State.Live] using ha)

theorem Meets.extends {op : Op} {r : Result} (hm : Meets st op r) (h : Extends st st') : Meets st' op r := by
  cases op with
  | make s =>
    cases r with
    | string a => exact ⟨h.live hm.1, (h.text hm.1).trans hm.2⟩
    | ordering o => exact hm
  | newInterned s =>
    cases r with
    | string a =>
      exact ⟨h.live hm.1, (h.text hm.1).trans hm.2.1, fun p hp => h.entries p (hm.2.2 p hp)⟩
    | ordering o => exact hm
  | ord a b =>
    cases r with
    | string a => exact hm
    | ordering o =>
      refine ⟨h.live hm.1, h.live hm.2.1, ?_⟩
      rw [h.text hm.1, h.text hm.2.1]
      exact hm.2.2

theorem make_spec (st : State) (s : List UInt8) :
    (st.make s).2.Live (st.make s).1 = true ∧ (st.make s).2.text (st.make s).1 = s := by
  rw [State.make]
  by_cases hs : s.length > 0
  · rw [if_pos hs]
    exact ⟨by simp [State.Live], congrArg Inner.data (getD_append_length _ _ _)⟩
  · rw [if_neg hs]
    exact ⟨rfl, (List.eq_nil_of_length_eq_zero (Nat.eq_zero_of_not_pos hs)).symm⟩

/-- One operation keeps the invariant, and what it returns is right. -/
theorem step_spec (h : Inv S st) (hS : S.card < 2 ^ 32) {op : Op} {r : Result}
    (hlen : ∀ s ∈ op.given, s.length < 2 ^ 32) (hmem : ∀ s ∈ op.interned, s ∈ S)
    (hstep : st.step op = some (r, st')) : Inv S st' ∧ Extends st st' ∧ Meets st' op r := by
  cases op with
  | make s =>
    obtain ⟨rfl, rfl⟩ := Prod.mk.inj (Option.some.inj hstep)
    exact ⟨inv_make h (hlen s rfl), extends_make st s, make_spec st s⟩
  | newInterned s =>
    obtain ⟨rfl, rfl⟩ := Prod.mk.inj (Option.some.inj hstep)
    obtain ⟨hinv, hext, htext, hentry⟩ := newInterned_spec h (hlen s rfl) (hmem s rfl)
    refine ⟨hinv, hext, ?_, htext, hentry⟩
    cases ha : (st.newInterned s).1 with
    | none => rfl
    | some p => exact decide_eq_true (hinv.live p (hentry p ha))
  | ord a b =>
    rw [State.step, Option.ite_none_right_eq_some] at hstep
    obtain ⟨hlive, hstep⟩ := hstep
    obtain ⟨rfl, rfl⟩ := Prod.mk.inj (Option.some.inj hstep)
    rw [Bool.and_eq_true] at hlive
    obtain ⟨hinv, hext, hord⟩ := ord_spec h hS hlive.1 hlive.2
    refine ⟨hinv, hext, hext.live hlive.1, hext.live hlive.2, ?_⟩
    rw [hext.text hlive.1, hext.text hlive.2]
    exact hord

theorem run_spec (hS : S.card < 2 ^ 32) {ops : List Op} {rs : List Result} (h : Inv S st)
    (hlen : ∀ op ∈ ops, ∀ s ∈ op.given, s.length < 2 ^ 32) (hmem : ∀ op ∈ ops, ∀ s ∈ op.interned, s ∈ S)
    (hrun : st.run ops = some (rs, st')) : Inv S st' ∧ Extends st st' ∧ List.Forall₂ (Meets st') ops rs := by
  induction ops generalizing st rs with
  | nil =>
    cases hrun
    exact ⟨h, Extends.refl _, List.Forall₂.nil⟩
  | cons op ops ih =>
    obtain ⟨⟨r, st₁⟩, h₁, hrun⟩ := Option.bind_eq_some_iff.mp hrun
    obtain ⟨⟨rs, st₂⟩, h₂, hrun⟩ := Option.bind_eq_some_iff.mp hrun
    cases hrun
    obtain ⟨hinv₁, hext₁, hmeets⟩ := step_spec h hS (hlen op List.mem_cons_self)
      (hmem op List.mem_cons_self) h₁
    obtain ⟨hinv₂, hext₂, hrest⟩ := ih hinv₁ (fun op hop => hlen op (List.mem_cons_of_mem _ hop))
      (fun op hop => hmem op (List.mem_cons_of_mem _ hop)) h₂
    exact ⟨hinv₂, hext₁.trans hext₂, List.Forall₂.cons (hmeets.extends hext₂) hrest⟩

end Runs

end Invariant

/-- The different strings that a program interns. -/
def internedBy (ops : List Op) : Finset (List UInt8) := (ops.filterMap Op.interned).toFinset

theorem lookupOrAdd_single {c : ℕ → Ordering} (hc : c 0 = .lt) :
    lookupOrAdd c [[0]] 1 = (none, [[0, 1]]) := by
  simp [lookupOrAdd, lowerBound, frontLess, hc, insertIntoBlock, insertAt, blockSize]

/-- A string of 4 GiB has the size 0 in its node, which is not found again. -/
theorem run_huge {s : List UInt8} (hs : s.length = 2 ^ 32) :
    State.init.run [.newInterned s, .newInterned s] =
      some ([.string (some 0), .string (some 1)], ⟨[.new s 1, .new s 1], [[0, 1]], false⟩) := by
  have hsize : (Inner.new s 1).size.toNat = 0 := by rw [Inner.new, hs]; rfl
  have hless : (Inner.new s 1).ordBytes s = .lt := by
    rw [Inner.ordBytes, hsize, hs, Nat.min_zero, List.take_zero, List.take_zero]
    rfl
  have hpos : ¬s.length = 0 := by rw [hs]; norm_num
  have hfirst : State.init.newInterned s = (some 0, ⟨[.new s 1], [[0]], false⟩) := by
    rw [State.newInterned, if_neg hpos]
    rfl
  have hsecond : State.newInterned ⟨[.new s 1], [[0]], false⟩ s =
      (some 1, ⟨[.new s 1, .new s 1], [[0, 1]], false⟩) := by
    rw [State.newInterned, if_neg hpos]
    change (match lookupOrAdd _ [[0]] 1 with | (some p, _) => _ | (none, blocks) => _) = _
    rw [lookupOrAdd_single hless]
    rfl
  simp only [State.run, State.step, hfirst, hsecond, Option.bind_eq_bind, Option.bind_some]

section Many

variable {st : State} {S : Finset (List UInt8)}

theorem newInterned_invalid (hv : st.orderingValid = false) (s : List UInt8) :
    (st.newInterned s).2.orderingValid = false := by
  rw [State.newInterned]
  split
  · exact hv
  · split
    · exact hv
    · rfl

/-- Interning alone needs no bound on the number of strings. -/
theorem run_newInterned {ss : List (List UInt8)} (h : Inv S st) (hv : st.orderingValid = false) (hlen : ∀ s ∈ ss, s.length < 2 ^ 32)
    (hmem : ∀ s ∈ ss, s ∈ S) (hne : ∀ s ∈ ss, s ≠ []) :
    ∃ rs st', st.run (ss.map .newInterned) = some (rs, st') ∧ Inv S st' ∧ Extends st st' ∧
      st'.orderingValid = false ∧ ∀ s ∈ ss, ∃ p ∈ st'.entries, (st'.node p).data = s := by
  induction ss generalizing st with
  | nil => exact ⟨[], st, rfl, h, Extends.refl st, hv, fun s hs => by cases hs⟩
  | cons s ss ih =>
    obtain ⟨hinv, hext, htext, hentry⟩ := newInterned_spec h (hlen s List.mem_cons_self) (hmem s List.mem_cons_self)
    obtain ⟨rs, st', hrun, hinv', hext', hv', hall⟩ := ih hinv (newInterned_invalid hv s)
      (fun t ht => hlen t (List.mem_cons_of_mem _ ht)) (fun t ht => hmem t (List.mem_cons_of_mem _ ht))
      fun t ht => hne t (List.mem_cons_of_mem _ ht)
    refine ⟨.string (st.newInterned s).1 :: rs, st', ?_, hinv', hext.trans hext', hv', ?_⟩
    · rw [List.map_cons, State.run]
      simp only [State.step, hrun, Option.bind_eq_bind, Option.bind_some]
    · intro t ht
      rcases List.mem_cons.mp ht with rfl | ht
      · cases ha : (st.newInterned t).1 with
        | none =>
          rw [ha] at htext
          exact absurd htext.symm (hne t List.mem_cons_self)
        | some p =>
          rw [ha] at htext
          have hp := hentry p ha
          exact ⟨p, hext'.entries p hp, (hext'.data p (hinv.live p hp)).trans htext⟩
      · exact hall t ht

/-- From `2 ^ 32` nodes on, the numbers start again. -/
theorem ord_many (h : Inv S st) (hv : st.orderingValid = false) (hcount : 2 ^ 32 < st.entries.length) :
    ∃ p q, (st.ord (some p) (some q)).1 = .eq ∧ byteOrder (st.text (some p)) (st.text (some q)) = .lt := by
  have h0 : 0 < st.entries.length := by omega
  have hlt : byteOrder (st.node st.entries[0]).data (st.node st.entries[2 ^ 32]).data = .lt :=
    List.pairwise_iff_getElem.mp h.sorted 0 (2 ^ 32) h0 hcount (by norm_num)
  have hp : st.entries[0] ∈ st.entries := List.getElem_mem h0
  have hq : st.entries[2 ^ 32] ∈ st.entries := List.getElem_mem hcount
  refine ⟨st.entries[0], st.entries[2 ^ 32], ?_, hlt⟩
  have hne : some st.entries[0] ≠ some st.entries[2 ^ 32] := by
    intro heq
    rw [Option.some.inj heq, byteOrder_self] at hlt
    cases hlt
  rw [State.ord, if_neg hne, (h.interned _ (h.live _ hp)).mpr hp, (h.interned _ (h.live _ hq)).mpr hq]
  change compare _ _ = _
  rw [node_ordered h (by simp [hv]) _ (h.live _ hp), node_ordered h (by simp [hv]) _ (h.live _ hq)]
  dsimp only
  rw [if_pos hp, if_pos hq, h.nodup.idxOf_getElem 0 h0, h.nodup.idxOf_getElem (2 ^ 32) hcount]
  rfl

/-- A name of five bytes for every number below `2 ^ 40`. -/
def numbered (k : ℕ) : List UInt8 :=
  [.ofNat (k / 2 ^ 32), .ofNat (k / 2 ^ 24), .ofNat (k / 2 ^ 16), .ofNat (k / 2 ^ 8), .ofNat k]

theorem numbered_injective {j k : ℕ} (hj : j < 2 ^ 40) (hk : k < 2 ^ 40) (h : numbered j = numbered k) : j = k := by
  simp only [numbered, List.cons.injEq, ← UInt8.toNat_inj, UInt8.toNat_ofNat', and_true] at h
  omega

/-- As many nodes as numbers. -/
theorem run_numbered {n : ℕ} (hn : n ≤ 2 ^ 40) : ∃ S rs st,
    State.init.run (((List.range n).map numbered).map .newInterned) = some (rs, st) ∧ Inv S st ∧
      st.orderingValid = false ∧ n ≤ st.entries.length := by
  have hnodup : ((List.range n).map numbered).Nodup :=
    List.Nodup.map_on (fun j hj k hk => numbered_injective ((List.mem_range.mp hj).trans_le hn)
      ((List.mem_range.mp hk).trans_le hn)) List.nodup_range
  have hshort : ∀ s ∈ (List.range n).map numbered, s.length < 2 ^ 32 ∧ s ≠ [] := by
    intro s hs
    obtain ⟨k, -, rfl⟩ := List.mem_map.mp hs
    exact ⟨by simp [numbered], List.cons_ne_nil _ _⟩
  obtain ⟨rs, st, hrun, hinv, -, hv, hall⟩ := run_newInterned (S := ((List.range n).map numbered).toFinset)
    inv_init rfl (fun s hs => (hshort s hs).1) (fun s hs => List.mem_toFinset.mpr hs) fun s hs => (hshort s hs).2
  refine ⟨_, rs, st, hrun, hinv, hv, ?_⟩
  have hsub : ((List.range n).map numbered).toFinset ⊆ (st.entries.map fun p => (st.node p).data).toFinset := by
    intro s hs
    obtain ⟨p, hp, hdata⟩ := hall s (List.mem_toFinset.mp hs)
    exact List.mem_toFinset.mpr (List.mem_map.mpr ⟨p, hp, hdata⟩)
  calc n = ((List.range n).map numbered).toFinset.card := by
        rw [List.toFinset_card_of_nodup hnodup, List.length_map, List.length_range]
    _ ≤ (st.entries.map fun p => (st.node p).data).toFinset.card := Finset.card_le_card hsub
    _ ≤ st.entries.length := (List.toFinset_card_le _).trans_eq (List.length_map _)

end Many

end Mrustc.RcString
