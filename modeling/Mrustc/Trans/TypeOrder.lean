import Mrustc.Trans.TypeVisitor
import Mathlib.Data.List.Basic
import Mathlib.Data.List.Infix
import Mathlib.Tactic

/-! # The list of types is in definition order

Whatever is visited, and however deep, each visit that returns appends entries for what its type contains and points
to before the entry for the type, and keeps the index sorted.
-/

namespace Mrustc.Enumerate

variable {P D : Type} (items : Items P D)

/-- What a type contains by value. -/
def contents : TypeRef P D → List (TypeRef P D)
  | .path p =>
    match items.binding p with
    | .struct fields => fields
    | .union variants => variants
    | .enum variants => variants
    | _ => []
  | .traitObject d => (items.vtable d).toList
  | .array inner _ => [inner]
  | .slice inner => [inner]
  | .tuple elems => elems
  | _ => []

/-- What a type points to. -/
def pointees : TypeRef P D → List (TypeRef P D)
  | .borrow inner => [inner]
  | .pointer inner => [inner]
  | .function rettype argTypes => rettype :: argTypes
  | _ => []

/-- Each type once in full and once shallow at most, the shallow entry first; what a full entry contains has a full
entry before it, and what it points to some entry. -/
structure DefinitionOrder (out : List (TypeRef P D × Bool)) : Prop where
  once : out.Nodup
  shallow_first : ∀ (i j : ℕ) ty, out[i]? = some (ty, true) → out[j]? = some (ty, false) → i < j
  contains : ∀ (k : ℕ) ty, out[k]? = some (ty, false) → ∀ c ∈ contents items ty, (c, false) ∈ out.take k
  points : ∀ (k : ℕ) ty, out[k]? = some (ty, false) → ∀ c ∈ pointees ty, ∃ b, (c, b) ∈ out.take k

variable {items} {out : List (TypeRef P D × Bool)} {ty : TypeRef P D} {b : Bool}

theorem DefinitionOrder.push (h : DefinitionOrder items out) (hnew : (ty, b) ∉ out)
    (hshallow : b = true → (ty, false) ∉ out)
    (hcontains : b = false → ∀ c ∈ contents items ty, (c, false) ∈ out)
    (hpoints : b = false → ∀ c ∈ pointees ty, ∃ b, (c, b) ∈ out) : DefinitionOrder items (out ++ [(ty, b)]) := by
  have hlast : ∀ (k : ℕ) e, (out ++ [(ty, b)])[k]? = some e → out[k]? = some e ∨ (k = out.length ∧ e = (ty, b)) := by
    intro k e hk
    rcases Nat.lt_or_ge k out.length with hlt | hge
    · exact .inl (by rwa [List.getElem?_append_left hlt] at hk)
    · rw [List.getElem?_append_right hge] at hk
      rcases Nat.eq_zero_or_pos (k - out.length) with h0 | hpos
      · right
        rw [h0] at hk
        exact ⟨by omega, (Option.some.inj hk).symm⟩
      · rw [List.getElem?_eq_none (by simp only [List.length_singleton]; omega)] at hk
        cases hk
  have htake : ∀ (k : ℕ) e, out[k]? = some e → (out ++ [(ty, b)]).take k = out.take k := by
    intro k e hk
    rcases List.getElem?_eq_some_iff.mp hk with ⟨hlt, -⟩
    exact List.take_append_of_le_length hlt.le
  constructor
  case once =>
    apply List.nodup_append.mpr ⟨h.once, List.nodup_singleton _, fun e he e' he' => ?_⟩
    rintro rfl
    rw [List.mem_singleton.mp he'] at he
    exact hnew he
  case shallow_first =>
    intro i j u hi hj
    rcases hlast i _ hi with hi | ⟨hi, hu⟩
    · rcases hlast j _ hj with hj | ⟨hj, -⟩
      · exact h.shallow_first i j u hi hj
      · rw [hj]
        exact (List.getElem?_eq_some_iff.mp hi).1
    · rcases Prod.mk.inj hu with ⟨rfl, hb⟩
      rcases hlast j _ hj with hj | ⟨-, hu'⟩
      · exact absurd (List.mem_of_getElem? hj) (hshallow hb.symm)
      · rw [← hb] at hu'
        cases hu'
  case contains =>
    intro k u hk c hc
    rcases hlast k _ hk with hold | ⟨rfl, hu⟩
    · rw [htake k _ hold]
      exact h.contains k u hold c hc
    · rcases Prod.mk.inj hu with ⟨rfl, hb⟩
      rw [List.take_left']
      exact hcontains hb.symm c hc
      rfl
  case points =>
    intro k u hk c hc
    rcases hlast k _ hk with hold | ⟨rfl, hu⟩
    · rw [htake k _ hold]
      exact h.points k u hold c hc
    · rcases Prod.mk.inj hu with ⟨rfl, hb⟩
      rw [List.take_left']
      exact hpoints hb.symm c hc
      rfl

/-- An entry that satisfies a visit. -/
def Listed (out : List (TypeRef P D × Bool)) (ty : TypeRef P D) (mode : Mode) : Prop :=
  if mode = .shallow then ∃ b, (ty, b) ∈ out else (ty, false) ∈ out

theorem Listed.mono {out' : List (TypeRef P D × Bool)} {mode : Mode} (h : Listed out ty mode) (hsub : out ⊆ out') :
    Listed out' ty mode := by
  unfold Listed at h ⊢
  split
  next hmode =>
    rw [if_pos hmode] at h
    rcases h with ⟨b, hb⟩
    exact ⟨b, hsub hb⟩
  next hmode =>
    rw [if_neg hmode] at h
    exact hsub h

theorem Listed.exists {mode : Mode} (h : Listed out ty mode) : ∃ b, (ty, b) ∈ out := by
  unfold Listed at h
  split at h
  · exact h
  · exact ⟨false, h⟩

/-- A shallow visit goes to smaller types, shallowly. -/
theorem shallowArm_small {parts : List (TypeRef P D × Mode)} (h : shallowArm items ty = .ok parts) :
    ∀ part ∈ parts, part.2 = .shallow ∧ sizeOf part.1 < sizeOf ty := by
  cases ty with
  | path p =>
    rw [shallowArm] at h
    split at h <;> cases h <;> simp
  | array inner size => cases size <;> cases h <;> simp
  | function rettype argTypes =>
    cases h
    intro part hpart
    rcases List.mem_cons.mp hpart with rfl | hpart
    · simp
      omega
    · rcases List.mem_map.mp hpart with ⟨c, hc, rfl⟩
      have := List.sizeOf_lt_of_mem hc
      simp
      omega
  | pointer inner => cases h; simp
  | borrow inner => cases h; simp
  | infer => cases h
  | _ => cases h; simp

/-- Another visit goes to all that the type contains, not shallowly, and to all that it points to. -/
theorem arm_contents {parts : List (TypeRef P D × Mode)} {mode : Mode} (hmode : mode ≠ .shallow)
    (h : arm items mode ty = .ok parts) :
    (∀ c ∈ contents items ty, ∃ m, m ≠ .shallow ∧ (c, m) ∈ parts) ∧ ∀ c ∈ pointees ty, ∃ m, (c, m) ∈ parts := by
  cases ty with
  | path p =>
    have hpointees : pointees (.path p : TypeRef P D) = [] := rfl
    rw [arm] at h
    rw [contents, hpointees]
    split at h <;> cases h <;> simp_all
  | traitObject d =>
    have hpointees : pointees (.traitObject d : TypeRef P D) = [] := rfl
    rw [arm] at h
    rw [contents, hpointees]
    split at h <;> cases h <;> simp_all
  | array inner size => cases size <;> cases h <;> simp [contents, pointees, hmode]
  | slice inner => cases h; simp [contents, pointees, hmode]
  | borrow inner => cases h; simp [contents, pointees]
  | pointer inner => cases h; simp [contents, pointees]
  | tuple elems => cases h; simp [contents, pointees, hmode]
  | function rettype argTypes =>
    cases h
    constructor
    · simp [contents]
    · intro c hc
      refine ⟨mode.pointee, ?_⟩
      simpa [pointees] using hc
  | _ => cases h <;> simp [contents, pointees]

/-! ## The index -/

section Index

variable [LinearOrder (TypeRef P D)]

/-- The index holds one index for each type that is listed, sorted by type, that of the full entry if there is one. -/
structure Indexed (st : State P D) : Prop where
  valid : ∀ i ∈ st.visited, ∃ e, st.out[i]? = some e
  sorted : st.visited.Pairwise fun i j => ∀ e e', st.out[i]? = some e → st.out[j]? = some e' → e.1 < e'.1
  indexed : ∀ e ∈ st.out, ∃ i ∈ st.visited, ∃ b, st.out[i]? = some (e.1, b) ∧ (b = true → (e.1, false) ∉ st.out)

variable {st : State P D}

/-- The index is split at the first type that is not before another. -/
theorem Indexed.split (h : Indexed st) (ty : TypeRef P D) :
    ∃ as bs, st.visited = as ++ bs ∧ st.lowerBound ty = as.length ∧
      (∀ i ∈ as, ∀ e, st.out[i]? = some e → e.1 < ty) ∧ ∀ i ∈ bs, ∀ e, st.out[i]? = some e → ty ≤ e.1 := by
  refine ⟨st.visited.takeWhile (st.before ty), st.visited.dropWhile (st.before ty),
    (List.takeWhile_append_dropWhile).symm, rfl, ?_, ?_⟩
  · intro i hi e he
    have hbefore := List.all_takeWhile (p := st.before ty) (l := st.visited)
    simpa [State.before, he] using List.all_eq_true.mp hbefore i hi
  · have hsorted := h.sorted
    rw [← List.takeWhile_append_dropWhile (p := st.before ty) (l := st.visited)] at hsorted
    have hdrop := (List.pairwise_append.mp hsorted).2.1
    cases hbs : st.visited.dropWhile (st.before ty) with
    | nil => simp
    | cons j bs =>
      have hj : st.before ty j = false := by
        have hhead := List.head_dropWhile_not (st.before ty) (l := st.visited) (by rw [hbs]; exact List.cons_ne_nil j bs)
        simpa only [hbs, List.head_cons] using hhead
      have hmem : j ∈ st.visited := by
        have : j ∈ st.visited.dropWhile (st.before ty) := by rw [hbs]; exact List.mem_cons_self
        exact (List.dropWhile_sublist _).subset this
      rcases h.valid j hmem with ⟨ej, hej⟩
      have hle : ty ≤ ej.1 := by simpa [State.before, hej] using hj
      rw [hbs] at hdrop
      intro i hi e he
      rcases List.mem_cons.mp hi with rfl | hi
      · rw [hej] at he
        cases he
        exact hle
      · exact hle.trans ((List.pairwise_cons.mp hdrop).1 i hi ej e hej he).le

/-- A type is found exactly if it is listed, at its place in the index. -/
theorem Indexed.find_cases (h : Indexed st) (ty : TypeRef P D) :
    ∃ as bs, (∀ i ∈ as, ∀ e, st.out[i]? = some e → e.1 < ty) ∧ (∀ i ∈ bs, ∀ e, st.out[i]? = some e → ty < e.1) ∧
      st.lowerBound ty = as.length ∧
      ((st.visited = as ++ bs ∧ st.find ty = none ∧ ∀ b, (ty, b) ∉ st.out) ∨
        ∃ i b, st.visited = as ++ i :: bs ∧ st.find ty = some (i, (ty, b)) ∧ st.out[i]? = some (ty, b) ∧
          (b = true → (ty, false) ∉ st.out)) := by
  rcases h.split ty with ⟨as, bs, hvisited, hlower, has, hbs⟩
  have habsent : (∀ i ∈ bs, ∀ e, st.out[i]? = some e → ty < e.1) → ∀ b, (ty, b) ∉ st.out := by
    intro hlt b hmem
    rcases h.indexed _ hmem with ⟨i, hi, b', hi', -⟩
    rw [hvisited, List.mem_append] at hi
    rcases hi with hi | hi
    · exact lt_irrefl _ (has i hi _ hi')
    · exact lt_irrefl _ (hlt i hi _ hi')
  cases bs with
  | nil =>
    refine ⟨as, [], has, by simp, hlower, .inl ⟨hvisited, ?_, habsent (by simp)⟩⟩
    simp [State.find, hlower, hvisited]
  | cons i bs =>
    have hi : i ∈ st.visited := by
      rw [hvisited]
      simp
    rcases h.valid i hi with ⟨e, he⟩
    have hsorted := h.sorted
    rw [hvisited] at hsorted
    have htail : ∀ j ∈ bs, ∀ e', st.out[j]? = some e' → e.1 < e'.1 := fun j hj e' he' =>
      (List.pairwise_cons.mp (List.pairwise_append.mp hsorted).2.1).1 j hj e e' he he'
    have hlookup : st.visited[st.lowerBound ty]? = some i := by simp [hlower, hvisited]
    rcases (hbs i List.mem_cons_self e he).eq_or_lt with heq | hlt
    · refine ⟨as, bs, has, fun j hj e' he' => heq ▸ htail j hj e' he', hlower, .inr ⟨i, e.2, hvisited, ?_, ?_, ?_⟩⟩
      · rw [State.find, hlookup]
        simp [he, heq]
      · rw [he, heq]
      · intro hb hfull
        rcases h.indexed _ hfull with ⟨j, hj, b, hentry, hb'⟩
        rw [hvisited] at hj
        have hij : j = i := by
          rcases List.mem_append.mp hj with hj | hj
          · exact absurd (has j hj _ hentry) (lt_irrefl _)
          · rcases List.mem_cons.mp hj with hj | hj
            · exact hj
            · exact absurd (htail j hj _ hentry) (heq ▸ lt_irrefl _)
        rw [hij, he] at hentry
        have hflag : e.2 = b := congrArg Prod.snd (Option.some.inj hentry)
        exact hb' (hflag ▸ hb) hfull
    · have hall : ∀ j ∈ i :: bs, ∀ e', st.out[j]? = some e' → ty < e'.1 := by
        intro j hj e' he'
        rcases List.mem_cons.mp hj with rfl | hj
        · rw [he] at he'
          cases he'
          exact hlt
        · exact hlt.trans (htail j hj e' he')
      refine ⟨as, i :: bs, has, hall, hlower, .inl ⟨hvisited, ?_, habsent hall⟩⟩
      simp [State.find, hlookup, he, hlt.ne']

theorem insertIdx_length_append (as bs : List ℕ) (i : ℕ) : (as ++ bs).insertIdx as.length i = as ++ i :: bs := by
  induction as with
  | nil => rfl
  | cons a as ih => rw [List.length_cons, List.cons_append, List.insertIdx_succ_cons, ih, List.cons_append]

theorem Indexed.reindex_eq (h : Indexed st) (hnew : (ty, b) ∉ st.out) (hshallow : b = true → (ty, false) ∉ st.out) :
    ∃ as bs, (∀ i ∈ as, ∀ e, st.out[i]? = some e → e.1 < ty) ∧ (∀ i ∈ bs, ∀ e, st.out[i]? = some e → ty < e.1) ∧
      st.reindex ty b = as ++ st.out.length :: bs ∧ (∀ i ∈ as ++ bs, i ∈ st.visited) ∧
      (as ++ bs).Sublist st.visited ∧
      ∀ i ∈ st.visited, i ∈ as ++ bs ∨ ∃ b, st.out[i]? = some (ty, b) := by
  rcases h.find_cases ty with ⟨as, bs, has, hbs, hlower, ⟨hvisited, hfind, -⟩ | ⟨i, b', hvisited, hfind, hi, hb'⟩⟩
  · refine ⟨as, bs, has, hbs, ?_, ?_, ?_, ?_⟩
    · rw [State.reindex, hfind]
      dsimp only
      rw [hlower, hvisited, insertIdx_length_append]
    · rw [hvisited]
      exact fun _ h => h
    · rw [hvisited]
    · rw [hvisited]
      exact fun _ h => .inl h
  · have hset : b = false ∧ b' = true := by
      have hmem := List.mem_of_getElem? hi
      cases b with
      | true =>
        cases b' with
        | true => exact absurd hmem hnew
        | false => exact absurd hmem (hshallow rfl)
      | false =>
        cases b' with
        | true => exact ⟨rfl, rfl⟩
        | false => exact absurd hmem hnew
    refine ⟨as, bs, has, hbs, ?_, ?_, ?_, ?_⟩
    · rw [State.reindex, hfind]
      simp [hset.1, hset.2, hlower, hvisited]
    · rw [hvisited]
      intro j hj
      rcases List.mem_append.mp hj with hj | hj
      · exact List.mem_append_left _ hj
      · exact List.mem_append_right _ (List.mem_cons_of_mem _ hj)
    · rw [hvisited]
      exact (List.Sublist.refl as).append (List.sublist_cons_self i bs)
    · rw [hvisited]
      intro j hj
      rcases List.mem_append.mp hj with hj | hj
      · exact .inl (List.mem_append_left _ hj)
      · rcases List.mem_cons.mp hj with rfl | hj
        · exact .inr ⟨b', hi⟩
        · exact .inl (List.mem_append_right _ hj)

theorem Indexed.active (h : Indexed st) (active : List (TypeRef P D)) : Indexed {st with active} :=
  ⟨h.valid, h.sorted, h.indexed⟩

/-- An entry that is new, and not shallow after a full one, keeps the index. -/
theorem Indexed.push (h : Indexed st) (hnew : (ty, b) ∉ st.out) (hshallow : b = true → (ty, false) ∉ st.out) :
    Indexed (st.push ty b) := by
  rcases h.reindex_eq hnew hshallow with ⟨as, bs, has, hbs, hreindex, hmem, hsub, hold⟩
  have hlast : (st.out ++ [(ty, b)])[st.out.length]? = some (ty, b) := by simp
  have hkept : ∀ i ∈ as ++ bs, (st.out ++ [(ty, b)])[i]? = st.out[i]? := by
    intro i hi
    rcases h.valid i (hmem i hi) with ⟨e, he⟩
    exact List.getElem?_append_left (List.getElem?_eq_some_iff.mp he).1
  have has' : ∀ i ∈ as, (st.out ++ [(ty, b)])[i]? = st.out[i]? := fun i hi => hkept i (List.mem_append_left _ hi)
  have hbs' : ∀ i ∈ bs, (st.out ++ [(ty, b)])[i]? = st.out[i]? := fun i hi => hkept i (List.mem_append_right _ hi)
  constructor
  case valid =>
    intro i hi
    simp only [State.push, hreindex] at hi ⊢
    rcases List.mem_append.mp hi with hi | hi
    · rw [has' i hi]
      exact h.valid i (hmem i (List.mem_append_left _ hi))
    · rcases List.mem_cons.mp hi with rfl | hi
      · exact ⟨_, hlast⟩
      · rw [hbs' i hi]
        exact h.valid i (hmem i (List.mem_append_right _ hi))
  case sorted =>
    simp only [State.push, hreindex]
    have hsorted := List.pairwise_append.mp (h.sorted.sublist hsub)
    rw [List.pairwise_append, List.pairwise_cons]
    refine ⟨?_, ⟨?_, ?_⟩, ?_⟩
    · apply hsorted.1.imp_of_mem
      intro i j hi hj hij
      rw [has' i hi, has' j hj]
      exact hij
    · intro j hj e e' he he'
      rw [hlast] at he
      cases he
      rw [hbs' j hj] at he'
      exact hbs j hj e' he'
    · apply hsorted.2.1.imp_of_mem
      intro i j hi hj hij
      rw [hbs' i hi, hbs' j hj]
      exact hij
    · intro i hi j hj e e' he he'
      rw [has' i hi] at he
      rcases List.mem_cons.mp hj with rfl | hj
      · rw [hlast] at he'
        cases he'
        exact has i hi e he
      · rw [hbs' j hj] at he'
        exact hsorted.2.2 i hi j hj e e' he he'
  case indexed =>
    intro e he
    simp only [State.push, hreindex] at he ⊢
    have hfull : ∀ t, t ≠ ty → (t, false) ∉ st.out → (t, false) ∉ st.out ++ [(ty, b)] := by
      intro t ht hnot hmem
      rcases List.mem_append.mp hmem with hmem | hmem
      · exact hnot hmem
      · exact ht (Prod.mk.inj (List.mem_singleton.mp hmem)).1
    by_cases hty : e.1 = ty
    · refine ⟨st.out.length, by simp, b, by rw [hty]; exact hlast, ?_⟩
      intro hb hmem
      rw [hty] at hmem
      rcases List.mem_append.mp hmem with hmem | hmem
      · exact hshallow hb hmem
      · rw [hb] at hmem
        simp at hmem
    · have hmem : e ∈ st.out := by
        rcases List.mem_append.mp he with he | he
        · exact he
        · exact absurd (congrArg Prod.fst (List.mem_singleton.mp he)) hty
      rcases h.indexed e hmem with ⟨i, hi, b', hentry, hb'⟩
      rcases hold i hi with hi | ⟨b'', hi⟩
      · refine ⟨i, ?_, b', by rw [hkept i hi]; exact hentry, fun hb => hfull _ hty (hb' hb)⟩
        rcases List.mem_append.mp hi with hi | hi
        · exact List.mem_append_left _ hi
        · exact List.mem_append_right _ (List.mem_cons_of_mem _ hi)
      · rw [hi] at hentry
        exact absurd (Prod.mk.inj (Option.some.inj hentry)).1.symm hty

/-! ## The visits -/

/-- A list in definition order with its index. -/
structure Ordered (items : Items P D) (st : State P D) : Prop where
  order : DefinitionOrder items st.out
  indexed : Indexed st

/-- What visits leave: a longer list in order, without a new full entry for a type that is being visited. -/
structure Extends (items : Items P D) (st st' : State P D) : Prop where
  ordered : Ordered items st'
  grows : st.out <+: st'.out
  active : st'.active = st.active
  fresh : ∀ u, (u, false) ∈ st'.out → (u, false) ∈ st.out ∨ u ∉ st.active

theorem Extends.refl (h : Ordered items st) : Extends items st st := ⟨h, List.prefix_refl _, rfl, fun _ hu => .inl hu⟩

theorem Extends.trans {st' st'' : State P D} (h : Extends items st st') (h' : Extends items st' st'') :
    Extends items st st'' := by
  refine ⟨h'.ordered, h.grows.trans h'.grows, h'.active.trans h.active, fun u hu => ?_⟩
  rcases h'.fresh u hu with hu | hu
  · exact h.fresh u hu
  · rw [h.active] at hu
    exact .inr hu

/-- All new entries are shallow and for types of a bounded size. -/
def Small (k : ℕ) (st st' : State P D) : Prop := ∀ e ∈ st'.out, e ∈ st.out ∨ (e.2 = true ∧ sizeOf e.1 ≤ k)

theorem Ordered.done_iff (h : Ordered items st) {mode : Mode} : st.done ty mode ↔ Listed st.out ty mode := by
  unfold State.done Listed
  rcases h.indexed.find_cases ty with ⟨as, bs, -, -, -, ⟨-, hfind, hnone⟩ | ⟨i, b', -, hfind, hi, hb'⟩⟩
  · rw [hfind]
    apply iff_of_false (by simp)
    split
    · exact fun h => h.elim hnone
    · exact hnone false
  · have hmem := List.mem_of_getElem? hi
    rw [hfind]
    dsimp only
    by_cases hmode : mode = .shallow
    · rw [if_pos hmode]
      exact iff_of_true (by simp [hmode]) ⟨b', hmem⟩
    · rw [if_neg hmode]
      cases b' with
      | false => exact iff_of_true (by simp) hmem
      | true => exact iff_of_false (by simp [hmode]) (hb' rfl)

section Visit

variable {n : ℕ} {mode : Mode} {st' : State P D} {parts : List (TypeRef P D × Mode)}

/-- What the visits with less fuel leave, their lists leave. -/
theorem extends_foldlM
    (ih : ∀ ty mode (st st' : State P D), Ordered items st → visitType items n ty mode st = .ok st' →
      Extends items st st' ∧ Listed st'.out ty mode ∧ (mode = .shallow → Small (sizeOf ty) st st'))
    (h : Ordered items st)
    (hok : parts.foldlM (fun st part => visitType items n part.1 part.2 st) st = .ok st') :
    Extends items st st' ∧ (∀ part ∈ parts, Listed st'.out part.1 part.2) ∧
      ∀ k, (∀ part ∈ parts, part.2 = .shallow ∧ sizeOf part.1 ≤ k) → Small k st st' := by
  induction parts generalizing st with
  | nil =>
    cases hok
    exact ⟨.refl h, by simp, fun k _ e he => .inl he⟩
  | cons part parts ihparts =>
    rw [List.foldlM_cons] at hok
    cases hvisit : visitType items n part.1 part.2 st with
    | error e =>
      rw [hvisit] at hok
      cases hok
    | ok st₁ =>
      rw [hvisit] at hok
      rcases ih _ _ _ _ h hvisit with ⟨hext, hlisted, hsmall⟩
      rcases ihparts hext.ordered hok with ⟨hext', hlisted', hsmall'⟩
      refine ⟨hext.trans hext', ?_, ?_⟩
      · intro p hp
        rcases List.mem_cons.mp hp with rfl | hp
        · exact hlisted.mono hext'.grows.subset
        · exact hlisted' p hp
      · intro k hk e he
        rcases hsmall' k (fun p hp => hk p (List.mem_cons_of_mem _ hp)) e he with he | he
        · have hpart := hk part List.mem_cons_self
          rcases hsmall hpart.1 e he with he | ⟨hb, hsize⟩
          · exact .inl he
          · exact .inr ⟨hb, hsize.trans hpart.2⟩
        · exact .inr he

/-- Every visit that returns leaves the list in order, with an entry for its type. -/
theorem visitType_extends (ty : TypeRef P D) (mode : Mode) (st st' : State P D) (h : Ordered items st)
    (hok : visitType items n ty mode st = .ok st') :
    Extends items st st' ∧ Listed st'.out ty mode ∧ (mode = .shallow → Small (sizeOf ty) st st') := by
  induction n generalizing ty mode st st' with
  | zero => cases hok
  | succ n ih =>
    rw [visitType] at hok
    split at hok
    next hdone =>
      cases hok
      exact ⟨.refl h, h.done_iff.mp hdone, fun _ e he => .inl he⟩
    next hdone =>
      rw [h.done_iff] at hdone
      split at hok
      next hmode =>
        subst hmode
        have hnew : ∀ b, (ty, b) ∉ st.out := fun b hb => hdone ((if_pos rfl).mpr ⟨b, hb⟩)
        split at hok
        next => cases hok
        next parts hparts =>
          split at hok
          next => cases hok
          next st₁ hfold =>
            cases hok
            have hsmaller := shallowArm_small hparts
            rcases extends_foldlM ih h hfold with ⟨hext, -, hsmall⟩
            have hbound := hsmall (sizeOf ty - 1) fun part hpart => ⟨(hsmaller part hpart).1, by
              have := (hsmaller part hpart).2
              omega⟩
            have hpos : 0 < sizeOf ty := by cases ty <;> simp
            have hstill : ∀ b, (ty, b) ∉ st₁.out := by
              intro b hb
              rcases hbound _ hb with hb | ⟨-, hsize⟩
              · exact hnew b hb
              · dsimp only at hsize
                omega
            refine ⟨⟨⟨hext.ordered.order.push (hstill true) (fun _ => hstill false) ?_ ?_,
              hext.ordered.indexed.push (hstill true) fun _ => hstill false⟩, ?_, hext.active, ?_⟩, ?_, ?_⟩
            · exact fun hf => by cases hf
            · exact fun hf => by cases hf
            · exact hext.grows.trans (List.prefix_append _ _)
            · intro u hu
              rcases List.mem_append.mp hu with hu | hu
              · exact hext.fresh u hu
              · cases List.mem_singleton.mp hu
            · exact (if_pos rfl).mpr ⟨true, by simp [State.push]⟩
            · intro _ e he
              rcases List.mem_append.mp he with he | he
              · rcases hbound e he with he | ⟨hb, hsize⟩
                · exact .inl he
                · exact .inr ⟨hb, by omega⟩
              · rw [List.mem_singleton.mp he]
                exact .inr ⟨rfl, le_rfl⟩
      next hmode =>
        have hnew : (ty, false) ∉ st.out := fun hb => hdone ((if_neg hmode).mpr hb)
        split at hok
        next => cases hok
        next hactive =>
          split at hok
          next => cases hok
          next parts hparts =>
            split at hok
            next => cases hok
            next st₁ hfold =>
              cases hok
              have hcontents := arm_contents hmode hparts
              have hactivated : Ordered items {st with active := ty :: st.active} := ⟨h.order, h.indexed.active _⟩
              rcases extends_foldlM ih hactivated hfold with ⟨hext, hlisted, -⟩
              have hstill : (ty, false) ∉ st₁.out := by
                intro hb
                rcases hext.fresh ty hb with hb | hb
                · exact hnew hb
                · exact hb List.mem_cons_self
              refine ⟨⟨⟨hext.ordered.order.push hstill (fun hf => by cases hf) ?_ ?_, ?_⟩, ?_, ?_, ?_⟩, ?_, ?_⟩
              · intro _ c hc
                rcases hcontents.1 c hc with ⟨m, hm, hpart⟩
                exact (if_neg hm).mp (hlisted _ hpart)
              · intro _ c hc
                rcases hcontents.2 c hc with ⟨m, hpart⟩
                exact (hlisted _ hpart).exists
              · exact (hext.ordered.indexed.active _).push hstill fun hf => by cases hf
              · exact hext.grows.trans (List.prefix_append _ _)
              · simp [State.push, hext.active]
              · intro u hu
                rcases List.mem_append.mp hu with hu | hu
                · rcases hext.fresh u hu with hu | hu
                  · exact .inl hu
                  · exact .inr fun hmem => hu (List.mem_cons_of_mem _ hmem)
                · cases List.mem_singleton.mp hu
                  exact .inr hactive
              · exact (if_neg hmode).mpr (by simp [State.push])
              · exact fun hs => absurd hs hmode

end Visit

end Index

end Mrustc.Enumerate
