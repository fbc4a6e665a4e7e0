import Mrustc.Minicargo.PathLocation

/-! # Which paths are normalised

The paths of one shape differ in their names only. All of them are normalised
exactly if they are regular. A `..` right below the root cuts the separator off
and leaves the name, so the next name is glued to it and the next `..` takes one
character.
-/

namespace Mrustc.Minicargo

open Location

namespace Path

variable {p q : Path} {c : List Char} {N b : ℕ} {rv : List Char}

/-- The same components, up to the names. -/
def SameShape (p q : Path) : Prop :=
  List.Forall₂ (fun c d => c = d ∨ IsName c ∧ IsName d) p.components q.components

theorem SameShape.symm (h : SameShape p q) : SameShape q p := by
  rw [SameShape, List.forall₂_iff_get] at h ⊢
  constructor
  · exact h.1.symm
  · intro i hq hp
    exact (h.2 i hp hq).imp Eq.symm And.symm

/-! ## Regularity is a matter of shape -/

theorem SameShape.nil_mem {cs ds : List (List Char)}
    (h : List.Forall₂ (fun c d => c = d ∨ IsName c ∧ IsName d) cs ds) (hnil : [] ∈ ds) : [] ∈ cs := by
  induction h with
  | nil => exact hnil
  | cons hcd _ ih =>
    rcases List.mem_cons.mp hnil with rfl | hnil
    · rcases hcd with rfl | hcd
      · exact List.mem_cons_self
      · exact absurd rfl hcd.2.ne_nil
    · exact List.mem_cons_of_mem _ (ih hnil)

theorem SameShape.moves (h : SameShape p q) : List.Forall₂ Move.Alike p.moves q.moves := by
  rw [SameShape] at h
  rw [Path.moves, Path.moves, List.forall₂_map_left_iff, List.forall₂_map_right_iff]
  apply h.imp
  rintro c d (rfl | ⟨hc, hd⟩)
  · cases move c <;> constructor
  · rw [hc.move, hd.move]
    constructor

theorem SameShape.isAbsolute (h : SameShape p q) : p.isAbsolute = q.isAbsolute := by
  rw [SameShape] at h
  rw [head_components, head_components]
  generalize p.components = cs at h ⊢
  generalize q.components = ds at h ⊢
  rcases h with _ | ⟨rfl | ⟨hc, hd⟩, -⟩
  · rfl
  · rfl
  · simp [List.isEmpty_eq_false_iff.mpr hc.ne_nil, List.isEmpty_eq_false_iff.mpr hd.ne_nil]

theorem SameShape.noEmpty (h : SameShape p q) (hp : p.NoEmpty) : q.NoEmpty := by
  rw [NoEmpty] at hp ⊢
  rw [← h.isAbsolute]
  rw [SameShape] at h
  split at hp
  · next ha =>
    rw [if_pos ha]
    intro hq
    apply hp
    generalize p.components = cs at h ⊢
    generalize q.components = ds at h hq
    rcases h with _ | ⟨-, h⟩
    · exact hq
    · exact SameShape.nil_mem h hq
  · next ha =>
    rw [if_neg ha]
    exact fun hq => hp (SameShape.nil_mem h hq)

theorem SameShape.left (h : SameShape p q) (hp : p.location.place ≠ .here) : q.location.place ≠ .here := by
  intro hq
  apply hp
  have halike := foldl_move_alike h.moves .here .here rfl rfl
  rw [location] at hp hq ⊢
  rw [← h.isAbsolute] at hq
  split at hq
  · next ha =>
    rw [if_pos ha]
    have hlen := halike.2
    rw [names_foldl_move, names_foldl_move] at hlen
    have hnil : resolveRooted q.moves = [] := congrArg Loc.names hq
    have : (resolveRooted p.moves).length = 0 := hlen.trans (congrArg List.length hnil)
    ext1
    · rfl
    · exact List.eq_nil_of_length_eq_zero this
  · next ha =>
    rw [if_neg ha]
    have hups : (resolve q.moves).ups = 0 := congrArg Loc.ups hq
    have hnil : (resolve q.moves).names = [] := congrArg Loc.names hq
    ext1
    · exact halike.1.trans hups
    · exact List.eq_nil_of_length_eq_zero (halike.2.trans (congrArg List.length hnil))

theorem SameShape.regular (h : SameShape p q) (hp : Regular p) : Regular q where
  noEmpty := h.noEmpty hp.noEmpty
  staysBelow ha := (staysBelow_alike h.moves 0).mp (hp.staysBelow (h.isAbsolute.trans ha))
  left := h.left hp.left

/-! ## Long names -/

def filling (N : ℕ) : List Char := List.replicate N 'a'

theorem isName_filling (h : 0 < N) : IsName (filling N) := by
  obtain ⟨N, rfl⟩ := Nat.exists_eq_add_one.mpr h
  have hdot {cs : List Char} : filling (N + 1) ≠ '.' :: cs := fun hc =>
    absurd (List.cons.inj hc).1 (by decide)
  constructor
  · rw [Path.move, if_neg, if_neg hdot]
    rintro (hc | hc)
    · cases hc
    · exact hdot hc
  · intro hs
    exact absurd (List.eq_of_mem_replicate hs) (by decide)

/-- Every name of the path is the same long one. -/
def Filled (N : ℕ) (p : Path) : Prop := ∀ c ∈ p.components, IsName c → c = filling N

open Classical in
theorem exists_filled (p : Path) (hp : p.isValid) (hN : 0 < N) :
    ∃ q : Path, q.isValid ∧ SameShape p q ∧ Filled N q := by
  let fill (c : List Char) : List Char := if IsName c then filling N else c
  have hname (c : List Char) : c = fill c ∨ IsName c ∧ IsName (fill c) := by
    by_cases h : IsName c
    · right
      rw [show fill c = filling N from if_pos h]
      exact ⟨h, isName_filling hN⟩
    · exact .inl (if_neg h).symm
  have hsep {c : List Char} (h : SEP ∉ c) : SEP ∉ fill c := by
    rcases hname c with hc | hc
    · exact hc ▸ h
    · exact hc.2.no_sep
  have hnil (c : List Char) : fill c = [] ↔ c = [] := by
    rcases hname c with hc | hc
    · rw [← hc]
    · exact iff_of_false hc.2.ne_nil hc.1.ne_nil
  have hfilled (c : List Char) (h : IsName (fill c)) : fill c = filling N := by
    by_cases hc : IsName c
    · exact if_pos hc
    · rw [show fill c = c from if_neg hc] at h
      exact absurd h hc
  rcases p with ⟨str⟩
  obtain ⟨cs, last, rfl, hcs, hlast⟩ := exists_spell str
  have hcs' : ∀ c ∈ cs.map fill, SEP ∉ c := by
    intro c hc
    obtain ⟨d, hd, rfl⟩ := List.mem_map.mp hc
    exact hsep (hcs d hd)
  have hcomps : components ⟨spell (cs.map fill) ++ fill last⟩ = (components ⟨spell cs ++ last⟩).map fill := by
    rw [components_spell_append cs last hcs hlast, components_spell_append _ _ hcs' (hsep hlast), List.map_append]
    simp only [hnil]
    split <;> rfl
  apply Exists.intro ⟨spell (cs.map fill) ++ fill last⟩
  apply And.intro
  · simp only [isValid, ne_eq, List.append_eq_nil_iff, spell_eq_nil, List.map_eq_nil_iff, hnil] at hp ⊢
    exact hp
  apply And.intro
  · rw [SameShape, hcomps, List.forall₂_map_right_iff, List.forall₂_same]
    exact fun c _ => hname c
  · intro c hc
    rw [hcomps] at hc
    obtain ⟨d, -, rfl⟩ := List.mem_map.mp hc
    exact hfilled d

/-! ## Damage below the root -/

/-- The first name of the text has been cut or glued, and `b` components more cannot repair it. -/
def Damaged (N b : ℕ) (rv : List Char) : Prop :=
  ∃ k j m, k + j = m * N ∧ 1 ≤ m ∧ j + b + 1 < N ∧
    (rv = SEP :: filling k ∨
      (1 ≤ j ∨ 2 ≤ m) ∧ ∃ ns, (∀ n ∈ ns, IsName n) ∧ rv = spell ([] :: filling k :: ns))

theorem Damaged.pos {k j m : ℕ} (hk : k + j = m * N) (hm : 1 ≤ m) (hj : j + b + 1 < N) : N ≤ k + j ∧ 1 < k := by
  have : N ≤ m * N := Nat.le_mul_of_pos_left N hm
  omega

theorem endsInParent_glued (k : ℕ) : endsInParent (SEP :: filling (k + 1)) = false := by
  rw [endsInParent, decide_eq_false_iff_not]
  rintro (⟨-, h⟩ | ⟨-, h⟩)
  · exact absurd (List.cons.inj h).1 (by decide)
  · have hlast : 'a' = SEP := by
      have hs : (SEP :: filling (k + 1)).getLast? = some SEP := by
        obtain ⟨t, ht⟩ := List.drop_suffix ((SEP :: filling (k + 1)).length - 4) (SEP :: filling (k + 1))
        rw [← ht, h]
        simp
      rw [filling, List.replicate_succ', ← List.cons_append, List.getLast?_concat] at hs
      exact Option.some.inj hs
    exact absurd hlast (by decide)

theorem cancelLast_glued (k : ℕ) : cancelLast (SEP :: filling (k + 1)) = SEP :: filling k := by
  have hdrop : (SEP :: filling (k + 1)).dropLast = [] ++ SEP :: filling k := by
    rw [filling, List.replicate_succ', ← List.cons_append, List.dropLast_concat]
    rfl
  have hs : SEP ∉ filling k := fun h => absurd (List.eq_of_mem_replicate h) (by decide)
  rw [cancelLast, hdrop, findLastOf_sep [] hs]
  rfl

theorem Damaged.step (h : Damaged N (b + 1) rv) (hc : c = ['.'] ∨ c = ['.', '.'] ∨ c = filling N) :
    Damaged N b (normaliseComponent rv c) := by
  obtain ⟨k, j, m, hk, hm, hj, h⟩ := h
  have hpos := Damaged.pos hk hm hj
  have hN : 0 < N := by omega
  rcases hc with rfl | rfl | rfl
  · rw [normaliseComponent_stay _ rfl]
    exact ⟨k, j, m, hk, hm, by omega, h⟩
  · rcases h with rfl | ⟨hbad, ns, hns, rfl⟩
    · obtain ⟨k, rfl⟩ := Nat.exists_eq_add_one.mpr (Nat.zero_lt_of_lt hpos.2)
      rw [normaliseComponent, if_neg (by simp), if_pos rfl, if_neg (by simp [endsInParent_glued]),
        cancelLast_glued]
      exact ⟨k, j + 1, m, by omega, hm, by omega, .inl rfl⟩
    · rcases ns.eq_nil_or_concat with rfl | ⟨ns, n, rfl⟩
      · have hcancel := normaliseComponent_cancel (isName_filling (Nat.zero_lt_of_lt hpos.2)) [[]]
        rw [if_neg (by simp), if_pos rfl] at hcancel
        exact ⟨k, j, m, hk, hm, by omega, .inl hcancel⟩
      · rw [List.concat_eq_append] at hns ⊢
        have hcancel := normaliseComponent_cancel (hns n (by simp)) ([] :: filling k :: ns)
        rw [if_neg (by simp), if_neg (by simp)] at hcancel
        exact ⟨k, j, m, hk, hm, by omega, .inr ⟨hbad, ns, fun n hn => hns n (by simp [hn]), hcancel⟩⟩
  · have hname := isName_filling hN
    rcases h with rfl | ⟨hbad, ns, hns, rfl⟩
    · have hglue : normaliseComponent (SEP :: filling k) (filling N) = spell [[], filling (k + N)] := by
        rw [normaliseComponent, if_neg fun hc => hname.not_stay (.inr hc), if_neg hname.ne_parent]
        have hadd : filling (k + N) = filling k ++ filling N := List.replicate_add k N 'a'
        simp [hadd]
      exact ⟨k + N, j, m + 1, by rw [Nat.add_mul]; omega, by omega, by omega, .inr ⟨by omega, [], by simp, hglue⟩⟩
    · have hpush := normaliseComponent_name hname ([] :: filling k :: ns)
      have hns' : ∀ n ∈ ns ++ [filling N], IsName n := by
        simpa [or_imp, forall_and] using And.intro hns hname
      exact ⟨k, j, m, hk, hm, by omega, .inr ⟨hbad, ns ++ [filling N], hns', hpush⟩⟩

theorem Damaged.foldl {cs : List (List Char)} (h : Damaged N cs.length rv)
    (hcs : ∀ c ∈ cs, c = ['.'] ∨ c = ['.', '.'] ∨ c = filling N) :
    Damaged N 0 (cs.foldl normaliseComponent rv) := by
  induction cs generalizing rv with
  | nil => exact h
  | cons c cs ih =>
    rw [List.forall_mem_cons] at hcs
    exact ih (h.step hcs.1) hcs.2

/-- A damaged text has a first name of the wrong length. -/
theorem Damaged.components (h : Damaged N 0 rv) :
    ∃ k ns, k ≠ N ∧ components ⟨rv.dropLast⟩ = [] :: filling k :: ns := by
  obtain ⟨k, j, m, hk, hm, hj, h⟩ := h
  have hpos := Damaged.pos (b := 0) hk hm hj
  have hs (k : ℕ) : SEP ∉ filling k := fun h => absurd (List.eq_of_mem_replicate h) (by decide)
  have hmul : m = 1 ∨ 2 * N ≤ m * N := by
    rcases Nat.eq_or_lt_of_le hm with h | h
    · exact .inl h.symm
    · exact .inr (Nat.mul_le_mul_right N h)
  rcases h with rfl | ⟨hbad, ns, hns, rfl⟩
  · obtain ⟨k, rfl⟩ := Nat.exists_eq_add_one.mpr (Nat.zero_lt_of_lt hpos.2)
    apply Exists.intro k
    apply Exists.intro []
    constructor
    · rcases hmul with rfl | h <;> omega
    · have hcomps := components_spell_append [[]] (filling k) (by simp) (hs k)
      rw [if_neg (isName_filling (by omega)).ne_nil] at hcomps
      rw [filling, List.replicate_succ', ← List.cons_append, List.dropLast_concat]
      exact hcomps
  · apply Exists.intro k
    apply Exists.intro ns
    constructor
    · rcases hmul with rfl | h <;> omega
    · rcases (filling k :: ns).eq_nil_or_concat with h | ⟨ds, d, h⟩
      · cases h
      · rw [List.concat_eq_append] at h
        have hname : ∀ n ∈ ds ++ [d], IsName n := h ▸ List.forall_mem_cons.mpr ⟨isName_filling (by omega), hns⟩
        rw [h]
        apply components_dropLast ([] :: ds)
        · rw [List.cons_append, List.forall_mem_cons]
          exact ⟨by simp, fun n hn => (hname n hn).no_sep⟩
        · exact (hname d (by simp)).ne_nil

/-- An irregular `..` damages the text, or leaves the root for good. -/
theorem foldl_irregular (cs ns : List (List Char)) (hns : ∀ n ∈ ns, n = filling N) (hN : cs.length + 1 < N)
    (hcs : ∀ c ∈ cs, c = ['.'] ∨ c = ['.', '.'] ∨ c = filling N) (hb : ¬ StaysBelow ns.length (cs.map move)) :
    Damaged N 0 (cs.foldl normaliseComponent (spell ([] :: ns))) ∨
      ∃ l : Loc (List Char), (∀ n ∈ l.names, IsName n) ∧
        cs.foldl normaliseComponent (spell ([] :: ns)) = spell (relative l) := by
  have hname : IsName (filling N) := isName_filling (by omega)
  induction cs generalizing ns with
  | nil => exact absurd trivial hb
  | cons c cs ih =>
    rw [List.forall_mem_cons] at hcs
    rw [List.length_cons] at hN
    rw [List.foldl_cons]
    rw [List.map_cons] at hb
    rcases hcs.1 with rfl | rfl | rfl
    · rw [normaliseComponent_stay _ rfl]
      exact ih _ hns (by omega) hcs.2 hb
    · change ¬(2 ≤ ns.length ∧ StaysBelow (ns.length - 1) (cs.map move)) at hb
      rcases ns with _ | ⟨n, ns⟩
      · right
        have hroot : normaliseComponent (spell [[]]) ['.', '.'] = spell (relative .here) := rfl
        have hsep : ∀ c ∈ cs, SEP ∉ c ∧ c ≠ [] := by
          intro c hc
          rcases hcs.2 c hc with rfl | rfl | rfl
          · exact ⟨by decide, by simp⟩
          · exact ⟨by decide, by simp⟩
          · exact ⟨hname.no_sep, hname.ne_nil⟩
        rw [hroot, foldl_relative cs .here (by simp [Loc.here]) (fun c hc => (hsep c hc).1)
          fun hc => (hsep [] hc).2 rfl]
        exact ⟨_, isName_foldl cs (by simp [Loc.here]) fun c hc => (hsep c hc).1, rfl⟩
      · obtain rfl : n = filling N := hns n List.mem_cons_self
        rcases (filling N :: ns).eq_nil_or_concat with h | ⟨ds, d, h⟩
        · cases h
        · rw [List.concat_eq_append] at h
          have hd : d = filling N := hns d (by simp [h])
          have hcancel := normaliseComponent_cancel hname ([] :: ds)
          rw [List.cons_append, if_neg (by simp)] at hcancel
          rw [h, hd, hcancel]
          rcases ds with _ | ⟨e, ds⟩
          · left
            rw [if_pos rfl]
            exact Damaged.foldl ⟨N, 0, 1, by omega, le_rfl, by omega, .inl rfl⟩ hcs.2
          · rw [if_neg (by simp)]
            have hlen : ns.length + 1 = ds.length + 2 := by simpa using congrArg List.length h
            apply ih _ _ (by omega) hcs.2
            · intro hbelow
              apply hb
              rw [List.length_cons, hlen]
              exact ⟨by omega, by simpa using hbelow⟩
            · intro n hn
              exact hns n (h ▸ List.mem_append_left _ hn)
    · rw [normaliseComponent_name hname]
      apply ih (ns ++ [filling N]) _ (by omega) hcs.2
      · rw [hname.move] at hb
        rw [List.length_append]
        exact hb
      · intro n hn
        rcases List.mem_append.mp hn with hn | hn
        · exact hns n hn
        · exact List.mem_singleton.mp hn

theorem filled_cases (hf : Filled N p) (hc : c ∈ p.components) (hne : c ≠ []) :
    c = ['.'] ∨ c = ['.', '.'] ∨ c = filling N := by
  rcases isName_or (p.no_sep_components hc) hne with h | h | h
  · exact .inl h.1
  · exact .inr (.inl h.1)
  · exact .inr (.inr (hf c hc h))

theorem staysBelow_of_canonical (hf : Filled N p) (hN : p.components.length + 1 < N) (hne : p.NoEmpty)
    (h : Canonical p) (ha : p.isAbsolute = true) : StaysBelow 0 p.moves := by
  by_contra hb
  have hcons := components_of_absolute ha
  rw [NoEmpty, if_pos ha] at hne
  rw [moves_of_absolute ha] at hb
  have hlen : p.components.tail.length + 1 < N := by
    rw [List.length_tail]
    omega
  have hrun := foldl_irregular p.components.tail [] (by simp) hlen
    (fun c hc => filled_cases hf (List.mem_of_mem_tail hc) fun hnil => hne (hnil ▸ hc)) hb
  have hnorm := h.normalise
  rw [normalise, hcons, List.foldl_cons, show normaliseComponent [] [] = spell [[]] from rfl] at hnorm
  rcases hrun with hrun | ⟨l, hl, hrun⟩
  · obtain ⟨k, ns, hk, hcomps⟩ := hrun.components
    split_ifs at hnorm
    rw [Option.some.inj hnorm, h.components, PathLocation.components, absolute_location, if_pos ha,
      List.append_assoc] at hcomps
    have hups : p.location.place.ups = 0 := by rw [location, if_pos ha]
    rw [hups] at hcomps
    have hmem : filling k ∈ p.location.place.names := by
      rw [show p.location.place.names = filling k :: ns from (List.cons.inj hcomps).2]
      exact List.mem_cons_self
    rw [location, if_pos ha, ← names_resolve] at hmem
    obtain ⟨c, hc, hdown⟩ := List.mem_map.mp (mem_names_resolve hmem)
    obtain rfl := move_of_down hdown
    have hfill := hf _ hc ⟨hdown, p.no_sep_components hc⟩
    exact hk (by simpa [filling] using congrArg List.length hfill)
  · rw [hrun] at hnorm
    split_ifs at hnorm with hnil
    have hproper : Proper ⟨false, l⟩ := ⟨hl, fun h => absurd h (by simp), fun hhere => by
      rw [show l = .here from hhere] at hnil
      exact hnil rfl⟩
    have hpath : PathLocation.path ⟨false, l⟩ = p.location.path :=
      hproper.path_eq.trans (Option.some.inj hnorm)
    have habs := hproper.isAbsolute_path
    rw [hpath, ← absolute_location, h.location, absolute_location, ha] at habs
    cases habs

/-- A path with one long name everywhere that is normalised is regular. -/
theorem regular_of_canonical (hf : Filled N p) (hN : p.components.length + 1 < N) (hne : p.NoEmpty)
    (h : Canonical p) : Regular p where
  noEmpty := hne
  staysBelow := staysBelow_of_canonical hf hN hne h
  left hhere := by
    have hnorm := h.normalise
    rw [normalise, foldl_components p hne (staysBelow_of_canonical hf hN hne h), PathLocation.components,
      hhere, absolute_location] at hnorm
    by_cases ha : p.isAbsolute = true
    · rw [ha] at hnorm
      have hvalid := h.isValid
      rw [← Option.some.inj hnorm] at hvalid
      exact hvalid rfl
    · rw [if_neg ha] at hnorm
      cases hnorm

end Path

/-! ## The cache of the repository -/

/-- `Repository::from_path`: the manifest of a path and the cache after it, `none` where loading throws. -/
def fromPath {M : Type} (load : List Char → Option M) (cache : List (List Char × M)) (p : Path) :
    Option (List (List Char × M) × M) :=
  p.normalise.bind fun path =>
    match cache.lookup path.str with
    | some manifest => some (cache, manifest)
    | none => (load path.str).map fun manifest => ((path.str, manifest) :: cache, manifest)

/-- A path loaded once is not loaded again, whatever loading it would give. -/
theorem fromPath_again {M : Type} {load load' : List Char → Option M} {cache : List (List Char × M)} {p q : Path}
    {out : List (List Char × M) × M} (hpq : p.normalise = q.normalise) (h : fromPath load cache p = some out) :
    fromPath load' out.1 q = some out := by
  rw [fromPath] at h ⊢
  rw [← hpq]
  cases hp : p.normalise with
  | none =>
    rw [hp] at h
    cases h
  | some path =>
    rw [hp, Option.bind_some] at h
    rw [Option.bind_some]
    cases hcache : cache.lookup path.str with
    | some manifest =>
      rw [hcache] at h
      cases h
      simp only [hcache]
    | none =>
      rw [hcache] at h
      obtain ⟨manifest, -, rfl⟩ := Option.map_eq_some_iff.mp h
      simp

open Mrustc.Minicargo.Path

/-- Regular paths have one spelling for each location and are loaded once; of a shape without empty
components all paths are normalised exactly if they are regular. -/
theorem normalise_regular_iff (p q : Path) :
    (Regular p → Canonical p) ∧
    (Regular p → Regular q → p.location = q.location →
      p.normalise = q.normalise ∧
      ∀ (M : Type) (load load' : List Char → Option M) (cache : List (List Char × M))
        (out : List (List Char × M) × M),
        fromPath load cache p = some out → fromPath load' out.1 q = some out) ∧
    (p.isValid → p.NoEmpty →
      ((∀ r : Path, r.isValid → SameShape p r → Canonical r) ↔ Regular p)) := by
  apply And.intro canonical_of_regular
  constructor
  · intro hp hq heq
    have hsame : p.normalise = q.normalise := by
      rw [normalise_of_regular hp, normalise_of_regular hq, heq]
    exact ⟨hsame, fun M load load' cache out => fromPath_again hsame⟩
  · intro hp hne
    constructor
    · intro h
      obtain ⟨r, hr, hshape, hf⟩ := exists_filled p hp (N := p.components.length + 2) (by omega)
      apply hshape.symm.regular
      apply regular_of_canonical hf _ (hshape.noEmpty hne) (h r hr hshape)
      rw [← List.Forall₂.length_eq hshape]
      omega
    · exact fun h r _ hshape => canonical_of_regular (hshape.regular h)

/-- `a/./b/../c` is normalised to `a/c`. -/
theorem normalise_regular_dots :
    Canonical ⟨"a/./b/../c".toList⟩ ∧ (Path.normalise ⟨"a/./b/../c".toList⟩) = some ⟨"a/c".toList⟩ := by
  have h : Regular ⟨"a/./b/../c".toList⟩ := by
    constructor
    · rw [NoEmpty]
      decide
    · decide
    · decide
  exact ⟨(normalise_regular_iff _ ⟨[]⟩).1 h, by decide⟩

/-- Below the root the name in front of `..` stays and the next one is glued to it, `/` and a relative path
that cancels have no valid result, and an empty component is kept. -/
theorem normalise_irregular :
    Path.normalise ⟨"/ab/../c".toList⟩ = some ⟨"/abc".toList⟩ ∧
    ¬ Canonical ⟨"/ab/../c".toList⟩ ∧ Path.location ⟨"/ab/../c".toList⟩ = Path.location ⟨"/c".toList⟩ ∧
    Path.normalise ⟨"/c".toList⟩ = some ⟨"/c".toList⟩ ∧
    Path.normalise ⟨"/".toList⟩ = some ⟨[]⟩ ∧ Path.normalise ⟨"a/..".toList⟩ = none ∧
    Path.normalise ⟨"a//b".toList⟩ = some ⟨"a//b".toList⟩ := by
  exact ⟨by decide, fun h => absurd h.normalise (by decide), by decide, by decide, by decide, by decide, by decide⟩

end Mrustc.Minicargo
