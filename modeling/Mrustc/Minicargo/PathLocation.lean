import Mrustc.Minicargo.Path

/-! # The location that a path denotes

Where no component is empty, no `..` meets the root or a component right below
it, and something is left at the end, `normalise` gives the one spelling of the location.
-/

namespace Mrustc.Minicargo

open Location

/-- A location from the root, or from an unknown directory. -/
structure PathLocation where
  absolute : Bool
  place : Loc (List Char)
  deriving DecidableEq, Repr

namespace PathLocation

def components (l : PathLocation) : List (List Char) :=
  (if l.absolute then [[]] else []) ++ List.replicate l.place.ups ['.', '.'] ++ l.place.names

/-- The canonical spelling. -/
def path (l : PathLocation) : Path :=
  if l.components = [] then ⟨['.']⟩
  else if l.components = [[]] then ⟨[SEP]⟩
  else ⟨(Path.spell l.components).dropLast⟩

end PathLocation

namespace Path

def move (c : List Char) : Move (List Char) :=
  if c = [] ∨ c = ['.'] then .stay else if c = ['.', '.'] then .up else .down c

def moves (p : Path) : List (Move (List Char)) := p.components.map move

def location (p : Path) : PathLocation :=
  if p.isAbsolute then ⟨true, 0, resolveRooted p.moves⟩ else ⟨false, resolve p.moves⟩

/-- No two separators follow each other. -/
def NoEmpty (p : Path) : Prop := [] ∉ if p.isAbsolute then p.components.tail else p.components

/-- No component is empty, no `..` meets the root or a component right below it, and something is left. -/
structure Regular (p : Path) : Prop where
  noEmpty : p.NoEmpty
  staysBelow : p.isAbsolute = true → StaysBelow 0 p.moves
  left : p.location.place ≠ .here

/-- Normalised to the canonical spelling of its location, which is valid and has no other spelling. -/
structure Canonical (p : Path) : Prop where
  normalise : p.normalise = some p.location.path
  components : p.location.path.components = p.location.components
  isValid : p.location.path.isValid
  location : p.location.path.location = p.location
  again : p.location.path.normalise = some p.location.path

structure IsName (c : List Char) : Prop where
  move : move c = .down c
  no_sep : SEP ∉ c

theorem move_of_down {c d : List Char} (h : move c = .down d) : c = d := by
  rw [Path.move] at h
  split at h
  · cases h
  · split at h
    · cases h
    · exact Move.down.inj h

namespace IsName

variable {c : List Char}

theorem not_stay (h : IsName c) : ¬(c = [] ∨ c = ['.']) := fun hs => by
  have := h.move
  rw [Path.move, if_pos hs] at this
  cases this

theorem ne_nil (h : IsName c) : c ≠ [] := fun hc => h.not_stay (.inl hc)

theorem ne_parent (h : IsName c) : c ≠ ['.', '.'] := fun hc => by
  have := h.move
  rw [Path.move, if_neg h.not_stay, if_pos hc] at this
  cases this

end IsName

variable {cs ns : List (List Char)} {c : List Char}

/-! ## One component -/

theorem findLastOf_sep (pre : List Char) (hc : SEP ∉ c) : findLastOf (pre ++ SEP :: c) = some pre.length := by
  have htake : (pre ++ SEP :: c).reverse.takeWhile (· ≠ SEP) = c.reverse := by
    rw [List.reverse_append, List.reverse_cons, List.append_assoc, List.takeWhile_append_of_pos]
    · simp
    · intro d hd
      exact decide_eq_true fun h => hc (h ▸ List.mem_reverse.mp hd)
  rw [findLastOf, if_pos (by simp), htake]
  simp only [List.length_append, List.length_cons, List.length_reverse]
  congr 1
  omega

/-- The last component is taken back with its separator, but right below the root only the separator is. -/
theorem cancelLast_concat (cs : List (List Char)) (hc : SEP ∉ c) :
    cancelLast (spell (cs ++ [c])) = if cs = [] then [] else if cs = [[]] then SEP :: c else spell cs := by
  rw [cancelLast, spell_concat, List.dropLast_concat]
  rcases cs.eq_nil_or_concat with rfl | ⟨cs, d, rfl⟩
  · rw [if_pos rfl, spell_nil, List.nil_append, findLastOf, if_neg hc]
  · rw [List.concat_eq_append, spell_concat, List.append_assoc (spell cs ++ d), List.singleton_append,
      findLastOf_sep _ hc, if_neg (by simp)]
    simp only [List.length_eq_zero_iff]
    by_cases h : spell cs ++ d = []
    · rw [if_pos h, h, List.nil_append, if_pos]
      rw [List.append_eq_nil_iff, spell_eq_nil] at h
      simp [h]
    · rw [if_neg h, if_neg, List.take_length_add_append, List.take_succ_cons, List.take_zero]
      intro hcs
      apply h
      rcases cs with _ | ⟨e, cs⟩
      · simpa using hcs
      · simp at hcs

theorem IsName.not_suffix (h : IsName c) : ¬c <:+ [SEP, '.', '.'] := by
  rw [List.suffix_cons_iff, List.suffix_cons_iff, List.suffix_cons_iff, List.suffix_nil]
  rintro (rfl | rfl | rfl | rfl)
  · exact h.no_sep (by simp)
  · exact h.ne_parent rfl
  · exact h.not_stay (.inr rfl)
  · exact h.ne_nil rfl

theorem endsInParent_concat (h : IsName c) (cs : List (List Char)) : endsInParent (spell (cs ++ [c])) = false := by
  rw [spell_concat, endsInParent, decide_eq_false_iff_not]
  rintro (⟨-, h'⟩ | ⟨-, h'⟩)
  · have hs : spell cs ++ c = ['.', '.'] := (List.append_left_inj [SEP]).mp h'
    exact h.not_suffix ((hs ▸ List.suffix_append (spell cs) c).trans (List.suffix_cons SEP ['.', '.']))
  · obtain ⟨t, ht⟩ := List.drop_suffix ((spell cs ++ c ++ [SEP]).length - 4) (spell cs ++ c ++ [SEP])
    rw [h'] at ht
    have hs : t ++ [SEP, '.', '.'] = spell cs ++ c := by
      apply (List.append_left_inj [SEP]).mp
      simpa using ht
    rcases List.suffix_or_suffix_of_suffix (List.suffix_append t [SEP, '.', '.'])
      (hs ▸ List.suffix_append (spell cs) c) with h' | h'
    · exact h.no_sep (h'.subset (by simp))
    · exact h.not_suffix h'

theorem endsInParent_ups (n : ℕ) : endsInParent (spell (List.replicate (n + 1) ['.', '.'])) = true := by
  rw [endsInParent, decide_eq_true_iff, List.replicate_succ', spell_concat]
  cases n with
  | zero => exact .inl ⟨rfl, rfl⟩
  | succ n =>
    rw [List.replicate_succ', spell_concat]
    right
    constructor
    · simp
    · simp

/-! ## The steps -/

/-- The components of a location below an unknown directory. -/
def relative (l : Loc (List Char)) : List (List Char) := List.replicate l.ups ['.', '.'] ++ l.names

theorem normaliseComponent_stay (rv : List Char) (h : c = ['.']) : normaliseComponent rv c = rv := by
  rw [normaliseComponent, if_pos h]

theorem normaliseComponent_name (h : IsName c) (cs : List (List Char)) :
    normaliseComponent (spell cs) c = spell (cs ++ [c]) := by
  rw [normaliseComponent, if_neg fun hc => h.not_stay (.inr hc), if_neg h.ne_parent, spell_concat]

theorem normaliseComponent_cancel (h : IsName c) (cs : List (List Char)) :
    normaliseComponent (spell (cs ++ [c])) ['.', '.'] =
      if cs = [] then [] else if cs = [[]] then SEP :: c else spell cs := by
  rw [normaliseComponent, if_neg (by simp), if_pos rfl, if_neg, cancelLast_concat cs h.no_sep]
  rw [spell_eq_nil, endsInParent_concat h]
  simp

theorem normaliseComponent_ups (n : ℕ) :
    normaliseComponent (spell (List.replicate n ['.', '.'])) ['.', '.'] =
      spell (List.replicate (n + 1) ['.', '.']) := by
  rw [normaliseComponent, if_neg (by simp), if_pos rfl, if_pos, List.replicate_succ', spell_concat]
  cases n with
  | zero => exact .inl rfl
  | succ n => exact .inr (endsInParent_ups n)

theorem isName_or (hs : SEP ∉ c) (hne : c ≠ []) :
    c = ['.'] ∧ move c = .stay ∨ c = ['.', '.'] ∧ move c = .up ∨ IsName c := by
  by_cases h : c = ['.']
  · exact .inl ⟨h, h ▸ rfl⟩
  · by_cases h' : c = ['.', '.']
    · exact .inr (.inl ⟨h', h' ▸ rfl⟩)
    · exact .inr (.inr ⟨by rw [Path.move, if_neg (by simp [hne, h]), if_neg h'], hs⟩)

theorem normaliseComponent_relative (l : Loc (List Char)) (hl : ∀ n ∈ l.names, IsName n) (hs : SEP ∉ c)
    (hne : c ≠ []) : normaliseComponent (spell (relative l)) c = spell (relative (l.move (move c))) := by
  rcases isName_or hs hne with ⟨rfl, hm⟩ | ⟨rfl, hm⟩ | h
  · rw [normaliseComponent_stay _ rfl, hm, move_stay]
  · rcases l with ⟨u, ns⟩
    rw [hm, relative]
    rcases ns.eq_nil_or_concat with rfl | ⟨ns, n, rfl⟩
    · rw [List.append_nil, normaliseComponent_ups, move_up_nil, relative, List.append_nil]
    · simp only [List.concat_eq_append] at hl ⊢
      rw [move_up_concat, relative, ← List.append_assoc, normaliseComponent_cancel (hl n (by simp))]
      split
      · next h => rw [h, spell_nil]
      · rw [if_neg]
        intro h
        have hmem : [] ∈ List.replicate u ['.', '.'] ++ ns := h ▸ List.mem_singleton_self _
        rcases List.mem_append.mp hmem with hmem | hmem
        · cases List.eq_of_mem_replicate hmem
        · exact (hl [] (by simp [hmem])).ne_nil rfl
  · rw [h.move, move_down, relative, normaliseComponent_name h, relative, List.append_assoc]

theorem normaliseComponent_rooted (ns : List (List Char)) (hns : ∀ n ∈ ns, IsName n) (hs : SEP ∉ c)
    (hne : c ≠ []) (hup : move c = .up → 2 ≤ ns.length) :
    normaliseComponent (spell ([] :: ns)) c = spell ([] :: moveRooted ns (move c)) := by
  rcases isName_or hs hne with ⟨rfl, hm⟩ | ⟨rfl, hm⟩ | h
  · rw [normaliseComponent_stay _ rfl, hm]
    rfl
  · have hlen := hup hm
    rw [hm]
    rcases ns.eq_nil_or_concat with rfl | ⟨ns, n, rfl⟩
    · simp at hlen
    · simp only [List.concat_eq_append] at hns hlen ⊢
      have hne : ns ≠ [] := fun h => by simp [h] at hlen
      rw [← List.cons_append, normaliseComponent_cancel (hns n (by simp)), if_neg (by simp), if_neg (by simpa)]
      simp [moveRooted]
  · rw [h.move, normaliseComponent_name h]
    rfl

/-! ## Runs over the components -/

theorem isName_foldl (cs : List (List Char)) {l : Loc (List Char)} (hl : ∀ n ∈ l.names, IsName n) (hcs : ∀ c ∈ cs, SEP ∉ c) :
    ∀ n ∈ ((cs.map move).foldl Loc.move l).names, IsName n := by
  intro n hn
  rcases mem_names_foldl hn with h | h
  · exact hl n h
  · obtain ⟨c, hc, h⟩ := List.mem_map.mp h
    obtain rfl := move_of_down h
    exact ⟨h, hcs c hc⟩

theorem foldl_relative (cs : List (List Char)) (l : Loc (List Char)) (hl : ∀ n ∈ l.names, IsName n) (hcs : ∀ c ∈ cs, SEP ∉ c)
    (hne : [] ∉ cs) :
    cs.foldl normaliseComponent (spell (relative l)) = spell (relative ((cs.map move).foldl Loc.move l)) := by
  induction cs generalizing l with
  | nil => rfl
  | cons c cs ih =>
    rw [List.forall_mem_cons] at hcs
    simp only [List.mem_cons, not_or] at hne
    rw [List.foldl_cons, normaliseComponent_relative l hl hcs.1 (Ne.symm hne.1)]
    exact ih _ (isName_foldl [c] hl (by simpa using hcs.1)) hcs.2 hne.2

theorem foldl_rooted (cs ns : List (List Char)) (hns : ∀ n ∈ ns, IsName n) (hcs : ∀ c ∈ cs, SEP ∉ c)
    (hne : [] ∉ cs) (hb : StaysBelow ns.length (cs.map move)) :
    cs.foldl normaliseComponent (spell ([] :: ns)) = spell ([] :: (cs.map move).foldl moveRooted ns) := by
  induction cs generalizing ns with
  | nil => rfl
  | cons c cs ih =>
    rw [List.forall_mem_cons] at hcs
    simp only [List.mem_cons, not_or] at hne
    rw [List.map_cons] at hb
    have hup : move c = .up → 2 ≤ ns.length := fun hm => by
      rw [hm] at hb
      exact hb.1
    rw [List.foldl_cons, normaliseComponent_rooted ns hns hcs.1 (Ne.symm hne.1) hup]
    apply ih _ _ hcs.2 hne.2
    · rcases isName_or hcs.1 (Ne.symm hne.1) with ⟨rfl, hm⟩ | ⟨rfl, hm⟩ | h
      · rw [hm] at hb ⊢
        exact hb
      · rw [hm] at hb ⊢
        rw [moveRooted, List.length_dropLast]
        exact hb.2
      · rw [h.move] at hb ⊢
        rw [moveRooted, List.length_append]
        exact hb
    · intro n hn
      rw [← names_move ⟨0, ns⟩] at hn
      exact isName_foldl [c] (l := ⟨0, ns⟩) hns (by simpa using hcs.1) n hn

/-! ## The location of a path -/

/-- Locations of more than the root or the directory one starts from. -/
structure Proper (l : PathLocation) : Prop where
  names : ∀ n ∈ l.place.names, IsName n
  ups : l.absolute = true → l.place.ups = 0
  left : l.place ≠ .here

theorem isName_moves (p : Path) {n : List Char} (h : .down n ∈ p.moves) : IsName n := by
  obtain ⟨c, hc, h⟩ := List.mem_map.mp h
  obtain rfl := move_of_down h
  exact ⟨h, p.no_sep_components hc⟩

theorem isName_location (p : Path) : ∀ n ∈ p.location.place.names, IsName n := by
  intro n hn
  apply p.isName_moves
  rw [location] at hn
  split at hn
  · rw [← names_resolve] at hn
    exact mem_names_resolve hn
  · exact mem_names_resolve hn

theorem absolute_location (p : Path) : p.location.absolute = p.isAbsolute := by
  rw [location]
  split
  · next h => exact h.symm
  · next h => exact (Bool.eq_false_iff.mpr h).symm

theorem proper_location (p : Path) (h : p.location.place ≠ .here) : Proper p.location where
  names := p.isName_location
  ups ha := by
    rw [absolute_location] at ha
    rw [location, if_pos ha]
  left := h

namespace Proper

variable {l : PathLocation}

theorem components_eq (h : Proper l) :
    ∃ ds d, l.components = ds ++ [d] ∧ d ≠ [] ∧ ∀ c ∈ ds ++ [d], SEP ∉ c := by
  have hsep : ∀ c ∈ l.components, SEP ∉ c := by
    intro c hc
    rw [PathLocation.components] at hc
    rcases List.mem_append.mp hc with hc | hc
    · rcases List.mem_append.mp hc with hc | hc
      · split at hc
        · simp [List.mem_singleton.mp hc]
        · cases hc
      · simp [List.eq_of_mem_replicate hc, SEP]
    · exact (h.names c hc).no_sep
  suffices ∃ ds d, l.components = ds ++ [d] ∧ d ≠ [] by
    obtain ⟨ds, d, heq, hd⟩ := this
    exact ⟨ds, d, heq, hd, heq ▸ hsep⟩
  rcases l with ⟨a, u, ns⟩
  rcases ns.eq_nil_or_concat with rfl | ⟨ns, n, rfl⟩
  · cases u with
    | zero => exact absurd rfl h.left
    | succ u =>
      apply Exists.intro _
      apply Exists.intro ['.', '.']
      rw [PathLocation.components, List.append_nil, List.replicate_succ', ← List.append_assoc]
      exact ⟨rfl, by simp⟩
  · apply Exists.intro _
    apply Exists.intro n
    rw [PathLocation.components, List.concat_eq_append, ← List.append_assoc]
    exact ⟨rfl, (h.names n (by simp)).ne_nil⟩

theorem path_eq (h : Proper l) : l.path = ⟨(spell l.components).dropLast⟩ := by
  obtain ⟨ds, d, heq, hd, -⟩ := h.components_eq
  rw [PathLocation.path, if_neg (by simp [heq]), if_neg]
  intro hroot
  rw [hroot] at heq
  rcases ds with _ | ⟨e, ds⟩
  · exact hd (List.singleton_inj.mp heq).symm
  · simp at heq

theorem components_path (h : Proper l) : l.path.components = l.components := by
  obtain ⟨ds, d, heq, hd, hsep⟩ := h.components_eq
  rw [h.path_eq, heq, components_dropLast ds hsep hd]

theorem isValid_path (h : Proper l) : l.path.isValid := by
  obtain ⟨ds, d, heq, hd, -⟩ := h.components_eq
  rw [h.path_eq, heq, isValid, spell_concat, List.dropLast_concat]
  simp [hd]

theorem relative_ne_nil (h : Proper l) {c : List Char} (hc : c ∈ relative l.place) : c ≠ [] := by
  rcases List.mem_append.mp hc with hc | hc
  · simp [List.eq_of_mem_replicate hc]
  · exact (h.names c hc).ne_nil

theorem isAbsolute_path (h : Proper l) : l.path.isAbsolute = l.absolute := by
  rw [head_components, h.components_path, PathLocation.components, List.append_assoc]
  cases l.absolute with
  | true => rfl
  | false =>
    rw [if_neg (by simp), List.nil_append, beq_eq_false_iff_ne]
    exact fun hhead => h.relative_ne_nil (List.mem_of_mem_head? hhead) rfl

theorem moves_path (h : Proper l) : l.path.moves = (if l.absolute then [.stay] else []) ++ l.place.moves := by
  rw [moves, h.components_path, PathLocation.components, List.append_assoc, List.map_append, List.map_append,
    List.map_replicate, Loc.moves, List.map_congr_left fun n hn => (h.names n hn).move]
  cases l.absolute <;> rfl

theorem location_path (h : Proper l) : l.path.location = l := by
  rw [location, h.isAbsolute_path, h.moves_path]
  rcases hl : l with ⟨a, u, ns⟩
  rw [hl] at h
  cases a with
  | true =>
    obtain rfl : u = 0 := h.ups rfl
    have hrooted : resolveRooted (.stay :: ns.map Move.down) = ns := resolveRooted_down ns
    simp [Loc.moves, hrooted]
  | false => simp [resolve_moves]

theorem staysBelow_down (ns : List (List Char)) (depth : ℕ) : StaysBelow depth (ns.map Move.down) := by
  induction ns generalizing depth with
  | nil => trivial
  | cons n ns ih => exact ih (depth + 1)

theorem regular_path (h : Proper l) : Regular l.path where
  noEmpty := by
    rw [NoEmpty, h.components_path, h.isAbsolute_path, PathLocation.components, List.append_assoc]
    cases l.absolute <;> exact fun hc => h.relative_ne_nil hc rfl
  staysBelow ha := by
    rw [h.isAbsolute_path] at ha
    rw [h.moves_path, ha, Loc.moves, h.ups ha]
    exact staysBelow_down l.place.names 0
  left := by
    rw [h.location_path]
    exact h.left

end Proper

/-! ## Regular paths -/

theorem components_of_absolute {p : Path} (h : p.isAbsolute = true) : p.components = [] :: p.components.tail := by
  rw [head_components, beq_iff_eq] at h
  exact List.eq_cons_of_mem_head? h

theorem moves_of_absolute {p : Path} (h : p.isAbsolute = true) : p.moves = .stay :: p.components.tail.map move := by
  rw [moves, components_of_absolute h]
  rfl

theorem foldl_components (p : Path) (hne : p.NoEmpty) (hb : p.isAbsolute = true → StaysBelow 0 p.moves) :
    p.components.foldl normaliseComponent [] = spell p.location.components := by
  have hsep : ∀ c ∈ p.components, SEP ∉ c := fun c => p.no_sep_components
  by_cases ha : p.isAbsolute = true
  · have hmoves := moves_of_absolute ha
    have hbelow := hb ha
    rw [NoEmpty, if_pos ha] at hne
    rw [hmoves] at hbelow
    have hrun := foldl_rooted p.components.tail [] (by simp)
      (fun c hc => hsep c (List.mem_of_mem_tail hc)) hne hbelow
    rw [location, if_pos ha, components_of_absolute ha, List.foldl_cons, PathLocation.components, hmoves]
    exact hrun
  · rw [NoEmpty, if_neg ha] at hne
    have hrun := foldl_relative p.components .here (by simp [Loc.here]) hsep hne
    rw [location, if_neg ha, PathLocation.components]
    exact hrun

theorem normalise_of_regular {p : Path} (h : Regular p) : p.normalise = some p.location.path := by
  have hproper := p.proper_location h.left
  obtain ⟨ds, d, heq, -, -⟩ := hproper.components_eq
  rw [normalise, foldl_components p h.noEmpty h.staysBelow, hproper.path_eq]
  exact if_neg (by simp [spell_eq_nil, heq])

theorem canonical_of_regular {p : Path} (h : Regular p) : Canonical p := by
  have hproper := p.proper_location h.left
  apply Canonical.mk (normalise_of_regular h) hproper.components_path hproper.isValid_path hproper.location_path
  rw [normalise_of_regular hproper.regular_path, hproper.location_path]

end Path
end Mrustc.Minicargo
