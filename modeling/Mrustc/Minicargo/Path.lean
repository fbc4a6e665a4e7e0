import Mathlib.Data.List.DropRight
import Mathlib.Data.List.TakeWhile
import Mrustc.Location.Moves

/-! # Paths of the tools

A path is its text. Its components are read one after the other, and `normalise`
edits the text of its result, which ends in a separator between two components.
-/

namespace Mrustc.Minicargo

open Location

def SEP : Char := '/'

structure Path where
  str : List Char
  deriving DecidableEq, Repr

namespace Path

variable {cs ds : List (List Char)} {c pre rest : List Char}

def isValid (p : Path) : Prop := p.str ≠ []

def isAbsolute (p : Path) : Bool := p.str.head? == some SEP

/-- Construction from a text, which throws for the empty one. -/
def ofText (s : List Char) : Option Path :=
  if s = [] then none
  else
    let str := s.map fun c => if c = '/' ∨ c = '\\' then SEP else c
    let str := str.rdropWhile (· = SEP)
    some ⟨if str = [] then [SEP] else str⟩

theorem isValid_of_ofText {s : List Char} {p : Path} (h : ofText s = some p) : p.isValid := by
  rw [ofText] at h
  split at h
  · cases h
  · cases h
    rw [isValid]
    split
    · simp
    · assumption

/-- `m_str.find(SEP, pos)`, or the size where there is none. -/
def find (str : List Char) (pos : ℕ) : ℕ := pos + ((str.drop pos).takeWhile (· ≠ SEP)).length

/-- `m_str.find_last_of(SEP)`. -/
def findLastOf (str : List Char) : Option ℕ :=
  if SEP ∈ str then some (str.length - 1 - (str.reverse.takeWhile (· ≠ SEP)).length) else none

structure ComponentsIter where
  pos : ℕ
  endPos : ℕ

namespace ComponentsIter

def start (str : List Char) (i : ℕ) : ComponentsIter := ⟨i, find str i⟩

def get (str : List Char) (it : ComponentsIter) : List Char := (str.drop it.pos).take (it.endPos - it.pos)

def next (str : List Char) (it : ComponentsIter) : ComponentsIter :=
  if it.endPos = str.length then ⟨it.endPos, it.endPos⟩ else ⟨it.endPos + 1, find str (it.endPos + 1)⟩

/-- What the iteration meets up to the end of the text, in at most `fuel` rounds. -/
def collect (str : List Char) : ℕ → ComponentsIter → List (List Char)
  | 0, _ => []
  | fuel + 1, it => if it.pos = str.length then [] else it.get str :: collect str fuel (it.next str)

end ComponentsIter

def components (p : Path) : List (List Char) :=
  ComponentsIter.collect p.str (p.str.length + 1) (.start p.str 0)

/-- Whether the result so far ends in a component `..`. -/
def endsInParent (rv : List Char) : Bool :=
  (rv.length = 3 ∧ rv = ['.', '.', SEP]) ∨ (4 < rv.length ∧ rv.drop (rv.length - 4) = [SEP, '.', '.', SEP])

/-- The last component of the result so far is taken back. -/
def cancelLast (rv : List Char) : List Char :=
  match findLastOf rv.dropLast with
  | none => []
  | some pos => if pos = 0 then rv.dropLast else rv.dropLast.take (pos + 1)

def normaliseComponent (rv comp : List Char) : List Char :=
  if comp = ['.'] then rv
  else if comp = ['.', '.'] then
    if rv = [] ∨ endsInParent rv then rv ++ comp ++ [SEP] else cancelLast rv
  else rv ++ comp ++ [SEP]

/-- `pop_back` of an empty text is undefined. -/
def normalise (p : Path) : Option Path :=
  let rv := p.components.foldl normaliseComponent []
  if rv = [] then none else some ⟨rv.dropLast⟩

/-! ## Components of a text -/

/-- Components, each with a separator behind it. -/
def spell (cs : List (List Char)) : List Char := cs.flatMap fun c => c ++ [SEP]

@[simp] theorem spell_nil : spell [] = [] := rfl

@[simp] theorem spell_cons : spell (c :: cs) = c ++ SEP :: spell cs := by
  simp [spell]

@[simp] theorem spell_append : spell (cs ++ ds) = spell cs ++ spell ds := by
  simp [spell]

theorem spell_concat : spell (cs ++ [c]) = spell cs ++ c ++ [SEP] := by
  simp

theorem spell_eq_nil : spell cs = [] ↔ cs = [] := by
  cases cs <;> simp

theorem length_le_spell (cs : List (List Char)) : cs.length ≤ (spell cs).length := by
  induction cs with
  | nil => rfl
  | cons c cs ih =>
    simp only [spell_cons, List.length_append, List.length_cons]
    omega

/-- Every text is some components with a separator behind each, and a rest without one. -/
theorem exists_spell (str : List Char) :
    ∃ cs last, str = spell cs ++ last ∧ (∀ c ∈ cs, SEP ∉ c) ∧ SEP ∉ last := by
  induction str with
  | nil => exact ⟨[], [], rfl, by simp, by simp⟩
  | cons c str ih =>
    obtain ⟨cs, last, rfl, hcs, hlast⟩ := ih
    by_cases hc : c = SEP
    · subst hc
      exact ⟨[] :: cs, last, by simp, by simpa using hcs, hlast⟩
    · cases cs with
      | nil => exact ⟨[], c :: last, rfl, by simp, by simp [Ne.symm hc, hlast]⟩
      | cons d cs =>
        apply Exists.intro ((c :: d) :: cs)
        apply Exists.intro last
        apply And.intro (by simp)
        rw [List.forall_mem_cons] at hcs ⊢
        exact ⟨⟨by simp [Ne.symm hc, hcs.1], hcs.2⟩, hlast⟩

private theorem takeWhile_no_sep (hc : SEP ∉ c) : c.takeWhile (· ≠ SEP) = c := by
  rw [List.takeWhile_eq_self_iff]
  intro d hd
  exact decide_eq_true fun h => hc (h ▸ hd)

theorem find_sep (hc : SEP ∉ c) : find (pre ++ c ++ SEP :: rest) pre.length = (pre ++ c).length := by
  rw [find, List.append_assoc, List.drop_left, List.takeWhile_append_of_pos, List.takeWhile_cons_of_neg]
  · simp
  · simp
  · intro d hd
    exact decide_eq_true fun h => hc (h ▸ hd)

theorem find_end (hc : SEP ∉ c) : find (pre ++ c) pre.length = (pre ++ c).length := by
  rw [find, List.drop_left, takeWhile_no_sep hc, List.length_append]

namespace ComponentsIter

/-- A component in front of a separator is met, and the iteration goes on behind that separator. -/
theorem collect_sep (hc : SEP ∉ c) (fuel : ℕ) :
    collect (pre ++ c ++ SEP :: rest) (fuel + 1) (start (pre ++ c ++ SEP :: rest) pre.length) =
      c :: collect (pre ++ c ++ SEP :: rest) fuel
        (start (pre ++ c ++ SEP :: rest) (pre ++ c ++ [SEP]).length) := by
  rw [collect, start, find_sep hc, if_neg (by simp)]
  congr 1
  · simp [get]
  · have hlen : (pre ++ c ++ [SEP]).length = pre.length + c.length + 1 := by simp [Nat.add_assoc]
    rw [next, if_neg (by simp), start, hlen, List.length_append]

theorem collect_end (hc : SEP ∉ c) (hne : c ≠ []) (fuel : ℕ) :
    collect (pre ++ c) (fuel + 2) (start (pre ++ c) pre.length) = [c] := by
  rw [collect, start, find_end hc, if_neg (by simpa using hne), next, if_pos rfl, collect, if_pos rfl]
  simp [get]

theorem collect_spell (cs : List (List Char)) (hcs : ∀ c ∈ cs, SEP ∉ c) (hc : SEP ∉ c) (pre : List Char)
    (fuel : ℕ) (hf : cs.length + c.length < fuel) :
    collect (pre ++ spell cs ++ c) fuel (start (pre ++ spell cs ++ c) pre.length) =
      cs ++ if c = [] then [] else [c] := by
  induction cs generalizing pre fuel with
  | nil =>
    obtain ⟨fuel, rfl⟩ := Nat.exists_eq_add_of_lt hf
    rw [spell_nil, List.append_nil, List.nil_append]
    split
    · next h =>
      subst h
      rw [collect, start, if_pos (by simp)]
    · next h =>
      have := List.length_pos_of_ne_nil h
      rw [show [].length + c.length + fuel + 1 = (c.length + fuel - 1) + 2 by simp; omega]
      exact collect_end hc h _
  | cons d cs ih =>
    rw [List.forall_mem_cons] at hcs
    cases fuel with
    | zero => omega
    | succ fuel =>
      have hcut : pre ++ spell (d :: cs) ++ c = pre ++ d ++ SEP :: (spell cs ++ c) := by simp
      have hnext : pre ++ d ++ SEP :: (spell cs ++ c) = pre ++ d ++ [SEP] ++ spell cs ++ c := by simp
      rw [hcut, collect_sep hcs.1, hnext, ih hcs.2 _ _ (by simp at hf; omega), List.cons_append]

end ComponentsIter

/-- The components of a text, the rest behind its last separator among them unless it is empty. -/
theorem components_spell_append (cs : List (List Char)) (c : List Char) (hcs : ∀ c ∈ cs, SEP ∉ c) (hc : SEP ∉ c) :
    components ⟨spell cs ++ c⟩ = cs ++ if c = [] then [] else [c] := by
  have hfuel : cs.length + c.length < (spell cs ++ c).length + 1 := by
    have := length_le_spell cs
    rw [List.length_append]
    omega
  exact ComponentsIter.collect_spell cs hcs hc [] _ hfuel

theorem components_spell (hcs : ∀ c ∈ cs, SEP ∉ c) : components ⟨spell cs⟩ = cs := by
  simpa using components_spell_append cs [] hcs (by simp)

theorem components_dropLast (cs : List (List Char)) (hcs : ∀ d ∈ cs ++ [c], SEP ∉ d) (hne : c ≠ []) :
    components ⟨(spell (cs ++ [c])).dropLast⟩ = cs ++ [c] := by
  have h := components_spell_append cs c (fun d hd => hcs d (by simp [hd])) (hcs c (by simp))
  rw [spell_concat, List.dropLast_concat, h, if_neg hne]

theorem no_sep_components (p : Path) {c : List Char} (h : c ∈ p.components) : SEP ∉ c := by
  rcases p with ⟨str⟩
  obtain ⟨cs, last, rfl, hcs, hlast⟩ := exists_spell str
  rw [components_spell_append cs last hcs hlast] at h
  rcases List.mem_append.mp h with h | h
  · exact hcs c h
  · split at h
    · cases h
    · rw [List.mem_singleton.mp h]
      exact hlast

theorem components_ne_nil {p : Path} (hp : p.isValid) : p.components ≠ [] := by
  rcases p with ⟨str⟩
  obtain ⟨cs, last, rfl, hcs, hlast⟩ := exists_spell str
  rw [components_spell_append cs last hcs hlast]
  intro h
  rw [List.append_eq_nil_iff] at h
  rcases h with ⟨rfl, h⟩
  split at h
  · next hl => exact hp (by simp [hl])
  · cases h

/-- An absolute path is one whose first component is empty. -/
theorem head_components (p : Path) : p.isAbsolute = (p.components.head? == some []) := by
  rcases p with ⟨str⟩
  obtain ⟨cs, last, rfl, hcs, hlast⟩ := exists_spell str
  rw [components_spell_append cs last hcs hlast, isAbsolute]
  rcases cs with _ | ⟨_ | ⟨d, c⟩, cs⟩
  · rcases last with _ | ⟨d, last⟩
    · rfl
    · simp only [List.mem_cons, not_or] at hlast
      simp [Ne.symm hlast.1]
  · simp
  · have hd := hcs _ (List.mem_cons_self)
    simp only [List.mem_cons, not_or] at hd
    simp [Ne.symm hd.1]

end Path

end Mrustc.Minicargo
