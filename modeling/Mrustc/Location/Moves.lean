import Mathlib.Tactic

/-! # Lexical locations

A path read without the file system is a list of moves: stay, go up, go down
to a name. From an unknown directory the moves up that nothing cancels are kept;
from the root they are lost.
-/

namespace Mrustc.Location

variable {α β : Type}

inductive Move (α : Type)
  | stay
  | up
  | down (name : α)
  deriving DecidableEq, Repr

/-- Where moves lead: some levels up, and from there down the names, the outermost first. -/
@[ext]
structure Loc (α : Type) where
  ups : ℕ
  names : List α
  deriving DecidableEq, Repr

def Loc.here : Loc α := ⟨0, []⟩

def Loc.move (l : Loc α) : Move α → Loc α
  | .stay => l
  | .up => if l.names.isEmpty then ⟨l.ups + 1, []⟩ else ⟨l.ups, l.names.dropLast⟩
  | .down a => ⟨l.ups, l.names ++ [a]⟩

/-- Where moves lead from an unknown directory. -/
def resolve (ms : List (Move α)) : Loc α := ms.foldl Loc.move .here

/-- One move at a known depth: above the root is the root. -/
def moveRooted (names : List α) : Move α → List α
  | .stay => names
  | .up => names.dropLast
  | .down a => names ++ [a]

/-- Where moves lead from the root. -/
def resolveRooted (ms : List (Move α)) : List α := ms.foldl moveRooted []

/-- The moves up and down that lead to a location. -/
def Loc.moves (l : Loc α) : List (Move α) := List.replicate l.ups .up ++ l.names.map .down

@[simp] theorem move_stay (l : Loc α) : l.move .stay = l := rfl

@[simp] theorem move_down (l : Loc α) (a : α) : l.move (.down a) = ⟨l.ups, l.names ++ [a]⟩ := rfl

@[simp] theorem move_up_nil (n : ℕ) : (⟨n, []⟩ : Loc α).move .up = ⟨n + 1, []⟩ := rfl

@[simp] theorem move_up_concat (n : ℕ) (as : List α) (a : α) :
    (⟨n, as ++ [a]⟩ : Loc α).move .up = ⟨n, as⟩ := by
  simp [Loc.move]

/-- The root only forgets the moves up that nothing cancels. -/
theorem names_move (l : Loc α) (m : Move α) : (l.move m).names = moveRooted l.names m := by
  rcases l with ⟨n, as⟩
  rcases m with _ | _ | a
  · rfl
  · rcases as.eq_nil_or_concat with rfl | ⟨as, a, rfl⟩
    · rfl
    · simp [moveRooted]
  · rfl

theorem names_foldl_move (ms : List (Move α)) (l : Loc α) :
    (ms.foldl Loc.move l).names = ms.foldl moveRooted l.names := by
  induction ms generalizing l with
  | nil => rfl
  | cons m ms ih => rw [List.foldl_cons, List.foldl_cons, ih, names_move]

theorem names_resolve (ms : List (Move α)) : (resolve ms).names = resolveRooted ms :=
  names_foldl_move ms .here

theorem foldl_up (k n : ℕ) : (List.replicate k Move.up).foldl Loc.move (⟨n, []⟩ : Loc α) = ⟨n + k, []⟩ := by
  induction k generalizing n with
  | zero => rfl
  | succ k ih =>
    rw [List.replicate_succ, List.foldl_cons, move_up_nil, ih]
    congr 1
    omega

theorem foldl_down (as bs : List α) (n : ℕ) :
    (bs.map Move.down).foldl Loc.move ⟨n, as⟩ = ⟨n, as ++ bs⟩ := by
  induction bs generalizing as with
  | nil => simp
  | cons b bs ih => rw [List.map_cons, List.foldl_cons, move_down, ih, List.append_assoc, List.singleton_append]

/-- A location is reached by its own moves. -/
theorem resolve_moves (l : Loc α) : resolve l.moves = l := by
  rw [resolve, Loc.moves, List.foldl_append, Loc.here, foldl_up, foldl_down, List.nil_append, Nat.zero_add]

theorem resolveRooted_down (as : List α) : resolveRooted (as.map Move.down) = as := by
  rw [← names_resolve, resolve, Loc.here, foldl_down, List.nil_append]

/-- Every name of a location is one that the moves go down to. -/
theorem mem_names_foldl {ms : List (Move α)} {l : Loc α} {a : α} (h : a ∈ (ms.foldl Loc.move l).names) :
    a ∈ l.names ∨ .down a ∈ ms := by
  induction ms generalizing l with
  | nil => exact .inl h
  | cons m ms ih =>
    rcases ih h with h | h
    · rw [names_move] at h
      rcases m with _ | _ | b
      · exact .inl h
      · exact .inl (List.mem_of_mem_dropLast h)
      · rcases List.mem_append.mp h with h | h
        · exact .inl h
        · exact .inr (by simp [List.mem_singleton.mp h])
    · exact .inr (List.mem_cons_of_mem m h)

theorem mem_names_resolve {ms : List (Move α)} {a : α} (h : a ∈ (resolve ms).names) : .down a ∈ ms :=
  (mem_names_foldl h).resolve_left (by simp [Loc.here])

/-- At `depth` names below the root, every move up starts at least two names below it. -/
def StaysBelow : ℕ → List (Move α) → Prop
  | _, [] => True
  | depth, .stay :: ms => StaysBelow depth ms
  | depth, .up :: ms => 2 ≤ depth ∧ StaysBelow (depth - 1) ms
  | depth, .down _ :: ms => StaysBelow (depth + 1) ms

instance decidableStaysBelow : (depth : ℕ) → (ms : List (Move α)) → Decidable (StaysBelow depth ms)
  | _, [] => .isTrue trivial
  | depth, .stay :: ms => decidableStaysBelow depth ms
  | depth, .up :: ms =>
    have := decidableStaysBelow (depth - 1) ms
    inferInstanceAs (Decidable (2 ≤ depth ∧ StaysBelow (depth - 1) ms))
  | depth, .down _ :: ms => decidableStaysBelow (depth + 1) ms

/-- The same move, up to the name. -/
inductive Move.Alike : Move α → Move β → Prop
  | stay : Alike .stay .stay
  | up : Alike .up .up
  | down (a : α) (b : β) : Alike (.down a) (.down b)

/-- Whether moves stay below the root does not depend on the names. -/
theorem staysBelow_alike {ms : List (Move α)} {ns : List (Move β)} (h : List.Forall₂ Move.Alike ms ns)
    (depth : ℕ) : StaysBelow depth ms ↔ StaysBelow depth ns := by
  induction h generalizing depth with
  | nil => rfl
  | cons hm _ ih =>
    cases hm with
    | stay => exact ih depth
    | up => exact and_congr_right fun _ => ih (depth - 1)
    | down a b => exact ih (depth + 1)

/-- Neither do the number of moves up that are kept and the number of names. -/
theorem foldl_move_alike {ms : List (Move α)} {ns : List (Move β)} (h : List.Forall₂ Move.Alike ms ns)
    (l : Loc α) (l' : Loc β) (hu : l.ups = l'.ups) (hn : l.names.length = l'.names.length) :
    (ms.foldl Loc.move l).ups = (ns.foldl Loc.move l').ups ∧
      (ms.foldl Loc.move l).names.length = (ns.foldl Loc.move l').names.length := by
  induction h generalizing l l' with
  | nil => exact ⟨hu, hn⟩
  | cons hm _ ih =>
    rcases l with ⟨u, as⟩
    rcases l' with ⟨u', bs⟩
    cases hm with
    | stay => exact ih _ _ hu hn
    | up =>
      rcases as.eq_nil_or_concat with rfl | ⟨as, a, rfl⟩ <;> rcases bs.eq_nil_or_concat with rfl | ⟨bs, b, rfl⟩
      · exact ih _ _ (congrArg (· + 1) hu) rfl
      · simp at hn
      · simp at hn
      · rw [List.foldl_cons, List.foldl_cons, List.concat_eq_append, List.concat_eq_append, move_up_concat,
          move_up_concat]
        exact ih _ _ hu (by simpa using hn)
    | down a b => exact ih _ _ hu (by simpa using hn)

end Mrustc.Location
