import Mathlib.Tactic

/-! # The cfg conditions of a manifest

`CfgChecker::check_cfg` reads a condition and evaluates it on the way. The parser holds the token in front of it and
the text behind that token.
-/

namespace Mrustc.Minicargo

inductive CfgError
  | runtimeError (text : List Char)
  | todo (text : List Char)
  | unterminatedString
  deriving DecidableEq, Repr

inductive CfgTok
  | endOfStream
  | operator (c : Char)
  | ident (text : List Char)
  | string (text val : List Char)
  deriving DecidableEq, Repr

/-- `to_string`: the text of a token. -/
def CfgTok.toString : CfgTok → List Char
  | .endOfStream => []
  | .operator c => [c]
  | .ident text => text
  | .string text _ => text

structure CfgParseLexer where
  cur : CfgTok
  pos : List Char
  deriving DecidableEq, Repr

namespace CfgParseLexer

def isWord (c : Char) : Bool := c.isAlphanum || c == '_'

/-- The text of a string up to the quote that ends it, which the source looks for without a bound. -/
def stringText : List Char → Except CfgError (List Char × List Char)
  | [] => .error .unterminatedString
  | '"' :: rest => .ok ([], rest)
  | '\\' :: _ => .error (.todo "Escape sequences in cfg parser".toList)
  | c :: rest => (stringText rest).map fun out => (c :: out.1, out.2)

def getNext : List Char → Except CfgError CfgParseLexer
  | [] => .ok ⟨.endOfStream, []⟩
  | c :: rest =>
    if c = ' ' then getNext rest
    else if c ∈ ['(', ')', ',', '='] then .ok ⟨.operator c, rest⟩
    else if c = '"' then
      match stringText rest with
      | .error e => .error e
      | .ok (val, rest) => .ok ⟨.string ('"' :: val ++ ['"']) val, rest⟩
    else if isWord c then .ok ⟨.ident (c :: rest.takeWhile isWord), rest.dropWhile isWord⟩
    else .error (.runtimeError ("Unexpected character in cfg() - ".toList ++ [c]))

/-- What is left to read. -/
def size (p : CfgParseLexer) : ℕ := p.pos.length + if p.cur = .endOfStream then 0 else 1

theorem stringText_length {s val rest : List Char} (h : stringText s = .ok (val, rest)) :
    rest.length < s.length := by
  induction s generalizing val with
  | nil => cases h
  | cons c s ih =>
    unfold stringText at h
    split at h
    case h_1 => rename_i heq; cases heq
    case h_2 => rename_i heq; cases heq; cases h; exact Nat.lt_succ_self _
    case h_3 => cases h
    case h_4 heq =>
      cases heq
      cases hs : stringText s with
      | error e => rw [hs] at h; cases h
      | ok out =>
        rw [hs] at h
        cases h
        exact (ih hs).trans (Nat.lt_succ_self _)

theorem getNext_size {s : List Char} {p : CfgParseLexer} (h : getNext s = .ok p) : p.size ≤ s.length := by
  induction s with
  | nil => cases h; exact le_rfl
  | cons c s ih =>
    unfold getNext at h
    split_ifs at h with hspace hop hquote hword
    · exact (ih h).trans (Nat.le_succ _)
    · cases h
      simp [size]
    · split at h
      · cases h
      · rename_i hs
        cases h
        have := stringText_length hs
        simp only [size, reduceCtorEq, if_false, List.length_cons]
        omega
    · cases h
      have := (List.dropWhile_suffix isWord (l := s)).length_le
      simp only [size, reduceCtorEq, if_false, List.length_cons]
      omega

/-- The parser behind the token in front of it. -/
def consume (p : CfgParseLexer) : Except CfgError {q : CfgParseLexer // p.cur ≠ .endOfStream → q.size < p.size} :=
  match h : getNext p.pos with
  | .error e => .error e
  | .ok q => .ok ⟨q, fun hcur => by
      have hle := getNext_size h
      have hp : p.size = p.pos.length + 1 := by rw [size, if_neg hcur]
      omega⟩

end CfgParseLexer

open CfgParseLexer

/-- The flags and values that hold for the target. -/
structure CfgChecker where
  flags : List (List Char)
  values : List (List Char × List Char)

namespace CfgChecker

variable (self : CfgChecker) (feature : List Char → Bool)

mutual

/-- `check_cfg`; `feature` tells the active features. -/
def checkCfg (p : CfgParseLexer) : Except CfgError (Bool × {q : CfgParseLexer // q.size < p.size}) := do
  let nameTok := p.cur
  let p₁ ← p.consume
  match h : nameTok with
  | .ident name =>
    have hp₁ : p₁.1.size < p.size := p₁.2 (by rw [show p.cur = .ident name from h]; exact CfgTok.noConfusion)
    if h₁ : p₁.1.cur = .operator '(' then
      let p₂ ← p₁.1.consume
      have hp₂ : p₂.1.size < p.size := (p₂.2 (by rw [h₁]; exact CfgTok.noConfusion)).trans hp₁
      let (rv, p₃) ←
        if name = ['n', 'o', 't'] then
          (checkCfg p₂.1).map fun out => (!out.1, (⟨out.2.1, out.2.2.le⟩ : {q : CfgParseLexer // q.size ≤ p₂.1.size}))
        else if name = ['a', 'l', 'l'] then
          if p₂.1.cur = .operator ')' then .ok (true, ⟨p₂.1, le_rfl⟩)
          else (checkList (· && ·) true p₂.1).map fun out => (out.1, ⟨out.2.1, out.2.2.le⟩)
        else if name = ['a', 'n', 'y'] then
          if p₂.1.cur = .operator ')' then .ok (false, ⟨p₂.1, le_rfl⟩)
          else (checkList (· || ·) false p₂.1).map fun out => (out.1, ⟨out.2.1, out.2.2.le⟩)
        else .error (.runtimeError ("Unknown operator in cfg `".toList ++ name ++ ['\x60']))
      if h₃ : p₃.1.cur = .operator ')' then
        let p₄ ← p₃.1.consume
        .ok (rv, ⟨p₄.1, (p₄.2 (by rw [h₃]; exact CfgTok.noConfusion)).trans (p₃.2.trans_lt hp₂)⟩)
      else .error (.runtimeError "Expected ')' after combinator content".toList)
    else if h₁ : p₁.1.cur = .operator '=' then
      let p₂ ← p₁.1.consume
      have hp₂ : p₂.1.size < p.size := (p₂.2 (by rw [h₁]; exact CfgTok.noConfusion)).trans hp₁
      let t := p₂.1.cur
      let p₃ ← p₂.1.consume
      match ht : t with
      | .string _ val =>
        have hp₃ : p₃.1.size < p.size :=
          (p₃.2 (by rw [show p₂.1.cur = _ from ht]; exact CfgTok.noConfusion)).trans hp₂
        if name = "feature".toList then .ok (feature val, ⟨p₃.1, hp₃⟩)
        else
          let its := self.values.filter fun v => v.1 = name
          if its ≠ [] then .ok (its.any fun v => v.2 = val, ⟨p₃.1, hp₃⟩)
          else .error (.runtimeError ("Unknown cfg value `".toList ++ name ++ "` (=\"".toList ++ val ++ "\")".toList))
      | _ => .error (.runtimeError "Expected a string after `=`".toList)
    else .ok (self.flags.contains name, ⟨p₁.1, hp₁⟩)
  | _ => .error (.runtimeError "Failed to parse cfg: Expected an identifier".toList)
termination_by (p.size, 0)

/-- The conditions in a combinator, joined by `join`. -/
def checkList (join : Bool → Bool → Bool) (rv : Bool) (p : CfgParseLexer) :
    Except CfgError (Bool × {q : CfgParseLexer // q.size < p.size}) := do
  let (b, p₁) ← checkCfg p
  if h : p₁.1.cur = .operator ',' then
    let p₂ ← p₁.1.consume
    have hp₂ : p₂.1.size < p.size := (p₂.2 (by rw [h]; exact CfgTok.noConfusion)).trans p₁.2
    let (rv, p₃) ← checkList join (join rv b) p₂.1
    .ok (rv, ⟨p₃.1, p₃.2.trans hp₂⟩)
  else .ok (join rv b, p₁)
termination_by (p.size, 1)

end

/-- The condition behind `cfg(`. -/
def check (text : List Char) (features : List (List Char)) : Except CfgError Bool := do
  let p ← getNext (text.drop 4)
  let (success, p) ← self.checkCfg (fun val => features.any fun v => v = val) p
  if p.1.cur = .operator ')' then
    let _ ← p.1.consume
    .ok success
  else .error (.runtimeError ("Expected ')' after cfg condition - got".toList ++ p.1.cur.toString))

variable {self}

/-- Only which features are active matters. -/
theorem check_congr {text : List Char} {features features' : List (List Char)}
    (h : ∀ f, f ∈ features ↔ f ∈ features') : self.check text features = self.check text features' := by
  have heq : (fun val => features.any fun v => v = val) = fun val => features'.any fun v => v = val := by
    funext val
    rw [Bool.eq_iff_iff]
    simp [h]
  rw [check, check, heq]

end CfgChecker

end Mrustc.Minicargo

