import Mrustc.MatchRules.SortRulesets

/-! # The values that rules match

A matched value as a tree, the place of it that a field path leads to, and what a rule asks of the value there. Rules
with a named constant are left to the constant's value, and an `f32` is compared after its rounding.
-/

namespace Mrustc.MatchRules
open Hir

/-- The value of a match. -/
inductive Val
  | bool (b : Bool)
  | scalar (s : Scalar)
  | str (s : List UInt8)
  /-- An array or a slice. -/
  | seq (elems : List Val)
  /-- A tuple or a struct. -/
  | record (fields : List Val)
  | variant (idx : ℕ) (fields : List Val)
  /-- A borrow or a box. -/
  | ref (target : Val)
  /-- What no rule looks into, such as a pointer. -/
  | other

def FIELD_DEREF : UInt8 := 255

def FIELD_INDEX_MAX : ℕ := 128

/-- An element of a slice, counted from the end from `FIELD_INDEX_MAX` on. -/
def elementAt (elems : List Val) (c : UInt8) : Option Val :=
  if c.toNat < FIELD_INDEX_MAX then elems[c.toNat]?
  else
    let back := FIELD_INDEX_MAX - (c.toNat - FIELD_INDEX_MAX)
    if back ≤ elems.length then elems[elems.length - back]? else none

/-- The value at a field path; a step to a variant has the variant's number, cut to a byte. -/
def Val.at : FieldPath → Val → Option Val
  | [], v => some v
  | c :: path, .ref target => if c = FIELD_DEREF then Val.at path target else none
  | c :: path, .seq elems => (elementAt elems c).bind (Val.at path)
  | c :: path, .record fields => fields[c.toNat]?.bind (Val.at path)
  | c :: path, .variant idx fields => if c.toNat = idx % 256 then Val.at path (.record fields) else none
  | _ :: _, .bool _ | _ :: _, .scalar _ | _ :: _, .str _ | _ :: _, .other => none

namespace Val

def isVariant (idx : ℕ) : Val → Bool
  | .variant idx' _ => idx = idx'
  | _ => false

/-- A sequence of a length that is asked for. -/
def isSeq (ok : ℕ → Bool) : Val → Bool
  | .seq elems => ok elems.length
  | _ => false

def isBool (b : Bool) : Val → Bool
  | .bool b' => b = b'
  | _ => false

def isByte (c : UInt8) : Val → Bool
  | .scalar v => v = .uint c.toNat .u8
  | _ => false

end Val

section Matching

variable {P : Type} (named : P → Val → Bool) (toFloat : Double → Double)

/-- The number that a `double` stands for in a type. -/
def narrow (t : CoreType) (d : Double) : Double := if t = .f32 then toFloat d else d

/-- The constant is not above the value, which is of its type. -/
def Scalar.atLeast : Scalar → Scalar → Bool
  | .int c t', .int v t => t = t' && c ≤ v
  | .uint c t', .uint v t => t = t' && c ≤ v
  | .float c t', .float v t => t = t' && (v.gt (narrow toFloat t c) || (narrow toFloat t c).eq v)
  | _, _ => false

/-- The constant is not below the value, and is above it if the range is exclusive. -/
def Scalar.atMost (isInclusive : Bool) : Scalar → Scalar → Bool
  | .int c t', .int v t => t = t' && (if isInclusive then v ≤ c else v < c)
  | .uint c t', .uint v t => t = t' && (if isInclusive then v ≤ c else v < c)
  | .float c t', .float v t =>
    t = t' && ((narrow toFloat t c).gt v || isInclusive && (narrow toFloat t c).eq v)
  | _, _ => false

/-- A value that is a constant. -/
def Constant.matches : Constant P → Val → Bool
  | .scalar c, .scalar v => c.atLeast toFloat v && c.atMost toFloat true v
  | .bytes s, .seq elems => elems.length = s.length && (List.zip s elems).all fun e => e.2.isByte e.1
  | .staticString s, .str s' => s = s'
  | .const p, v => named p v
  | _, _ => false

/-- A value between two constants, the first and the last of a range. -/
def rangeMatches (isInclusive : Bool) : Constant P → Constant P → Val → Bool
  | .scalar first, .scalar last, .scalar v => first.atLeast toFloat v && last.atMost toFloat isInclusive v
  | _, _, _ => false

mutual

/-- The rule holds of the matched value, the rules inside it at their own places. -/
def PatternRule.matches (root : Val) : PatternRule P → Bool
  | .variant p idx subRules => (root.at p).any (Val.isVariant idx) && PatternRule.allMatch root subRules
  | .slice p len subRules => (root.at p).any (Val.isSeq (· = len)) && PatternRule.allMatch root subRules
  | .splitSlice p minLen _ leading trailing => (root.at p).any (Val.isSeq (minLen ≤ ·)) &&
    PatternRule.allMatch root leading && PatternRule.allMatch root trailing
  | .bool p b => (root.at p).any (Val.isBool b)
  | .value p c => (root.at p).any (c.matches named toFloat)
  | .valueRange p first last isInclusive => (root.at p).any (rangeMatches toFloat isInclusive first last)
  | .any _ => true

def PatternRule.allMatch (root : Val) : List (PatternRule P) → Bool
  | [] => true
  | a :: rest => a.matches root && PatternRule.allMatch root rest

end

/-- All rules of a rule set hold. -/
def PatternRuleset.matches {B : Type} (v : Val) (r : PatternRuleset P B) : Bool :=
  PatternRule.allMatch named toFloat v r.rules

/-- Both rule sets match some value. -/
def PatternRuleset.Overlap {B : Type} (x y : PatternRuleset P B) : Prop :=
  ∃ v, x.matches named toFloat v ∧ y.matches named toFloat v

end Matching

end Mrustc.MatchRules
