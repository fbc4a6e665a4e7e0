import Mrustc.Hir.Path

/-! # Pattern rules

A match arm as a list of rules, each for one place of the matched value. The orders and the overlap test that sort the
arms are the ones of the source; where it stops on an assertion or a `TODO`, they are a fault.
-/

namespace Mrustc.MatchRules
open Hir

/-- A `double` by its pattern. -/
structure Double where
  bits : BitVec 64
  deriving DecidableEq

namespace Double

def magnitude (d : Double) : ℕ := d.bits.toNat % 2 ^ 63

def isNaN (d : Double) : Bool := 0x7FF0000000000000 < d.magnitude

/-- The place in the order of the numbers; both zeros have the same. -/
def key (d : Double) : ℤ := if d.bits.msb then -d.magnitude else d.magnitude

/-- `l == r`. -/
def eq (l r : Double) : Bool := !l.isNaN && !r.isNaN && l.key = r.key

/-- `l > r`. -/
def gt (l r : Double) : Bool := !l.isNaN && !r.isNaN && r.key < l.key

end Double

/-- A number of a type. -/
inductive Scalar
  | int (v : ℤ) (t : CoreType)
  | uint (v : ℕ) (t : CoreType)
  | float (v : Double) (t : CoreType)
  deriving DecidableEq

/-- The constants of patterns. -/
inductive Constant (P : Type)
  | scalar (s : Scalar)
  | bytes (b : List UInt8)
  | staticString (s : List UInt8)
  | const (p : P)
  deriving DecidableEq

abbrev FieldPath := List UInt8

/-- A test of the value at a place. -/
inductive PatternRule (P : Type)
  | variant (fieldPath : FieldPath) (idx : ℕ) (subRules : List (PatternRule P))
  | slice (fieldPath : FieldPath) (len : ℕ) (subRules : List (PatternRule P))
  | splitSlice (fieldPath : FieldPath) (minLen trailingLen : ℕ) (leading trailing : List (PatternRule P))
  | bool (fieldPath : FieldPath) (b : Bool)
  | value (fieldPath : FieldPath) (c : Constant P)
  | valueRange (fieldPath : FieldPath) (first last : Constant P) (isInclusive : Bool)
  | any (fieldPath : FieldPath)

/-- Why the compiler stops. -/
inductive Fault
  /-- `idx < rulesets[i].size()`. -/
  | assertColumn
  /-- `is_inclusive`, of a range compared with a range. -/
  | assertInclusive
  /-- `te.sub_rules.size() == xe.sub_rules.size()`. -/
  | assertSubRules
  /-- The `TODO` of `rules_overlap`. -/
  | todoOverlap
  /-- `throw "TODO"` of a rule that is no variant. -/
  | notVariant
  deriving DecidableEq

section Ord

/-- `ORD`: the first comparison that is not equal decides. -/
def ORD (o : Ordering) (rest : Except Fault Ordering) : Except Fault Ordering :=
  if o = .eq then rest else .ok o

/-- `ord` of vectors. -/
def ordVec {α : Type} (ord : α → α → Ordering) : List α → List α → Ordering
  | [], [] => .eq
  | [], _ :: _ => .lt
  | _ :: _, [] => .gt
  | l :: ls, r :: rs => (ord l r).then (ordVec ord ls rs)

/-- `ord` of `double`s that are not the same. -/
def Double.ord (l r : Double) : Ordering := if l.eq r then .eq else if l.gt r then .gt else .lt

def Scalar.tag : Scalar → ℕ
  | .int _ _ => 0
  | .uint _ _ => 1
  | .float _ _ => 2

def Scalar.ord : Scalar → Scalar → Ordering
  | .int v t, .int v' t' => (compare v v').then (compare t.ctorIdx t'.ctorIdx)
  | .uint v t, .uint v' t' => (compare v v').then (compare t.ctorIdx t'.ctorIdx)
  | .float v t, .float v' t' => (v.ord v').then (compare t.ctorIdx t'.ctorIdx)
  | l, r => compare l.tag r.tag

variable {P : Type} (ordPath : P → P → Ordering)

def Constant.tag : Constant P → ℕ
  | .scalar s => s.tag
  | .bytes _ => 4
  | .staticString _ => 5
  | .const _ => 6

def Constant.ord : Constant P → Constant P → Ordering
  | .scalar l, .scalar r => l.ord r
  | .bytes l, .bytes r => ordVec compare l r
  | .staticString l, .staticString r => ordVec compare l r
  | .const l, .const r => ordPath l r
  | l, r => compare l.tag r.tag

/-- `l <= r` and `l < r` of constants. -/
def Constant.le (l r : Constant P) : Bool := l.ord ordPath r ≠ .gt

def Constant.lt (l r : Constant P) : Bool := l.ord ordPath r = .lt

def PatternRule.tag : PatternRule P → ℕ
  | .variant _ _ _ => 1
  | .slice _ _ _ => 2
  | .splitSlice _ _ _ _ _ => 3
  | .bool _ _ => 4
  | .value _ _ => 5
  | .valueRange _ _ _ _ => 6
  | .any _ => 7

def PatternRule.fieldPath : PatternRule P → FieldPath
  | .variant p _ _ | .slice p _ _ | .splitSlice p _ _ _ _ | .bool p _ | .value p _ | .valueRange p _ _ _ | .any p => p

def PatternRule.isAny : PatternRule P → Bool
  | .any _ => true
  | _ => false

mutual

/-- `PatternRule::ord`. -/
def PatternRule.ord : PatternRule P → PatternRule P → Except Fault Ordering
  | .variant p idx subRules, .variant p' idx' subRules' =>
    ORD (ordVec compare p p') (ORD (compare idx idx')
      (if subRules.length = subRules'.length then ordAll subRules subRules' else .error .assertSubRules))
  | .slice p len subRules, .slice p' len' subRules' =>
    ORD (ordVec compare p p') (ORD (compare len len')
      (if subRules.length = subRules'.length then ordAll subRules subRules' else .error .assertSubRules))
  | .splitSlice p minLen _ leading trailing, .splitSlice p' minLen' _ leading' trailing' =>
    ORD (ordVec compare p p') (do
      let o ← ordAll leading leading'
      ORD o (ORD (compare minLen minLen') (ordAll trailing trailing')))
  | .bool p b, .bool p' b' => .ok ((ordVec compare p p').then (compare b b'))
  | .value p c, .value p' c' => .ok ((ordVec compare p p').then (c.ord ordPath c'))
  | .valueRange p first last isInclusive, .valueRange p' first' last' isInclusive' =>
    .ok ((ordVec compare p p').then ((first.ord ordPath first').then ((last.ord ordPath last').then
      (compare isInclusive isInclusive'))))
  | .any p, .any p' => .ok (ordVec compare p p')
  | l, r => .ok (compare l.tag r.tag)

/-- Rule by rule, and then by the lengths. -/
def PatternRule.ordAll : List (PatternRule P) → List (PatternRule P) → Except Fault Ordering
  | [], [] => .ok .eq
  | [], _ :: _ => .ok .lt
  | _ :: _, [] => .ok .gt
  | l :: ls, r :: rs => do
    let o ← l.ord r
    ORD o (ordAll ls rs)

end

/-- `ord_rule_compatible`: the order of the rules without the rules inside, except those of a split slice. -/
def ordRuleCompatible : PatternRule P → PatternRule P → Except Fault Ordering
  | .variant _ idx _, .variant _ idx' _ => .ok (compare idx idx')
  | .slice _ len _, .slice _ len' _ => .ok (compare len len')
  | .splitSlice _ _ _ leading trailing, .splitSlice _ _ _ leading' trailing' => do
    let o ← PatternRule.ordAll ordPath leading leading'
    ORD o (PatternRule.ordAll ordPath trailing trailing')
  | .bool _ b, .bool _ b' => .ok (compare b b')
  | .value _ c, .value _ c' => .ok (c.ord ordPath c')
  | .valueRange _ first last isInclusive, .valueRange _ first' last' isInclusive' =>
    .ok ((first.ord ordPath first').then ((last.ord ordPath last').then (compare isInclusive isInclusive')))
  | .any _, .any _ => .ok .eq
  | l, r => .ok (compare l.tag r.tag)

end Ord

section Overlap

variable {P : Type} (ordPath : P → P → Ordering)

/-- The value is not beyond the end of the range. -/
def isWithinRight (c last : Constant P) (isInclusive : Bool) : Bool :=
  if isInclusive then c.le ordPath last else c.lt ordPath last

def isConst : PatternRule P → Bool
  | .value _ (.const _) => true
  | _ => false

/-- `rules_overlap`. -/
def rulesOverlap (a b : PatternRule P) : Except Fault Bool :=
  if a.isAny || b.isAny || isConst a || isConst b then .ok true
  else match a, b with
    | .valueRange _ first last isInclusive, .value _ c =>
      .ok (first.le ordPath c && isWithinRight ordPath c last isInclusive)
    | .valueRange _ first last isInclusive, .valueRange _ first' last' isInclusive' =>
      if !isInclusive || !isInclusive' then .error .assertInclusive
      else .ok (
        (first.le ordPath first' && isWithinRight ordPath first' last isInclusive) ||
        (isWithinRight ordPath first last' isInclusive' && last'.le ordPath last) ||
        (first'.le ordPath first && isWithinRight ordPath first last' isInclusive') ||
        (isWithinRight ordPath first' last isInclusive && last.le ordPath last'))
    | .valueRange _ _ _ _, _ => .error .todoOverlap
    | .value _ c, .valueRange _ first last isInclusive =>
      .ok (if isInclusive then first.le ordPath c && c.le ordPath last else first.le ordPath c && c.lt ordPath last)
    | _, .valueRange _ _ _ _ => .error .todoOverlap
    | .splitSlice _ _ _ _ _, .splitSlice _ _ _ _ _ => .ok true
    | .splitSlice _ minLen _ _ _, .slice _ len _ => .ok (minLen ≤ len)
    | .splitSlice _ _ _ _ _, _ => .error .todoOverlap
    | .slice _ len _, .splitSlice _ minLen _ _ _ => .ok (minLen ≤ len)
    | _, .splitSlice _ _ _ _ _ => .error .todoOverlap
    | a, b => do
      let o ← ordRuleCompatible ordPath a b
      return o = .eq

end Overlap

end Mrustc.MatchRules
