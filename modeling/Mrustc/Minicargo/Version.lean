import Mathlib.Tactic

/-! # Package versions and version requirements

A missing part of a version is stored as zero, and only the patch number has a
flag for it. A requirement is read into bounds, which a version has to meet one by one.
-/

namespace Mrustc.Minicargo

/-- Successor of a C++ `unsigned`. -/
def unsignedSucc (n : ℕ) : ℕ := (n + 1) % 2 ^ 32

/-- The parts are C++ `unsigned`s. -/
structure PackageVersion where
  major : ℕ
  minor : ℕ
  patch : ℕ
  patchSet : Bool
  deriving DecidableEq, Repr

namespace PackageVersion

def ofMajor (major : ℕ) : PackageVersion := ⟨major, 0, 0, false⟩

def ofMinor (major minor : ℕ) : PackageVersion := ⟨major, minor, 0, false⟩

def ofPatch (major minor patch : ℕ) : PackageVersion := ⟨major, minor, patch, true⟩

def nextMinor (v : PackageVersion) : PackageVersion := ofMinor v.major (unsignedSucc v.minor)

def nextBreaking (v : PackageVersion) : PackageVersion :=
  if v.major = 0 then ofMinor 0 (unsignedSucc v.minor) else ofMinor (unsignedSucc v.major) 0

def prevCompat (v : PackageVersion) : PackageVersion := if v.major = 0 then v else ofPatch v.major v.minor 0

def cmp (v x : PackageVersion) : Int :=
  if v.major ≠ x.major then if v.major < x.major then -1 else 1
  else if v.minor ≠ x.minor then if v.minor < x.minor then -1 else 1
  else if v.patchSet ∧ x.patchSet ∧ v.patch ≠ x.patch then if v.patch < x.patch then -1 else 1
  else 0

end PackageVersion

inductive BoundType
  | compatible | minorCompatible | greater | greaterEqual | equal | lessEqual | less
  deriving DecidableEq, Repr

structure Bound where
  ty : BoundType
  ver : PackageVersion
  deriving DecidableEq, Repr

def Bound.accepts (b : Bound) (v : PackageVersion) : Bool :=
  match b.ty with
  | .compatible => decide (0 ≤ v.cmp b.ver.prevCompat) && decide (v.cmp b.ver.nextBreaking < 0)
  | .minorCompatible => decide (0 ≤ v.cmp b.ver.prevCompat) && decide (v.cmp b.ver.nextMinor < 0)
  | .greaterEqual => decide (0 ≤ v.cmp b.ver)
  | .greater => decide (0 < v.cmp b.ver)
  | .equal => decide (v.cmp b.ver = 0)
  | .lessEqual => decide (v.cmp b.ver ≤ 0)
  | .less => decide (v.cmp b.ver < 0)

namespace PackageVersionSpec

def accepts (bounds : List Bound) (v : PackageVersion) : Bool := bounds.all fun b => b.accepts v

inductive Error
  | invalidArgument
  | runtimeError
  | unfinished
  deriving DecidableEq, Repr

def isblank (c : Char) : Bool := c = ' ' || c = '\t'

def isspace (c : Char) : Bool := isblank c || c = '\n' || c = '\x0b' || c = '\x0c' || c = '\r'

def skipBlanks (s : List Char) : List Char := s.dropWhile isblank

/-- The value of decimal digits. -/
def digitsValue (ds : List Char) : ℕ := ds.foldl (fun n d => 10 * n + (d.toNat - '0'.toNat)) 0

/-- A `long`, saturated by `strtol`, as an `unsigned`. -/
def unsignedOfLong (n : Int) : ℕ := ((max (-2 ^ 63) (min n (2 ^ 63 - 1))) % 2 ^ 32).toNat

/-- `strtol` on what is left of the text: white space, a sign and digits. -/
def parseI (s : List Char) : Except Error (ℕ × List Char) :=
  let s := s.dropWhile isspace
  let negative := s.head? = some '-'
  let s := if s.head? = some '-' ∨ s.head? = some '+' then s.tail else s
  let digits := s.takeWhile Char.isDigit
  if digits = [] then .error .invalidArgument
  else
    let value : Int := if negative then -digitsValue digits else digitsValue digits
    .ok (unsignedOfLong value, s.dropWhile Char.isDigit)

/-- The operator in front of a version, the default one where there is none. -/
def readOp : List Char → BoundType × List Char
  | [] => (.compatible, [])
  | c :: s =>
    if c = '^' then (.compatible, s)
    else if c = '~' then (.minorCompatible, s)
    else if c = '=' then (.equal, s)
    else if c = '>' then if s.head? = some '=' then (.greaterEqual, s.tail) else (.greater, s)
    else if c = '<' then if s.head? = some '=' then (.lessEqual, s.tail) else (.less, s)
    else (.compatible, c :: s)

/-- A pre-release tag goes up to a blank or a comma. -/
def skipTag (s : List Char) : List Char :=
  if s.head? = some '-' then s.tail.dropWhile fun c => !isblank c && c != ',' else s

/-- The version behind an operator. -/
def readVersion (ty : BoundType) (s : List Char) : Except Error (List Bound × List Char) := do
  let (major, s) ← parseI s
  if s.head? = some '.' then
    if s.tail.head? = some '*' then
      return ([⟨.greaterEqual, .ofMajor major⟩, ⟨.less, .ofMajor (unsignedSucc major)⟩], s.tail.tail)
    let (minor, s) ← parseI s.tail
    if s.head? = some '.' then
      let (patch, s) ← parseI s.tail
      return ([⟨ty, .ofPatch major minor patch⟩], skipTag s)
    return ([⟨ty, .ofMinor major minor⟩], s)
  let ty := if ty = .minorCompatible then .compatible else ty
  return ([⟨ty, .ofMajor major⟩], s)

/-- One comparator. The position stays on a `*`. -/
def readBound (s : List Char) : Except Error (List Bound × List Char) :=
  if s.head? = some '*' then .ok ([⟨.greaterEqual, .ofMajor 0⟩], s)
  else
    let op := readOp s
    let s := skipBlanks op.2
    if s = [] then .error .runtimeError else readVersion op.1 s

/-- The rounds of the loop, at most `fuel`, with the bounds read so far. -/
def readBounds (bounds : List Bound) : ℕ → List Char → Except Error (List Bound)
  | 0, _ => .error .unfinished
  | fuel + 1, s =>
    let s := skipBlanks s
    if s = [] then .ok bounds
    else
      match readBound s with
      | .error e => .error e
      | .ok (read, s) =>
        let s := skipBlanks s
        if s.head? = some ',' then readBounds (bounds ++ read) fuel s.tail
        -- the comparison with a comma has taken one character whatever it is
        else if s.tail = [] then .ok (bounds ++ read)
        else .error .runtimeError

def fromString (s : List Char) : Except Error (List Bound) := readBounds [] (s.length + 1) s

end PackageVersionSpec

/-! ## The cache of vendored packages -/

structure Entry where
  version : PackageVersion
  blacklisted : Bool
  deriving DecidableEq, Repr

/-- The entry that `Repository::find` picks among those of one name. -/
def findBest (bounds : List Bound) (entries : List Entry) : Option Entry :=
  entries.foldl (fun best entry =>
    if PackageVersionSpec.accepts bounds entry.version ∧ ¬entry.blacklisted ∧
        (best.all fun best => decide (0 < entry.version.cmp best.version)) then some entry
    else best) none

end Mrustc.Minicargo
