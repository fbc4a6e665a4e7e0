import Mrustc.Codec.Decimal
import Mrustc.Hir.Path

/-! # The symbol mangler

`Mangler` of the translation phase. Its output stream and its cache of emitted names are the
text and the state of an emitter; a `BUG`, a failed assertion or a `TODO` is an abort. The
number of base-26 digits of a cache index comes from a quotient of floating-point logarithms
in the source, so it is a parameter here: nothing below depends on how it is rounded.
-/

namespace Mrustc.Mangling
open Hir Codec Emitter

/-- Writes text, and keeps the names emitted so far in `m_name_cache`. -/
abbrev Mangler := Emitter (List RcString) Char

/-- Lower case until the final digit, least significant digit first. -/
def fmtBase26Int (val : ℕ) : List Char :=
  if 26 ≤ val then Char.ofNat ('a'.toNat + val % 26) :: fmtBase26Int (val / 26)
  else [Char.ofNat ('A'.toNat + val)]

/-- The characters that `fmt_name` lets through. -/
def isNameChar (c : Char) : Bool := c.isAlphanum || c == '_' || c == '#' || c == '-'

/-- The last `#` or `-`, scanning from position `p`. -/
def hashPos : List Char → (p : ℕ) → Option ℕ → Option ℕ
  | [], _, found => found
  | c :: cs, p, found => hashPos cs (p + 1) (if c = '#' ∨ c = '-' then some p else found)

/-- `isdigit(c) || c == '_'`, of the first character of a null-terminated string. -/
def needsLeadingEscape (s : List Char) : Bool :=
  (s.headD '\x00').isDigit || s.headD '\x00' == '_'

/-- `fmt_name` of a C string: an item name, with its hash encoded away. -/
def fmtRawName (s : RcString) : Option (List Char) :=
  if s.all isNameChar then
    match hashPos s 0 none with
    | some pos =>
      if pos = 0 ∧ needsLeadingEscape (s.drop 1) then
        -- A leading underscore behind the hash is asserted away
        if s.getD 1 '\x00' = '_' then none
        else some (fmtBase26Int (s.length - 1) ++ '_' :: s.drop 1)
      else
        let escape := needsLeadingEscape s
        some (fmtBase26Int pos ++ Nat.toDigits 10 (s.length - 1 + if escape then 1 else 0)
          ++ (if escape then ['_'] else [])
          ++ (s.take pos).map (fun c => if c = '-' ∨ c = '#' then '_' else c)
          ++ s.drop (pos + 1))
    | none =>
      let escape := needsLeadingEscape s
      some (Nat.toDigits 10 (s.length + if escape then 1 else 0)
        ++ (if escape then ['_'] else []) ++ s)
  else none

section Fmt

variable (log26 : ℕ → ℕ)

/-- `fmt_name` of a cached name: a back-reference if that is shorter than the name. -/
def fmtName (s : RcString) : Mangler := fun cache =>
  match cache.idxOf? s with
  | some idx =>
    if 1 + log26 (idx + 1) < s.length then some ('_' :: fmtBase26Int idx, cache)
    else (fmtRawName s).map fun text => (text, cache)
  | none => (fmtRawName s).map fun text => (text, cache ++ [s])

def fmtNames : List RcString → Mangler
  | [] => write []
  | s :: ss => (fmtName log26 s).seq (fmtNames ss)

def fmtSimplePath (sp : SimplePath) : Mangler :=
  (number sp.components.length).seq <| (write ['c']).seq <|
    (fmtName log26 sp.crateName).seq (fmtNames log26 sp.components)

def hexByte (b : UInt8) : List Char := [Nat.digitChar (b.toNat / 16), Nat.digitChar (b.toNat % 16)]

/-- An evaluated constant without relocations; anything else is not implemented. -/
def fmtValue : ConstGeneric → Mangler
  | .evaluated bytes [] =>
    (write ['V']).seq <| (number bytes.length).seq <| (write ['_']).seq <|
      write (bytes.flatMap hexByte)
  | _ => abort

def fmtValues : List ConstGeneric → Mangler
  | [] => write []
  | v :: vs => (fmtValue v).seq (fmtValues vs)

/-- `<ntys> (| 'v' <nvals>) 'g'`, in front of the parameters. -/
def fmtParamCounts (ntys nvals : ℕ) : Mangler :=
  (number ntys).seq <|
    if 0 < nvals then (write ['v']).seq <| (number nvals).seq (write ['g']) else write ['g']

def fmtBorrowType : BorrowType → List Char
  | .shared => ['s']
  | .unique => ['u']
  | .owned => ['o']

def fmtCoreType : CoreType → Char
  | .u8 => 'a' | .i8 => 'b' | .u16 => 'c' | .i16 => 'd' | .u32 => 'e' | .i32 => 'f'
  | .u64 => 'g' | .i64 => 'h' | .u128 => 'i' | .i128 => 'j'
  | .f32 => 'n' | .f64 => 'o'
  | .usize => 'u' | .isize => 'v' | .bool => 'w' | .char => 'x' | .str => 'y'

/-- The ABI name of a function pointer, unless it is the Rust ABI. It is not cached. -/
def fmtAbi (abi : RcString) : Mangler :=
  if abi = ['R', 'u', 's', 't'] then write []
  else (write ['e']).seq fun cache => (fmtRawName abi).map fun text => (text, cache)

def fmtFnHeader (isUnsafe : Bool) (abi : RcString) : Mangler :=
  (write (if isUnsafe then ['u'] else [])).seq (fmtAbi abi)

mutual

def fmtType : TypeRef → Mangler
  | .infer _ => abort
  | .generic _ => abort
  | .erasedType => abort
  | .closure => abort
  | .generator => abort
  | .tuple e => (write ['T']).seq <| (number e.length).seq (fmtTypes e)
  | .slice inner => (write ['S']).seq (fmtType inner)
  | .array inner (.known size) =>
    (write ['A']).seq <| (number size.toNat).seq (fmtType inner)
  | .array _ (.unevaluated _) => abort
  | .path (.generic path) => (write ['G']).seq (fmtGenericPath path)
  | .path _ => abort
  | .traitObject trait typeBounds markers =>
    (write ['D']).seq <| (fmtGenericPath trait).seq <|
      (number typeBounds.length).seq <| (fmtAtyTypes typeBounds).seq <|
        (number markers.length).seq (fmtGenericPaths markers)
  | .namedFunction path => (write ['f']).seq (fmtPath path)
  | .function isUnsafe _ abi args ret =>
    (write ['F']).seq <| (fmtFnHeader isUnsafe abi).seq <|
      (number args.length).seq <| (fmtTypes args).seq (fmtType ret)
  | .borrow type inner => (write ('B' :: fmtBorrowType type)).seq (fmtType inner)
  | .pointer type inner => (write ('P' :: fmtBorrowType type)).seq (fmtType inner)
  | .primitive ct => write ['C', fmtCoreType ct]
  | .diverge => write ['C', 'z']

def fmtTypes : List TypeRef → Mangler
  | [] => write []
  | t :: ts => (fmtType t).seq (fmtTypes ts)

def fmtAtyType : AtyEqual → Mangler
  | .mk _ _ type => fmtType type

def fmtAtyTypes : List AtyEqual → Mangler
  | [] => write []
  | b :: bs => (fmtAtyType b).seq (fmtAtyTypes bs)

def fmtPathParams : PathParams → Mangler
  | .mk types values =>
    (fmtParamCounts types.length values.length).seq <| (fmtTypes types).seq (fmtValues values)

def fmtGenericPath : GenericPath → Mangler
  | .mk path params => (fmtSimplePath log26 path).seq (fmtPathParams params)

def fmtGenericPaths : List GenericPath → Mangler
  | [] => write []
  | g :: gs => (fmtGenericPath g).seq (fmtGenericPaths gs)

def fmtPath : Path → Mangler
  | .generic path => (write ['G']).seq (fmtGenericPath path)
  | .ufcsInherent type item params =>
    (write ['I']).seq <| (fmtType type).seq <| (fmtName log26 item).seq (fmtPathParams params)
  | .ufcsKnown type trait item params =>
    (write ['Q']).seq <| (fmtType type).seq <| (fmtGenericPath trait).seq <|
      (fmtName log26 item).seq (fmtPathParams params)
  | .ufcsUnknown _ _ _ => abort

end

/-- The text of a whole symbol, from an empty name cache. -/
def symbol (tag : List Char) (m : Mangler) : Option (List Char) :=
  (m []).map fun out => tag ++ out.1

def transManglePath (p : Path) : Option (List Char) := symbol ['Z', 'R'] (fmtPath log26 p)

def transMangleTypeRef (ty : TypeRef) : Option (List Char) :=
  symbol ['Z', 'R', 'T'] (fmtType log26 ty)

end Fmt

end Mrustc.Mangling
