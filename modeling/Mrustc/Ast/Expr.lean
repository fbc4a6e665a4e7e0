import Mrustc.Parse.Token

/-! # The syntax tree of types, paths and expressions

Hygiene, spans and attributes are left out, and the statements, closures and blocks that an
expression may contain are opaque.
-/

namespace Mrustc.Ast
open Parse

abbrev Name := List UInt8

/-- `ExprNode_Assign::Operation`, with `none` for a plain assignment. -/
inductive AssignOp
  | none | add | sub | mul | div | mod | and | or | xor | shr | shl
  deriving DecidableEq, Repr

/-- `ExprNode_BinOp::Type`. The ranges have nodes of their own, since their ends may be missing. -/
inductive BinOp
  | cmpEqu | cmpNequ | cmpLt | cmpLte | cmpGt | cmpGte | boolAnd | boolOr | bitAnd | bitOr | bitXor
  | shl | shr | multiply | divide | modulo | add | sub | placeIn
  deriving DecidableEq, Repr

/-- `ExprNode_UniOp::Type`, and the dereference. -/
inductive UniOp
  | ref | refMut | rawBorrow | rawBorrowMut | box | invert | negate | qmark | await | deref
  deriving DecidableEq, Repr

mutual

inductive Ty
  | any
  | bang
  | path (path : Path)
  | reference (lifetime : Option Name) (isMut : Bool) (inner : Ty)
  | pointer (isMut : Bool) (inner : Ty)
  | sizedArray (inner : Ty) (size : Option Expr)
  | unsizedArray (inner : Ty)
  | tuple (types : List Ty)
  | function (hrbs : List Name) (isUnsafe : Bool) (abi : Name) (args : List Ty) (isVariadic : Bool)
      (ret : Ty)
  | traitObject (traits : List TraitPath) (lifetimes : List (Option Name))
  | erased (traits maybeTraits : List TraitPath) (lifetimes : List Name)
  | other (id : ℕ)

/-- A path, with its higher-ranked lifetimes. -/
inductive TraitPath
  | mk (hrbs : List Name) (path : Path)

inductive Path
  | localVar (name : Name)
  | relative (nodes : List PathNode)
  | self (nodes : List PathNode)
  | super (count : ℕ) (nodes : List PathNode)
  | absolute (crate : Name) (nodes : List PathNode)
  | ufcs (type : Ty) (trait : Option Path) (nodes : List PathNode)

inductive PathNode
  | mk (name : Name) (params : PathParams)

/-- `Fn(A, B) -> C` is kept as it is written, not as `Fn<(A, B), Output = C>`. -/
inductive PathParams
  | angle (entries : List PathParamEnt)
  | paren (args : List Ty) (ret : Ty)

inductive PathParamEnt
  | lifetime (name : Name)
  | type (type : Ty)
  | value (expr : Expr)
  | assocEqual (name : Name) (type : Ty)
  | assocBound (name : Name) (path : Path)

inductive Expr
  | assign (op : AssignOp) (slot value : Expr)
  | binOp (op : BinOp) (left right : Expr)
  | range (left right : Option Expr)
  | rangeInc (left : Option Expr) (right : Expr)
  | uniOp (op : UniOp) (value : Expr)
  | cast (value : Expr) (type : Ty)
  | typeAnnotated (value : Expr) (type : Ty)
  | callPath (path : Path) (args : List Expr)
  | callObject (value : Expr) (args : List Expr)
  | callMethod (value : Expr) (method : PathNode) (args : List Expr)
  | index (value index : Expr)
  | field (value : Expr) (name : Name)
  | namedValue (path : Path)
  | integer (value : BitVec 128) (datatype : CoreType)
  | float (text : List UInt8) (datatype : CoreType)
  | string (value : List UInt8) (hygiene : Hygiene)
  | byteString (value : List UInt8)
  | bool (value : Bool)
  | tuple (values : List Expr)
  | array (values : List Expr)
  | arraySized (value size : Expr)
  | wildcardPattern
  | other (id : ℕ)

end

/-- The node has no generic arguments. -/
abbrev PathParams.empty : PathParams := .angle []

end Mrustc.Ast
