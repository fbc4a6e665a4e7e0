import Mrustc.Parse.ExprParser

/-! # The token sequences of types, paths and expressions

How a tree is written in Rust, with at least the parentheses that the precedences of its operators
ask for. A spelling relates the tokens from its start on to those behind it, since a `>` may be
the first half of a token. Its flag `ok` says that the right end of every exclusive range in it
starts with a token that `parseIsTokValue` knows.
-/

namespace Mrustc.Ast
open Parse

/-- The token of an operator. -/
def AssignOp.token : AssignOp → TokenType
  | .none => .equal | .add => .plusEqual | .sub => .dashEqual | .mul => .starEqual
  | .div => .slashEqual | .mod => .percentEqual | .and => .ampEqual | .or => .pipeEqual
  | .xor => .caretEqual | .shr => .doubleGtEqual | .shl => .doubleLtEqual

def BinOp.token : BinOp → TokenType
  | .cmpEqu => .doubleEqual | .cmpNequ => .exclamEqual | .cmpLt => .lt | .cmpLte => .lte
  | .cmpGt => .gt | .cmpGte => .gte | .boolAnd => .doubleAmp | .boolOr => .doublePipe
  | .bitAnd => .amp | .bitOr => .pipe | .bitXor => .caret | .shl => .doubleLt | .shr => .doubleGt
  | .multiply => .star | .divide => .slash | .modulo => .percent | .add => .plus | .sub => .dash
  | .placeIn => .thinarrowLeft

/-- Rust's precedences: 0 for assignments, 1 for `<-`, 2 for ranges, 12 for casts, 13 for prefix
operators, 14 for calls, indexing, fields and `?`. -/
def BinOp.prec : BinOp → ℕ
  | .placeIn => 1
  | .boolOr => 3
  | .boolAnd => 4
  | .cmpEqu | .cmpNequ | .cmpLt | .cmpLte | .cmpGt | .cmpGte => 5
  | .bitOr => 6
  | .bitXor => 7
  | .bitAnd => 8
  | .shl | .shr => 9
  | .add | .sub => 10
  | .multiply | .divide | .modulo => 11

/-- Comparisons and `<-` do not associate to the left. -/
def BinOp.leftPrec (op : BinOp) : ℕ :=
  if op.prec = 5 ∨ op.prec = 1 then op.prec + 1 else op.prec

/-- Only `<-` associates to the right. -/
def BinOp.rightPrec (op : BinOp) : ℕ := if op.prec = 1 then 1 else op.prec + 1

/-- Behind the type of a cast these would start its generic arguments. -/
def BinOp.startsGenerics (op : BinOp) : Bool := op.token ∈ [.lt, .doubleLt, .thinarrowLeft]

def UniOp.prefixTokens : UniOp → Option (List Token)
  | .negate => some [.op .dash]
  | .invert => some [.op .exclam]
  | .deref => some [.op .star]
  | .box => some [.op .rwordBox]
  | .ref => some [.op .amp]
  | .refMut => some [.op .amp, .op .rwordMut]
  | .rawBorrow => some [.op .amp, .ident (ascii ['r', 'a', 'w']), .op .rwordConst]
  | .rawBorrowMut => some [.op .amp, .ident (ascii ['r', 'a', 'w']), .op .rwordMut]
  | .qmark | .await => none

end Mrustc.Ast

namespace Mrustc.Parse
open Ast

/-- The inclusive range was written `...` at first. -/
def rangeIncToken (cfg : ParseConfig) : TokenType :=
  if cfg.targetverLeast129 then .doubleDotEqual else .tripleDot

/-- In front of a parenthesis these would be called as a path or a method. -/
def calledByName : Expr → Bool
  | .namedValue (.localVar _) => false
  | .namedValue _ | .field _ _ => true
  | _ => false

def lifetimeTokens : Option Name → List Token
  | some name => [.lifetime name]
  | none => []

def mutTokens (isMut : Bool) : List Token := if isMut then [.op .rwordMut] else []

/-- `for<'a, 'b>`, or nothing. -/
def hrbTokens : List Name → List Token
  | [] => []
  | name :: names => [.op .rwordFor, .op .lt, .lifetime name] ++
      names.flatMap (fun name => [.op .comma, .lifetime name]) ++ [.op .gt]

/-- `super::`, some times. -/
def superTokens (count : ℕ) : List Token :=
  (List.replicate count [.op .rwordSuper, .op .doubleColon]).flatten

def abiTokens (abi : Name) : List Token :=
  if abi = [] then [] else [.op .rwordExtern, .string abi []]

def unsafeTokens (isUnsafe : Bool) : List Token := if isUnsafe then [.op .rwordUnsafe] else []

/-- The token of a literal. -/
inductive SpellLit : Expr → Token → Prop
  | integer {value datatype} : SpellLit (.integer value datatype) (.integer value datatype)
  | float {text datatype} : SpellLit (.float text datatype) (.float text datatype)
  | string {value hygiene} : SpellLit (.string value hygiene) (.string value hygiene)
  | byteString {value} : SpellLit (.byteString value) (.byteString value)
  | boolTrue : SpellLit (.bool true) (.op .rwordTrue)
  | boolFalse : SpellLit (.bool false) (.op .rwordFalse)

variable (cfg : ParseConfig)

mutual

/-- Where no bounds are allowed, a trait object is in parentheses. -/
inductive SpellTy : (bounds ok : Bool) → Ty → List Token → List Token → Prop
  | any {b r} : SpellTy b true .any (.op .underscore :: r) r
  | bang {b r} : SpellTy b true .bang (.op .exclam :: r) r
  | paren {b ok type ts r} (h : SpellTy true ok type ts (.op .parenClose :: r)) :
      SpellTy b ok type (.op .parenOpen :: ts) r
  | path {b ok path ts r} (h : SpellPath .type ok path ts r)
      (hdyn : isDyn cfg (lookahead ts) = false) : SpellTy b ok (.path path) ts r
  | reference {b ok type ts r} (lifetime : Option Name) (isMut : Bool)
      (h : SpellTy false ok type ts r) : SpellTy b ok (.reference lifetime isMut type)
        (.op .amp :: (lifetimeTokens lifetime ++ (mutTokens isMut ++ ts))) r
  | refRef {b ok type ts r} (h : SpellTy false ok type (.op .amp :: ts) r) :
      SpellTy b ok (.reference none false type) (.op .doubleAmp :: ts) r
  | pointer {b ok type ts r} (isMut : Bool) (h : SpellTy false ok type ts r) :
      SpellTy b ok (.pointer isMut type)
        (.op .star :: .op (if isMut then .rwordMut else .rwordConst) :: ts) r
  | sizedArray {b ok ok' c type size ts us r} (h : SpellTy true ok type ts (.op .semicolon :: us))
      (hsize : SpellExpr 0 c ok' size us (.op .squareClose :: r)) :
      SpellTy b (ok && ok') (.sizedArray type (some size)) (.op .squareOpen :: ts) r
  | inferredArray {b ok type ts r}
      (h : SpellTy true ok type ts (.op .semicolon :: .op .underscore :: .op .squareClose :: r)) :
      SpellTy b ok (.sizedArray type none) (.op .squareOpen :: ts) r
  | unsizedArray {b ok type ts r} (h : SpellTy true ok type ts (.op .squareClose :: r)) :
      SpellTy b ok (.unsizedArray type) (.op .squareOpen :: ts) r
  | unit {b r} : SpellTy b true (.tuple []) (.op .parenOpen :: .op .parenClose :: r) r
  | tuple {b ok ok' type types ts us r} (h : SpellTy true ok type ts (.op .comma :: us))
      (hs : SpellTys false ok' types us r) :
      SpellTy b (ok && ok') (.tuple (type :: types)) (.op .parenOpen :: ts) r
  | function {b ok args isVariadic ts r} (hrbs : List Name) (isUnsafe : Bool) (abi : Name)
      (h : SpellTys isVariadic ok args ts r) :
      SpellTy b ok (.function hrbs isUnsafe abi args isVariadic (.tuple []))
        (hrbTokens hrbs ++ (unsafeTokens isUnsafe ++ (abiTokens abi ++
          .op .rwordFn :: .op .parenOpen :: ts))) r
  | functionRet {b ok ok' args ret isVariadic ts us r} (hrbs : List Name) (isUnsafe : Bool)
      (abi : Name) (h : SpellTys isVariadic ok args ts (.op .thinarrow :: us))
      (hret : SpellTy false ok' ret us r) :
      SpellTy b (ok && ok') (.function hrbs isUnsafe abi args isVariadic ret)
        (hrbTokens hrbs ++ (unsafeTokens isUnsafe ++ (abiTokens abi ++
          .op .rwordFn :: .op .parenOpen :: ts))) r
  | traitObject {ok dyn traits lifetimes ts r} (hdyn : isDyn cfg dyn = true)
      (h : SpellBounds ok traits lifetimes ts r) :
      SpellTy true ok (.traitObject traits (objectLifetimes lifetimes)) (dyn :: ts) r

/-- Types up to a closing parenthesis, the last ones perhaps variadic. -/
inductive SpellTys : (isVariadic ok : Bool) → List Ty → List Token → List Token → Prop
  | nil {r} : SpellTys false true [] (.op .parenClose :: r) r
  | variadic {r} : SpellTys true true [] (.op .tripleDot :: .op .parenClose :: r) r
  | last {ok type ts r} (h : SpellTy true ok type ts (.op .parenClose :: r)) :
      SpellTys false ok [type] ts r
  | cons {v ok ok' type types ts us r} (h : SpellTy true ok type ts (.op .comma :: us))
      (hs : SpellTys v ok' types us r) : SpellTys v (ok && ok') (type :: types) ts r

/-- Traits and lifetimes with a `+` between them. -/
inductive SpellBounds : (ok : Bool) → List TraitPath → List (Option Name) → List Token →
    List Token → Prop
  | trait {ok path ts r} (hrbs : List Name) (h : SpellPath .type ok path ts r) :
      SpellBounds ok [.mk hrbs path] [] (hrbTokens hrbs ++ ts) r
  | traitCons {ok ok' path traits lifetimes ts us r} (hrbs : List Name)
      (h : SpellPath .type ok path ts (.op .plus :: us))
      (hs : SpellBounds ok' traits lifetimes us r) :
      SpellBounds (ok && ok') (.mk hrbs path :: traits) lifetimes (hrbTokens hrbs ++ ts) r
  | lifetime {name r} : SpellBounds true [] [some name] (.lifetime name :: r) r
  | lifetimeCons {ok name traits lifetimes us r} (hs : SpellBounds ok traits lifetimes us r) :
      SpellBounds ok traits (some name :: lifetimes) (.lifetime name :: .op .plus :: us) r

inductive SpellPath : GenericMode → (ok : Bool) → Path → List Token → List Token → Prop
  | relative {mode ok nodes ts r} (h : SpellNodes mode ok nodes ts r) :
      SpellPath mode ok (.relative nodes) ts r
  | self {mode ok nodes ts r} (h : SpellNodes mode ok nodes ts r) :
      SpellPath mode ok (.self nodes) (.op .rwordSelf :: .op .doubleColon :: ts) r
  | super {mode ok nodes ts r} (count : ℕ) (h : SpellNodes mode ok nodes ts r) :
      SpellPath mode ok (.super (count + 1) nodes) (superTokens (count + 1) ++ ts) r
  | crate {mode ok nodes ts r} (h : SpellNodes mode ok nodes ts r) :
      SpellPath mode ok (.absolute [] nodes) (.op .rwordCrate :: .op .doubleColon :: ts) r
  | root {mode ok nodes ts r} (hedition : cfg.edition = .rust2015)
      (h : SpellNodes mode ok nodes ts r) :
      SpellPath mode ok (.absolute [] nodes) (.op .doubleColon :: ts) r
  | external {mode ok name nodes ts r} (hedition : cfg.edition ≠ .rust2015)
      (h : SpellNodes mode ok nodes ts r) : SpellPath mode ok (.absolute (ascii ['='] ++ name) nodes)
        (.op .doubleColon :: .ident name :: .op .doubleColon :: ts) r
  | externCrate {mode name r} (hedition : cfg.edition ≠ .rust2015) :
      SpellPath mode true (.absolute (ascii ['='] ++ name) [])
        (.op .doubleColon :: .ident name :: r) r
  | string {mode ok crate hygiene nodes ts r} (h : SpellNodes mode ok nodes ts r) :
      SpellPath mode ok (.absolute crate nodes)
        (.op .doubleColon :: .string crate hygiene :: .op .doubleColon :: ts) r
  | qualified {mode ok ok' type nodes ts us r}
      (h : SpellTy true ok type ts (.op .gt :: .op .doubleColon :: us))
      (hs : SpellNodes mode ok' nodes us r) :
      SpellPath mode (ok && ok') (.ufcs type none nodes) (.op .lt :: ts) r
  | qualifiedTrait {mode ok ok' ok'' type trait nodes ts us vs r}
      (h : SpellTy true ok type ts (.op .rwordAs :: us))
      (htrait : SpellPath .type ok' trait us (.op .gt :: .op .doubleColon :: vs))
      (hs : SpellNodes mode ok'' nodes vs r) :
      SpellPath mode (ok && (ok' && ok'')) (.ufcs type (some trait) nodes) (.op .lt :: ts) r
  | join {mode ok path ts r} (h : SpellPath mode ok path (.op .lt :: .op .lt :: ts) r) :
      SpellPath mode ok path (.op .doubleLt :: ts) r

/-- In an expression `::` stands in front of generic arguments. -/
inductive SpellNodes : GenericMode → (ok : Bool) → List PathNode → List Token → List Token → Prop
  | expr {name r} : SpellNodes .expr true [.mk name .empty] (.ident name :: r) r
  | exprCons {ok name nodes ts r} (hs : SpellNodes .expr ok nodes ts r) :
      SpellNodes .expr ok (.mk name .empty :: nodes) (.ident name :: .op .doubleColon :: ts) r
  | generic {ok name entries ts us r} (hlt : getLt ts = some us)
      (h : SpellEnts ok entries us r) : SpellNodes .expr ok [.mk name (.angle entries)]
        (.ident name :: .op .doubleColon :: ts) r
  | genericCons {ok ok' name entries nodes ts us vs r} (hlt : getLt ts = some us)
      (h : SpellEnts ok entries us (.op .doubleColon :: vs))
      (hs : SpellNodes .expr ok' nodes vs r) :
      SpellNodes .expr (ok && ok') (.mk name (.angle entries) :: nodes)
        (.ident name :: .op .doubleColon :: ts) r
  | type {ok name params ts r} (h : SpellParams ok params ts r) :
      SpellNodes .type ok [.mk name params] (.ident name :: ts) r
  | typeCons {ok ok' name entries nodes ts us r}
      (h : SpellParams ok (.angle entries) ts (.op .doubleColon :: us))
      (hs : SpellNodes .type ok' nodes us r) :
      SpellNodes .type (ok && ok') (.mk name (.angle entries) :: nodes) (.ident name :: ts) r
  | parenCons {ok ok' name args nodes ts us r}
      (h : SpellTys false ok args ts (.op .doubleColon :: us))
      (hs : SpellNodes .type ok' nodes us r) :
      SpellNodes .type (ok && ok') (.mk name (.paren args (.tuple [])) :: nodes)
        (.ident name :: .op .parenOpen :: ts) r

/-- The parameters of a node in a type. -/
inductive SpellParams : (ok : Bool) → PathParams → List Token → List Token → Prop
  | none {r} : SpellParams true .empty r r
  | angle {ok entries ts us r} (hlt : getLt ts = some us) (h : SpellEnts ok entries us r) :
      SpellParams ok (.angle entries) ts r
  | turbofish {ok entries ts us r} (hlt : getLt ts = some us) (h : SpellEnts ok entries us r) :
      SpellParams ok (.angle entries) (.op .doubleColon :: ts) r
  | paren {ok args ts r} (h : SpellTys false ok args ts r) :
      SpellParams ok (.paren args (.tuple [])) (.op .parenOpen :: ts) r
  | parenRet {ok ok' args ret ts us r} (h : SpellTys false ok args ts (.op .thinarrow :: us))
      (hret : SpellTy false ok' ret us r) :
      SpellParams (ok && ok') (.paren args ret) (.op .parenOpen :: ts) r

/-- Generic arguments, up to the `>` behind them. -/
inductive SpellEnts : (ok : Bool) → List PathParamEnt → List Token → List Token → Prop
  | nil {ts r} (hgt : getCheckGt ts = .ok r) : SpellEnts true [] ts r
  | last {ok ent ts us r} (h : SpellEnt ok ent ts us) (hgt : getCheckGt us = .ok r) :
      SpellEnts ok [ent] ts r
  | cons {ok ok' ent entries ts us r} (h : SpellEnt ok ent ts (.op .comma :: us))
      (hs : SpellEnts ok' entries us r) : SpellEnts (ok && ok') (ent :: entries) ts r

inductive SpellEnt : (ok : Bool) → PathParamEnt → List Token → List Token → Prop
  | lifetime {name r} : SpellEnt true (.lifetime name) (.lifetime name :: r) r
  | type {ok type ts r} (h : SpellTy true ok type ts r) : SpellEnt ok (.type type) ts r
  | value {expr tok r} (h : SpellLit expr tok) (hstart : isGenericValueStart tok = true) :
      SpellEnt true (.value expr) (tok :: r) r
  | negative {expr tok r} (h : SpellLit expr tok) (hstart : isGenericValueStart tok = true) :
      SpellEnt true (.value (.uniOp .negate expr)) (.op .dash :: tok :: r) r
  | assocEqual {ok name type ts r} (h : SpellTy false ok type ts r) :
      SpellEnt ok (.assocEqual name type) (.ident name :: .op .equal :: ts) r
  | assocBound {ok name path ts r} (h : SpellPath .type ok path ts r) :
      SpellEnt ok (.assocBound name path) (.ident name :: .op .colon :: ts) r

/-- An expression where at least the precedence `prec` is asked for. A spelling that may end in
the type of a cast has the flag `endsInType`. -/
inductive SpellExpr : (prec : ℕ) → (endsInType ok : Bool) → Expr → List Token → List Token → Prop
  | paren {k c ok e ts r} (h : SpellExpr 0 c ok e ts (.op .parenClose :: r)) :
      SpellExpr k false ok e (.op .parenOpen :: ts) r
  | assign {c c' ok ok' slot value ts us r} (op : AssignOp)
      (hslot : SpellExpr 1 c ok slot ts (.op op.token :: us))
      (hvalue : SpellExpr 0 c' ok' value us r) :
      SpellExpr 0 c' (ok && ok') (.assign op slot value) ts r
  | binOp {k c c' ok ok' left right ts us r} (op : BinOp) (hk : k ≤ op.prec)
      (hleft : SpellExpr op.leftPrec c ok left ts (.op op.token :: us))
      (hc : op.startsGenerics = true → c = false)
      (hright : SpellExpr op.rightPrec c' ok' right us r) :
      SpellExpr k c' (ok && ok') (.binOp op left right) ts r
  | rangeFull {k r} (hk : k ≤ 2) :
      SpellExpr k false true (.range none none) (.op .doubleDot :: r) r
  | rangeFrom {k c ok left ts r} (hk : k ≤ 2)
      (hleft : SpellExpr 3 c ok left ts (.op .doubleDot :: r)) :
      SpellExpr k false ok (.range (some left) none) ts r
  | rangeTo {k c ok right us r} (hk : k ≤ 2) (hright : SpellExpr 3 c ok right us r) :
      SpellExpr k c (parseIsTokValue (lookahead us) && ok) (.range none (some right))
        (.op .doubleDot :: us) r
  | range {k c c' ok ok' left right ts us r} (hk : k ≤ 2)
      (hleft : SpellExpr 3 c ok left ts (.op .doubleDot :: us))
      (hright : SpellExpr 3 c' ok' right us r) :
      SpellExpr k c' (ok && (parseIsTokValue (lookahead us) && ok'))
        (.range (some left) (some right)) ts r
  | rangeToInc {k c ok right us r} (hk : k ≤ 2) (hright : SpellExpr 3 c ok right us r) :
      SpellExpr k c ok (.rangeInc none right) (.op (rangeIncToken cfg) :: us) r
  | rangeInc {k c c' ok ok' left right ts us r} (hk : k ≤ 2)
      (hleft : SpellExpr 3 c ok left ts (.op (rangeIncToken cfg) :: us))
      (hright : SpellExpr 3 c' ok' right us r) :
      SpellExpr k c' (ok && ok') (.rangeInc (some left) right) ts r
  | cast {k c ok ok' value type ts us r} (hk : k ≤ 12)
      (h : SpellExpr 12 c ok value ts (.op .rwordAs :: us)) (htype : SpellTy false ok' type us r) :
      SpellExpr k true (ok && ok') (.cast value type) ts r
  | uniOp {k ok value toks ts r} (op : UniOp) (hk : k ≤ 13) (hop : op.prefixTokens = some toks)
      (h : SpellExpr 13 false ok value ts r) : SpellExpr k false ok (.uniOp op value) (toks ++ ts) r
  | refRef {k ok value ts r} (hk : k ≤ 13) (h : SpellExpr 13 false ok value (.op .amp :: ts) r) :
      SpellExpr k false ok (.uniOp .ref value) (.op .doubleAmp :: ts) r
  | callPath {k ok ok' path args ts us r} (hk : k ≤ 14)
      (h : SpellPath .expr ok path ts (.op .parenOpen :: us)) (hargs : SpellArgs ok' args us r) :
      SpellExpr k false (ok && ok') (.callPath path args) ts r
  | callObject {k ok ok' value args ts us r} (hk : k ≤ 14)
      (h : SpellExpr 14 false ok value ts (.op .parenOpen :: us))
      (hvalue : calledByName value = false) (hargs : SpellArgs ok' args us r) :
      SpellExpr k false (ok && ok') (.callObject value args) ts r
  | callFieldIndex {k ok ok' value index datatype args ts us r} (hk : k ≤ 14)
      (h : SpellExpr 14 false ok value ts
        (.op .dot :: .integer index datatype :: .op .parenOpen :: us))
      (hargs : SpellArgs ok' args us r) :
      SpellExpr k false (ok && ok') (.callObject (.field value (fieldName index)) args) ts r
  | callParen {k c ok ok' value args ts us r} (hk : k ≤ 14)
      (h : SpellExpr 0 c ok value ts (.op .parenClose :: .op .parenOpen :: us))
      (hargs : SpellArgs ok' args us r) :
      SpellExpr k false (ok && ok') (.callObject value args) (.op .parenOpen :: ts) r
  | callMethod {k ok ok' value name args ts us r} (hk : k ≤ 14)
      (h : SpellExpr 14 false ok value ts (.op .dot :: .ident name :: .op .parenOpen :: us))
      (hargs : SpellArgs ok' args us r) :
      SpellExpr k false (ok && ok') (.callMethod value (.mk name .empty) args) ts r
  | callGeneric {k ok ok' ok'' value name entries args ts us vs r} (hk : k ≤ 14)
      (h : SpellExpr 14 false ok value ts
        (.op .dot :: .ident name :: .op .doubleColon :: .op .lt :: us))
      (hents : SpellEnts ok' entries us (.op .parenOpen :: vs))
      (hargs : SpellArgs ok'' args vs r) :
      SpellExpr k false (ok && (ok' && ok''))
        (.callMethod value (.mk name (.angle entries)) args) ts r
  | callGenericJoin {k ok ok' ok'' value name entries args ts us vs r} (hk : k ≤ 14)
      (h : SpellExpr 14 false ok value ts
        (.op .dot :: .ident name :: .op .doubleColon :: .op .doubleLt :: us))
      (hents : SpellEnts ok' entries (.op .lt :: us) (.op .parenOpen :: vs))
      (hargs : SpellArgs ok'' args vs r) :
      SpellExpr k false (ok && (ok' && ok''))
        (.callMethod value (.mk name (.angle entries)) args) ts r
  | index {k c ok ok' value index ts us r} (hk : k ≤ 14)
      (h : SpellExpr 14 false ok value ts (.op .squareOpen :: us))
      (hindex : SpellExpr 0 c ok' index us (.op .squareClose :: r)) :
      SpellExpr k false (ok && ok') (.index value index) ts r
  | field {k ok value name ts r} (hk : k ≤ 14)
      (h : SpellExpr 14 false ok value ts (.op .dot :: .ident name :: r)) :
      SpellExpr k false ok (.field value name) ts r
  | fieldIndex {k ok value index datatype ts r} (hk : k ≤ 14)
      (h : SpellExpr 14 false ok value ts (.op .dot :: .integer index datatype :: r)) :
      SpellExpr k false ok (.field value (fieldName index)) ts r
  | qmark {k ok value ts r} (hk : k ≤ 14)
      (h : SpellExpr 14 false ok value ts (.op .qmark :: r)) :
      SpellExpr k false ok (.uniOp .qmark value) ts r
  | await {k ok value ts r} (hk : k ≤ 14)
      (h : SpellExpr 14 false ok value ts (.op .dot :: .op .rwordAwait :: r)) :
      SpellExpr k false ok (.uniOp .await value) ts r
  | lit {k e tok r} (hk : k ≤ 15) (h : SpellLit e tok) : SpellExpr k false true e (tok :: r) r
  | namedValue {k ok path ts r} (hk : k ≤ 15) (h : SpellPath .expr ok path ts r) :
      SpellExpr k false ok (.namedValue path) ts r
  | selfValue {k r} (hk : k ≤ 15) :
      SpellExpr k false true (.namedValue (.localVar (ascii ['s', 'e', 'l', 'f'])))
        (.op .rwordSelf :: r) r

/-- Arguments, up to the closing parenthesis. -/
inductive SpellArgs : (ok : Bool) → List Expr → List Token → List Token → Prop
  | nil {r} : SpellArgs true [] (.op .parenClose :: r) r
  | last {c ok e ts r} (h : SpellExpr 0 c ok e ts (.op .parenClose :: r)) : SpellArgs ok [e] ts r
  | cons {c ok ok' e es ts us r} (h : SpellExpr 0 c ok e ts (.op .comma :: us))
      (hs : SpellArgs ok' es us r) : SpellArgs (ok && ok') (e :: es) ts r

end

end Mrustc.Parse
