import Mrustc.Ast.Expr

/-! # The parser of types, paths and expressions

Every call of one parse function by another is a `Call`, and `parse` makes the calls, as far as
its depth allows. What the parse functions do with attributes, macros, struct literals, closures,
blocks and statements is left to `Others`.
-/

namespace Mrustc.Parse
open Ast

inductive ParseError
  | unexpected (tok : Token)
  | error (msg : String)
  | depth
  deriving DecidableEq, Repr

abbrev Parsed := Except ParseError

/-- The flags of `ParseState` that expressions look at. -/
structure ParseFlags where
  disallowStructLiteral : Bool
  disallowCallOrIndex : Bool
  deriving DecidableEq, Repr

inductive GenericMode
  | type | expr
  deriving DecidableEq, Repr

/-- What is parsed elsewhere: each starts at the tokens that the caller has put back. -/
structure Others where
  attributes : ParseFlags → List Token → Parsed (Unit × List Token)
  typeMacro : Path → List Token → Parsed (Ty × List Token)
  exprVal : ParseFlags → List Token → Parsed (Expr × List Token)
  pathExpr : ParseFlags → Path → List Token → Parsed (Expr × List Token)

structure ParseConfig where
  edition : Edition
  targetverLeast129 : Bool
  others : Others

/-- The loops of `LEFTASSOC`, in the order in which they call each other. -/
inductive Level
  | expr1_2 | expr1_5 | expr2 | expr3 | expr4 | expr5 | expr6 | expr7 | expr8 | expr9 | expr10
  | expr11
  deriving DecidableEq, Repr

/-- The parse functions and their loops, by what they return. -/
inductive Call : Type → Type
  | hrb : Call (List Name)
  | hrbOpt : Call (List Name)
  | type (allowTraitList : Bool) : Call Ty
  | typeFn (hrbs : List Name) : Call Ty
  | typeFnArgs : Call (List Ty × Bool)
  | typePath (hrbs : List Name) (allowTraitList : Bool) : Call Ty
  | typePathList (traits : List TraitPath) (lifetimes : List (Option Name)) :
      Call (List TraitPath × List (Option Name))
  | typeTraitObject (hrbs : List Name) (traits : List TraitPath)
      (lifetimes : List (Option Name)) : Call Ty
  | typeErased (traits maybeTraits : List TraitPath) (lifetimes : List Name) : Call Ty
  | typeTuple : Call (List Ty)
  | path (mode : GenericMode) : Call Path
  | pathAbs (mode : GenericMode) : Call Path
  | pathNodes (mode : GenericMode) : Call (List PathNode)
  | pathTypeParams : Call PathParams
  | parenTypes : Call (List Ty)
  | genericList : Call (List PathParamEnt)
  | genericEnt : Call (List PathParamEnt)
  | assocBounds (name : Name) : Call (List PathParamEnt)
  | parenList : Call (List Expr)
  | exprList (close : TokenType) : Call (List Expr)
  | expr0 : Call Expr
  | expr1 : Call Expr
  | expr1_1 : Call Expr
  | leftAssoc (level : Level) : Call Expr
  | leftAssocLoop (level : Level) (rv : Expr) : Call Expr
  | expr12 : Call Expr
  | expr13 : Call Expr
  | exprFC : Call Expr
  | exprFCLoop (val : Expr) : Call Expr
  | exprVal : Call Expr

/-- Makes the calls: a result, and the tokens behind it. -/
abbrev Caller := ParseFlags → (α : Type) → Call α → List Token → Parsed (α × List Token)

section Tokens

/-- The type of the next token; behind the last there is the end of the file. -/
def lookahead (lex : List Token) : Token := lex.headD .eof

@[simp] theorem lookahead_cons {tok : Token} {ts : List Token} : lookahead (tok :: ts) = tok := rfl

/-- `CHECK_TOK` of the next token. -/
def getCheckTok (type : TokenType) (lex : List Token) : Parsed (List Token) :=
  if lookahead lex = .op type then .ok lex.tail else .error (.unexpected (lookahead lex))

def getCheckIdent : List Token → Parsed (Name × List Token)
  | .ident name :: lex => .ok (name, lex)
  | lex => .error (.unexpected (lookahead lex))

/-- The `>` that ends a generic list, split off the token that it is a part of. -/
def getCheckGt : List Token → Parsed (List Token)
  | .op .gt :: lex => .ok lex
  | .op .doubleGt :: lex => .ok (.op .gt :: lex)
  | .op .gte :: lex => .ok (.op .equal :: lex)
  | .op .doubleGtEqual :: lex => .ok (.op .gte :: lex)
  | lex => .error (.unexpected (lookahead lex))

def isGt (tok : Token) : Bool :=
  tok ∈ [Token.op .gt, .op .doubleGt, .op .gte, .op .doubleGtEqual]

/-- The `<` that starts a generic list, split off the token that it is a part of. -/
def getLt : List Token → Option (List Token)
  | .op .lt :: lex => some lex
  | .op .doubleLt :: lex => some (.op .lt :: lex)
  | .op .thinarrowLeft :: lex => some (.op .dash :: lex)
  | _ => none

end Tokens

variable (cfg : ParseConfig) (call : Caller) (flags : ParseFlags)

section Types

/-- `Parse_ItemAttrs`. -/
def parseItemAttrs (lex : List Token) : Parsed (List Token) :=
  if lookahead lex = .op .hash then (cfg.others.attributes flags lex).map Prod.snd else .ok lex

/-- The lifetimes of `Parse_HRB`, behind the `<`. -/
def parseHRB (lex : List Token) : Parsed (List Name × List Token) :=
  if lookahead lex = .op .gt then .ok ([], lex.tail)
  else do
    let lex ← parseItemAttrs cfg flags lex
    match lex with
    | .lifetime name :: lex =>
      if lookahead lex = .op .comma then
        let (names, lex) ← call flags _ .hrb lex.tail
        return (name :: names, lex)
      else
        let lex ← getCheckTok .gt lex
        return ([name], lex)
    | lex => .error (.unexpected (lookahead lex))

def parseHRBOpt (lex : List Token) : Parsed (List Name × List Token) :=
  if lookahead lex = .op .rwordFor then do
    let lex ← getCheckTok .lt lex.tail
    call flags _ .hrb lex
  else .ok ([], lex)

/-- `dyn`, which is an identifier in the first edition. -/
def isDyn (tok : Token) : Bool :=
  tok = .op .rwordDyn || (cfg.targetverLeast129 && tok = .ident (ascii ['d', 'y', 'n']))

def isTypePathStart : Token → Bool
  | .ident _ => true
  | .op type => type ∈ [.doubleColon, .rwordSelf, .rwordSuper, .rwordCrate]
  | _ => false

/-- `Parse_Type_Int`. -/
def parseType (allowTraitList : Bool) (lex : List Token) : Parsed (Ty × List Token) :=
  if isDyn cfg (lookahead lex) then do
    let (hrbs, lex) ← call flags _ .hrbOpt lex.tail
    call flags _ (.typeTraitObject hrbs [] []) lex
  else if isTypePathStart (lookahead lex) then call flags _ (.typePath [] allowTraitList) lex
  else
    match lex with
    | .op .exclam :: lex => .ok (.bang, lex)
    | .op .underscore :: lex => .ok (.any, lex)
    | .op .rwordUnsafe :: _ | .op .rwordExtern :: _ | .op .rwordFn :: _ =>
      call flags _ (.typeFn []) lex
    | .op .rwordImpl :: lex => call flags _ (.typeErased [] [] []) lex
    | .op .lt :: _ | .op .thinarrowLeft :: _ | .op .doubleLt :: _ => do
      let (path, lex) ← call flags _ (.path .type) lex
      return (.path path, lex)
    | .op .rwordFor :: _ => do
      let (hrbs, lex) ← call flags _ .hrbOpt lex
      if lookahead lex ∈ [Token.op .rwordUnsafe, .op .rwordExtern, .op .rwordFn] then
        call flags _ (.typeFn hrbs) lex
      else call flags _ (.typePath hrbs true) lex
    | .op .doubleAmp :: lex => reference (.op .amp :: lex)
    | .op .amp :: lex => reference lex
    | .op .star :: .op .rwordMut :: lex => do
      let (inner, lex) ← call flags _ (.type false) lex
      return (.pointer true inner, lex)
    | .op .star :: .op .rwordConst :: lex => do
      let (inner, lex) ← call flags _ (.type false) lex
      return (.pointer false inner, lex)
    | .op .star :: lex => .error (.unexpected (lookahead lex))
    | .op .squareOpen :: lex => do
      let (inner, lex) ← call flags _ (.type true) lex
      match lex with
      | .op .semicolon :: .op .underscore :: lex => do
        let lex ← getCheckTok .squareClose lex
        return (.sizedArray inner none, lex)
      | .op .semicolon :: lex => do
        let (size, lex) ← call flags _ .expr0 lex
        let lex ← getCheckTok .squareClose lex
        return (.sizedArray inner (some size), lex)
      | .op .squareClose :: lex => return (.unsizedArray inner, lex)
      | lex => .error (.unexpected (lookahead lex))
    | .op .parenOpen :: .op .parenClose :: lex => .ok (.tuple [], lex)
    | .op .parenOpen :: lex => do
      let (inner, lex) ← call flags _ (.type true) lex
      if lookahead lex = .op .parenClose then return (inner, lex.tail)
      else
        let (types, lex) ← call flags _ .typeTuple lex
        return (.tuple (inner :: types), lex)
    | lex => .error (.unexpected (lookahead lex))
where
  /-- Behind the `&`. -/
  reference (lex : List Token) : Parsed (Ty × List Token) := do
    let (lifetime, lex) := match lex with
      | .lifetime name :: lex => (some name, lex)
      | lex => (none, lex)
    let (isMut, lex) :=
      if lookahead lex = .op .rwordMut then (true, lex.tail) else (false, lex)
    let (inner, lex) ← call flags _ (.type false) lex
    return (.reference lifetime isMut inner, lex)

variable {cfg call flags} in
/-- Behind an opening parenthesis there is a type, and then the end of it or of a tuple. -/
theorem parseType_paren {b : Bool} {ts : List Token} (h : lookahead ts ≠ .op .parenClose) :
    parseType cfg call flags b (.op .parenOpen :: ts) = (do
      let (inner, lex) ← call flags _ (.type true) ts
      if lookahead lex = .op .parenClose then return (inner, lex.tail)
      else
        let (types, lex) ← call flags _ .typeTuple lex
        return (.tuple (inner :: types), lex)) := by
  cases ts with
  | nil => simp [parseType, isDyn, isTypePathStart]
  | cons tok ts =>
    rw [lookahead_cons] at h
    simp [parseType, isDyn, isTypePathStart, h]

/-- The types behind the first of a tuple, and the closing parenthesis. -/
def parseTypeTuple (lex : List Token) : Parsed (List Ty × List Token) :=
  match lex with
  | .op .comma :: .op .parenClose :: lex => .ok ([], lex)
  | .op .comma :: lex => do
    let (type, lex) ← call flags _ (.type true) lex
    let (types, lex) ← call flags _ .typeTuple lex
    return (type :: types, lex)
  | lex => do
    let lex ← getCheckTok .parenClose lex
    return ([], lex)

/-- The ABI in front of `fn`: the empty string stands for Rust. -/
def parseAbi : List Token → Parsed (Name × List Token)
  | .op .rwordExtern :: .string abi _ :: lex =>
    if abi = [] then .error (.error "Empty ABI") else .ok (abi, lex)
  | .op .rwordExtern :: lex => .ok (ascii ['C'], lex)
  | lex => .ok ([], lex)

def parseTypeFn (hrbs : List Name) (lex : List Token) : Parsed (Ty × List Token) := do
  let (isUnsafe, lex) :=
    if lookahead lex = .op .rwordUnsafe then (true, lex.tail) else (false, lex)
  let (abi, lex) ← parseAbi lex
  let lex ← getCheckTok .rwordFn lex
  let lex ← getCheckTok .parenOpen lex
  let ((args, isVariadic), lex) ← call flags _ .typeFnArgs lex
  let lex ← getCheckTok .parenClose lex
  if lookahead lex = .op .thinarrow then
    let (ret, lex) ← call flags _ (.type false) lex.tail
    return (.function hrbs isUnsafe abi args isVariadic ret, lex)
  else return (.function hrbs isUnsafe abi args isVariadic (.tuple []), lex)

/-- The name in front of an argument's type. -/
def skipArgName : List Token → List Token
  | .ident _ :: .op .colon :: lex => lex
  | .op .underscore :: .op .colon :: lex => lex
  | lex => lex

def parseTypeFnArgs (lex : List Token) : Parsed ((List Ty × Bool) × List Token) :=
  if lookahead lex = .op .parenClose then .ok (([], false), lex)
  else if lookahead lex = .op .tripleDot then .ok (([], true), lex.tail)
  else do
    let (arg, lex) ← call flags _ (.type true) (skipArgName lex)
    if lookahead lex = .op .comma then
      let ((args, isVariadic), lex) ← call flags _ .typeFnArgs lex.tail
      return ((arg :: args, isVariadic), lex)
    else return (([arg], false), lex)

/-- Without a lifetime there is the unspecified one. -/
def objectLifetimes (lifetimes : List (Option Name)) : List (Option Name) :=
  if lifetimes = [] then [none] else lifetimes

def parseTypePath (hrbs : List Name) (allowTraitList : Bool) (lex : List Token) : Parsed (Ty × List Token) := do
  let (path, lex) ← call flags _ (.path .type) lex
  if lookahead lex = .op .exclam then cfg.others.typeMacro path lex
  else if hrbs = [] ∧ !allowTraitList then return (.path path, lex)
  else
    let ((traits, lifetimes), lex) ←
      if allowTraitList then call flags _ (.typePathList [.mk hrbs path] []) lex
      else pure (([.mk hrbs path], []), lex)
    if hrbs ≠ [] ∨ 1 < traits.length ∨ 0 < lifetimes.length then
      return (.traitObject traits (objectLifetimes lifetimes), lex)
    else return (.path path, lex)

/-- The bounds behind the first, each with a `+` in front of it. A `for` is seen but not consumed,
and `Parse_HRB` does not expect it. -/
def parseTypePathList (traits : List TraitPath) (lifetimes : List (Option Name))
    (lex : List Token) : Parsed ((List TraitPath × List (Option Name)) × List Token) :=
  match lex with
  | .op .plus :: .lifetime name :: lex =>
    call flags _ (.typePathList traits (lifetimes ++ [some name])) lex
  | .op .plus :: .op .rwordFor :: lex => do
    let lex ← getCheckTok .lt (.op .rwordFor :: lex)
    let (hrbs, lex) ← call flags _ .hrb lex
    let (path, lex) ← call flags _ (.path .type) lex
    call flags _ (.typePathList (traits ++ [.mk hrbs path]) lifetimes) lex
  | .op .plus :: lex => do
    let (path, lex) ← call flags _ (.path .type) lex
    call flags _ (.typePathList (traits ++ [.mk [] path]) lifetimes) lex
  | lex => .ok ((traits, lifetimes), lex)

def parseTypeTraitObject (hrbs : List Name) (traits : List TraitPath)
    (lifetimes : List (Option Name)) (lex : List Token) : Parsed (Ty × List Token) :=
  match lex with
  | .lifetime name :: lex => more hrbs traits (lifetimes ++ [some name]) lex
  | lex => do
    let (hrbs, lex) ←
      if lookahead lex = .op .rwordFor then call flags _ .hrbOpt lex else pure (hrbs, lex)
    if lookahead lex = .op .parenOpen then
      let (path, lex) ← call flags _ (.path .type) lex.tail
      let lex ← getCheckTok .parenClose lex
      more [] (traits ++ [.mk hrbs path]) lifetimes lex
    else
      let (path, lex) ← call flags _ (.path .type) lex
      more [] (traits ++ [.mk hrbs path]) lifetimes lex
where
  more (hrbs : List Name) (traits : List TraitPath) (lifetimes : List (Option Name))
      (lex : List Token) : Parsed (Ty × List Token) :=
    if lookahead lex = .op .plus then
      call flags _ (.typeTraitObject hrbs traits lifetimes) lex.tail
    else .ok (.traitObject traits (objectLifetimes lifetimes), lex)

def parseTypeErasedType (traits maybeTraits : List TraitPath) (lifetimes : List Name)
    (lex : List Token) : Parsed (Ty × List Token) :=
  match lex with
  | .lifetime name :: lex => more traits maybeTraits (lifetimes ++ [name]) lex
  | .op .qmark :: lex => do
    let (hrbs, lex) ← call flags _ .hrbOpt lex
    let (path, lex) ← call flags _ (.path .type) lex
    more traits (maybeTraits ++ [.mk hrbs path]) lifetimes lex
  | .op .parenOpen :: lex => do
    let (hrbs, lex) ← call flags _ .hrbOpt lex
    let (path, lex) ← call flags _ (.path .type) lex
    let lex ← getCheckTok .parenClose lex
    more (traits ++ [.mk hrbs path]) maybeTraits lifetimes lex
  | lex => do
    let (hrbs, lex) ← call flags _ .hrbOpt lex
    let (path, lex) ← call flags _ (.path .type) lex
    more (traits ++ [.mk hrbs path]) maybeTraits lifetimes lex
where
  more (traits maybeTraits : List TraitPath) (lifetimes : List Name) (lex : List Token) :
      Parsed (Ty × List Token) :=
    if lookahead lex = .op .plus then
      call flags _ (.typeErased traits maybeTraits lifetimes) lex.tail
    else .ok (.erased traits maybeTraits lifetimes, lex)

end Types

section Paths

/-- The `super`s behind the first. -/
def parseSupers (count : ℕ) : List Token → ℕ × Bool × List Token
  | .op .rwordSuper :: .op .doubleColon :: lex => parseSupers (count + 1) lex
  | .op .rwordSuper :: lex => (count + 1, true, lex)
  | lex => (count, false, lex)

/-- `Parse_Path`. -/
def parsePath (mode : GenericMode) (lex : List Token) : Parsed (Path × List Token) :=
  match lex with
  | .op .rwordSelf :: lex => do
    let lex ← getCheckTok .doubleColon lex
    let (nodes, lex) ← call flags _ (.pathNodes mode) lex
    return (.self nodes, lex)
  | .op .rwordSuper :: lex => do
    let lex ← getCheckTok .doubleColon lex
    let (count, isEnd, lex) := parseSupers 1 lex
    if isEnd then return (.super count [], lex)
    else
      let (nodes, lex) ← call flags _ (.pathNodes mode) lex
      return (.super count nodes, lex)
  | .op .rwordCrate :: lex => do
    let lex ← getCheckTok .doubleColon lex
    call flags _ (.pathAbs mode) lex
  | .op .doubleColon :: .ident name :: lex =>
    if cfg.edition = .rust2015 then call flags _ (.pathAbs mode) (.ident name :: lex)
    else if lookahead lex = .op .doubleColon then do
      let (nodes, lex) ← call flags _ (.pathNodes mode) lex.tail
      return (.absolute (ascii ['='] ++ name) nodes, lex)
    else return (.absolute (ascii ['='] ++ name) [], lex)
  | .op .doubleColon :: .string crate hygiene :: lex =>
    call flags _ (.pathAbs mode) (.string crate hygiene :: lex)
  | .op .doubleColon :: .op .rwordCrate :: lex =>
    call flags _ (.pathAbs mode) (.op .rwordCrate :: lex)
  | .op .doubleColon :: lex =>
    if cfg.edition = .rust2015 then call flags _ (.pathAbs mode) lex
    else .error (.unexpected (lookahead lex))
  | .op .doubleLt :: lex => qualified (.op .lt :: lex)
  | .op .lt :: lex => qualified lex
  | .ident name :: lex => do
    let (nodes, lex) ← call flags _ (.pathNodes mode) (.ident name :: lex)
    return (.relative nodes, lex)
  | lex => .error (.unexpected (lookahead lex))
where
  /-- Behind the `<`. -/
  qualified (lex : List Token) : Parsed (Path × List Token) := do
    let (type, lex) ← call flags _ (.type true) lex
    if lookahead lex = .op .rwordAs then
      let (trait, lex) ← call flags _ (.path .type) lex.tail
      let lex ← getCheckTok .gt lex
      let lex ← getCheckTok .doubleColon lex
      let (nodes, lex) ← call flags _ (.pathNodes mode) lex
      return (.ufcs type (some trait) nodes, lex)
    else
      let lex ← getCheckTok .gt lex
      let lex ← getCheckTok .doubleColon lex
      let (nodes, lex) ← call flags _ (.pathNodes mode) lex
      return (.ufcs type none nodes, lex)

/-- `Parse_Path` with `is_abs`. -/
def parsePathAbs (mode : GenericMode) (lex : List Token) : Parsed (Path × List Token) :=
  match lex with
  | .op .rwordCrate :: lex => do
    let lex ← getCheckTok .doubleColon lex
    let (nodes, lex) ← call flags _ (.pathNodes mode) lex
    return (.absolute [] nodes, lex)
  | .string crate _ :: lex => do
    let lex ← getCheckTok .doubleColon lex
    let (nodes, lex) ← call flags _ (.pathNodes mode) lex
    return (.absolute crate nodes, lex)
  | lex => do
    let (nodes, lex) ← call flags _ (.pathNodes mode) lex
    return (.absolute [] nodes, lex)

/-- The parameters of a node in type context. -/
def parsePathTypeParams (lex : List Token) : Parsed (PathParams × List Token) :=
  let lex :=
    if lookahead lex = .op .doubleColon ∧ (getLt lex.tail).isSome then lex.tail else lex
  match getLt lex with
  | some lex => do
    let (entries, lex) ← call flags _ .genericList lex
    return (.angle entries, lex)
  | none =>
    if lookahead lex = .op .parenOpen then do
      let (args, lex) ← call flags _ .parenTypes lex.tail
      if lookahead lex = .op .thinarrow then
        let (ret, lex) ← call flags _ (.type false) lex.tail
        return (.paren args ret, lex)
      else return (.paren args (.tuple []), lex)
    else .ok (.empty, lex)

/-- The arguments of `Fn(..)`, and the closing parenthesis. -/
def parseParenTypes (lex : List Token) : Parsed (List Ty × List Token) :=
  if lookahead lex = .op .parenClose then .ok ([], lex.tail)
  else do
    let (type, lex) ← call flags _ (.type true) lex
    if lookahead lex = .op .comma then
      let (types, lex) ← call flags _ .parenTypes lex.tail
      return (type :: types, lex)
    else
      let lex ← getCheckTok .parenClose lex
      return ([type], lex)

def parsePathNodes (mode : GenericMode) (lex : List Token) : Parsed (List PathNode × List Token) := do
  let (component, lex) ← getCheckIdent lex
  let (params, lex) ←
    if mode = .type then call flags _ .pathTypeParams lex else pure (.empty, lex)
  if lookahead lex ≠ .op .doubleColon then return ([.mk component params], lex)
  else
    match if mode = .expr then getLt lex.tail else none with
    | some lex =>
      let (entries, lex) ← call flags _ .genericList lex
      if lookahead lex ≠ .op .doubleColon then return ([.mk component (.angle entries)], lex)
      else
        let (nodes, lex) ← call flags _ (.pathNodes mode) lex.tail
        return (.mk component (.angle entries) :: nodes, lex)
    | none =>
      let (nodes, lex) ← call flags _ (.pathNodes mode) lex.tail
      return (.mk component params :: nodes, lex)

/-- `Parse_Path_GenericList`, behind the `<`. -/
def parsePathGenericList (lex : List Token) : Parsed (List PathParamEnt × List Token) :=
  if isGt (lookahead lex) then do
    let lex ← getCheckGt lex
    return ([], lex)
  else do
    let (ents, lex) ← call flags _ .genericEnt lex
    if lookahead lex = .op .comma then
      let (entries, lex) ← call flags _ .genericList lex.tail
      return (ents ++ entries, lex)
    else
      let lex ← getCheckGt lex
      return (ents, lex)

/-- The tokens that start a value in a generic list. -/
def isGenericValueStart : Token → Bool
  | .integer _ _ | .float _ _ => true
  | .op type => type ∈ [.rwordTrue, .rwordFalse, .dash, .braceOpen]
  | _ => false

def parseGenericEnt (lex : List Token) : Parsed (List PathParamEnt × List Token) :=
  match lex with
  | .lifetime name :: lex => .ok ([.lifetime name], lex)
  | .ident name :: .op .equal :: lex => do
    let (type, lex) ← call flags _ (.type false) lex
    return ([.assocEqual name type], lex)
  | .ident name :: .op .colon :: lex => call flags _ (.assocBounds name) lex
  | lex =>
    if isGenericValueStart (lookahead lex) then do
      let (expr, lex) ← call flags _ .expr13 lex
      return ([.value expr], lex)
    else do
      let (type, lex) ← call flags _ (.type true) lex
      match lex with
      | .op .equal :: lex => do
        let name ← assocName type
        let (type, lex) ← call flags _ (.type false) lex
        return ([.assocEqual name type], lex)
      | .op .colon :: lex => do
        let name ← assocName type
        call flags _ (.assocBounds name) lex
      | lex => return ([.type type], lex)
where
  /-- The name that was parsed as a type because of its generics. -/
  assocName : Ty → Parsed Name
    | .path (.relative [.mk name _]) => .ok name
    | _ => .error (.error "Unexpected = or : after non-trivial type path")

def parseAssocBounds (name : Name) (lex : List Token) : Parsed (List PathParamEnt × List Token) := do
  let (path, lex) ← call flags _ (.path .type) lex
  if lookahead lex = .op .plus then
    let (entries, lex) ← call flags _ (.assocBounds name) lex.tail
    return (.assocBound name path :: entries, lex)
  else return ([.assocBound name path], lex)

end Paths

section Exprs

/-- `CLEAR_PARSE_FLAGS_EXPR` -/
def clearFlags : ParseFlags := ⟨false, false⟩

def parseParenList (lex : List Token) : Parsed (List Expr × List Token) := do
  let lex ← getCheckTok .parenOpen lex
  call clearFlags _ (.exprList .parenClose) lex

/-- Expressions up to the token that closes their list. -/
def parseExprList (close : TokenType) (lex : List Token) : Parsed (List Expr × List Token) :=
  if lookahead lex = .op close then .ok ([], lex.tail)
  else do
    let (expr, lex) ← call flags _ .expr0 lex
    if lookahead lex = .op .comma then
      let (exprs, lex) ← call flags _ (.exprList close) lex.tail
      return (expr :: exprs, lex)
    else
      let lex ← getCheckTok close lex
      return ([expr], lex)

def assignOp : Token → Option AssignOp
  | .op .plusEqual => some .add
  | .op .dashEqual => some .sub
  | .op .starEqual => some .mul
  | .op .slashEqual => some .div
  | .op .percentEqual => some .mod
  | .op .ampEqual => some .and
  | .op .pipeEqual => some .or
  | .op .caretEqual => some .xor
  | .op .doubleGtEqual => some .shr
  | .op .doubleLtEqual => some .shl
  | .op .equal => some .none
  | _ => none

def parseExpr0 (lex : List Token) : Parsed (Expr × List Token) := do
  let flags := { flags with disallowCallOrIndex := false }
  let lex ← parseItemAttrs cfg flags lex
  let (rv, lex) ← call flags _ .expr1 lex
  match assignOp (lookahead lex) with
  | some op =>
    let (value, lex) ← call flags _ .expr0 lex.tail
    return (.assign op rv value, lex)
  | none => return (rv, lex)

def parseExpr1 (lex : List Token) : Parsed (Expr × List Token) := do
  let (dest, lex) ← call flags _ .expr1_1 lex
  if lookahead lex = .op .thinarrowLeft then
    let (val, lex) ← call flags _ .expr1 lex.tail
    return (.binOp .placeIn dest val, lex)
  else return (dest, lex)

/-- `Parse_IsTokValue`: the tokens that start the right end of a range. -/
def parseIsTokValue : Token → Bool
  | .ident _ | .integer _ _ | .float _ _ | .string _ _ => true
  | .op type => type ∈ [.doubleColon, .underscore, .rwordTrue, .rwordFalse, .rwordSelf, .rwordSuper,
      .rwordCrate, .rwordBox, .rwordIn, .parenOpen, .squareOpen, .pipe, .exclam, .dash, .star, .amp]
  | _ => false

/-- `..` and what may stand on its right. -/
def parseRangeEnd (left : Option Expr) (lex : List Token) : Parsed (Expr × List Token) :=
  if parseIsTokValue (lookahead lex) then do
    let (right, lex) ← call flags _ (.leftAssoc .expr1_2) lex
    return (.range left (some right), lex)
  else .ok (.range left none, lex)

/-- The tokens of inclusive ranges. -/
def isRangeInc (tok : Token) : Bool :=
  tok = .op .tripleDot || (cfg.targetverLeast129 && tok = .op .doubleDotEqual)

def parseExpr1_1 (lex : List Token) : Parsed (Expr × List Token) :=
  if isRangeInc cfg (lookahead lex) then do
    let (right, lex) ← call flags _ (.leftAssoc .expr1_2) lex.tail
    return (.rangeInc none right, lex)
  else if lookahead lex = .op .doubleDot then parseRangeEnd call flags none lex.tail
  else do
    let (left, lex) ← call flags _ (.leftAssoc .expr1_2) lex
    if lookahead lex = .op .doubleDot then parseRangeEnd call flags (some left) lex.tail
    else return (left, lex)

/-- What a `LEFTASSOC` loop does with an operator. -/
inductive LoopCase
  | rangeInc
  | binOp (op : BinOp)
  | cast
  deriving DecidableEq, Repr

/-- The cases of the `LEFTASSOC` loops. -/
def Level.cases : Level → Token → Option LoopCase
  | .expr1_2, tok => if isRangeInc cfg tok then some .rangeInc else none
  | .expr1_5, .op .doublePipe => some (.binOp .boolOr)
  | .expr2, .op .doubleAmp => some (.binOp .boolAnd)
  | .expr3, .op .doubleEqual => some (.binOp .cmpEqu)
  | .expr3, .op .exclamEqual => some (.binOp .cmpNequ)
  | .expr4, .op .lt => some (.binOp .cmpLt)
  | .expr4, .op .gt => some (.binOp .cmpGt)
  | .expr4, .op .lte => some (.binOp .cmpLte)
  | .expr4, .op .gte => some (.binOp .cmpGte)
  | .expr5, .op .pipe => some (.binOp .bitOr)
  | .expr6, .op .caret => some (.binOp .bitXor)
  | .expr7, .op .amp => some (.binOp .bitAnd)
  | .expr8, .op .doubleLt => some (.binOp .shl)
  | .expr8, .op .doubleGt => some (.binOp .shr)
  | .expr9, .op .plus => some (.binOp .add)
  | .expr9, .op .dash => some (.binOp .sub)
  | .expr10, .op .star => some (.binOp .multiply)
  | .expr10, .op .slash => some (.binOp .divide)
  | .expr10, .op .percent => some (.binOp .modulo)
  | .expr11, .op .rwordAs => some .cast
  | _, _ => none

/-- The function that a `LEFTASSOC` loop parses its operands with. -/
def Level.next : Level → Call Expr
  | .expr1_2 => .leftAssoc .expr1_5
  | .expr1_5 => .leftAssoc .expr2
  | .expr2 => .leftAssoc .expr3
  | .expr3 => .leftAssoc .expr4
  | .expr4 => .leftAssoc .expr5
  | .expr5 => .leftAssoc .expr6
  | .expr6 => .leftAssoc .expr7
  | .expr7 => .leftAssoc .expr8
  | .expr8 => .leftAssoc .expr9
  | .expr9 => .leftAssoc .expr10
  | .expr10 => .leftAssoc .expr11
  | .expr11 => .expr12

/-- `LEFTASSOC`: `Parse_Expr1_2`, and `Parse_Expr1_5` to `Parse_Expr11`. -/
def parseLeftAssoc (level : Level) (lex : List Token) : Parsed (Expr × List Token) := do
  let (rv, lex) ← call flags _ level.next lex
  call flags _ (.leftAssocLoop level rv) lex

def parseLeftAssocLoop (level : Level) (rv : Expr) (lex : List Token) : Parsed (Expr × List Token) :=
  match level.cases cfg (lookahead lex) with
  | some .rangeInc => do
    let (right, lex) ← call flags _ level.next lex.tail
    call flags _ (.leftAssocLoop level (.rangeInc (some rv) right)) lex
  | some (.binOp op) => do
    let (right, lex) ← call flags _ level.next lex.tail
    call flags _ (.leftAssocLoop level (.binOp op rv right)) lex
  | some .cast => do
    let (type, lex) ← call flags _ (.type false) lex.tail
    call flags _ (.leftAssocLoop level (.cast rv type)) lex
  | none => .ok (rv, lex)

def parseExpr12 (lex : List Token) : Parsed (Expr × List Token) := do
  let (rv, lex) ← call flags _ .expr13 lex
  if lookahead lex = .op .colon then
    let (type, lex) ← call flags _ (.type true) lex.tail
    return (.typeAnnotated rv type, lex)
  else return (rv, lex)

/-- The tokens that `Parse_Expr13` knows. -/
inductive Prefix
  | uniOp (op : UniOp)
  | placeIn
  | amp
  | doubleAmp
  deriving DecidableEq, Repr

def prefixOp : Token → Option Prefix
  | .op .dash => some (.uniOp .negate)
  | .op .exclam => some (.uniOp .invert)
  | .op .star => some (.uniOp .deref)
  | .op .rwordBox => some (.uniOp .box)
  | .op .rwordIn => some .placeIn
  | .op .doubleAmp => some .doubleAmp
  | .op .amp => some .amp
  | _ => none

def parseExpr13 (lex : List Token) : Parsed (Expr × List Token) :=
  match prefixOp (lookahead lex) with
  | some (.uniOp op) => operand op lex.tail
  | some .placeIn => cfg.others.exprVal flags lex
  | some .doubleAmp => borrow (.op .amp :: lex.tail)
  | some .amp => borrow lex.tail
  | none => call flags _ .exprFC lex
where
  operand (op : UniOp) (lex : List Token) : Parsed (Expr × List Token) := do
    let (value, lex) ← call flags _ .expr12 lex
    return (.uniOp op value, lex)
  /-- Behind the `&`. -/
  borrow (lex : List Token) : Parsed (Expr × List Token) :=
    let isRaw := lookahead lex = .ident (ascii ['r', 'a', 'w'])
    if isRaw ∧ lookahead lex.tail = .op .rwordMut then operand .rawBorrowMut lex.tail.tail
    else if isRaw ∧ lookahead lex.tail = .op .rwordConst then operand .rawBorrow lex.tail.tail
    else if lookahead lex = .op .rwordMut then operand .refMut lex.tail
    else operand .ref lex

def parseExprFC (lex : List Token) : Parsed (Expr × List Token) := do
  let (val, lex) ← call flags _ .exprVal lex
  call flags _ (.exprFCLoop val) lex

/-- The text of a number. -/
def fieldName (index : BitVec 128) : Name := ascii (Nat.toDigits 10 index.toNat)

def parseExprFCLoop (val : Expr) (lex : List Token) : Parsed (Expr × List Token) :=
  match lex with
  | .op .parenOpen :: rest =>
    if flags.disallowCallOrIndex then .ok (val, lex)
    else do
      let (args, lex) ← call flags _ .parenList (.op .parenOpen :: rest)
      call flags _ (.exprFCLoop (.callObject val args)) lex
  | .op .squareOpen :: rest =>
    if flags.disallowCallOrIndex then .ok (val, lex)
    else do
      let (index, lex) ← call flags _ .expr0 rest
      let lex ← getCheckTok .squareClose lex
      call flags _ (.exprFCLoop (.index val index)) lex
  | .op .qmark :: lex => call flags _ (.exprFCLoop (.uniOp .qmark val)) lex
  | .op .dot :: .ident name :: lex =>
    if lookahead lex = .op .parenOpen then do
      let (args, lex) ← call flags _ .parenList lex
      call flags _ (.exprFCLoop (.callMethod val (.mk name .empty) args)) lex
    else if lookahead lex = .op .doubleColon then do
      let lex ←
        if lookahead lex.tail = .op .doubleLt then pure (.op .lt :: lex.tail.tail)
        else getCheckTok .lt lex.tail
      let (entries, lex) ← call flags _ .genericList lex
      let (args, lex) ← call flags _ .parenList lex
      call flags _ (.exprFCLoop (.callMethod val (.mk name (.angle entries)) args)) lex
    else call flags _ (.exprFCLoop (.field val name)) lex
  | .op .dot :: .integer index _ :: lex =>
    call flags _ (.exprFCLoop (.field val (fieldName index))) lex
  | .op .dot :: .op .rwordAwait :: lex => call flags _ (.exprFCLoop (.uniOp .await val)) lex
  | .op .dot :: lex => .error (.unexpected (lookahead lex))
  | lex => .ok (val, lex)

/-- The tokens that start an expression which is parsed elsewhere. -/
def isOtherStart : Token → Bool
  | .lifetime _ => true
  | .op type => type ∈ [.braceOpen, .rwordReturn, .rwordYield, .rwordContinue, .rwordBreak, .rwordLoop,
      .rwordWhile, .rwordFor, .rwordTry, .rwordDo, .rwordMatch, .rwordIf, .rwordUnsafe, .rwordConst,
      .rwordStatic, .rwordMove, .pipe, .doublePipe]
  | _ => false

/-- The path `builtin`. -/
def isBuiltin : Path → Bool
  | .relative [.mk name (.angle [])] => name = ascii ['b', 'u', 'i', 'l', 't', 'i', 'n']
  | _ => false

/-- A path, and what is made of it. -/
def parseExprValPath (lex : List Token) : Parsed (Expr × List Token) := do
  let (path, lex) ← call flags _ (.path .expr) lex
  match lookahead lex with
  | .op .exclam => cfg.others.pathExpr flags path lex
  | .op .parenOpen =>
    let (args, lex) ← call flags _ .parenList lex
    return (.callPath path args, lex)
  | .op .braceOpen =>
    if flags.disallowStructLiteral then return (.namedValue path, lex)
    else cfg.others.pathExpr flags path lex
  | .op .hash =>
    if isBuiltin path then cfg.others.pathExpr flags path lex else return (.namedValue path, lex)
  | _ => return (.namedValue path, lex)

/-- `Parse_ExprVal_Inner`, behind the attributes. -/
def parseExprValInner (lex : List Token) : Parsed (Expr × List Token) :=
  match lex with
  | .op .rwordSelf :: rest =>
    if lookahead rest = .op .doubleColon then parseExprValPath cfg call flags lex
    else .ok (.namedValue (.localVar (ascii ['s', 'e', 'l', 'f'])), rest)
  | .op .doubleLt :: _ | .op .lt :: _ | .op .rwordCrate :: _ | .op .rwordSuper :: _
  | .op .doubleColon :: _ | .ident _ :: _ => parseExprValPath cfg call flags lex
  | .op .underscore :: lex => .ok (.wildcardPattern, lex)
  | .integer value datatype :: lex => .ok (.integer value datatype, lex)
  | .float text datatype :: lex => .ok (.float text datatype, lex)
  | .string value hygiene :: lex => .ok (.string value hygiene, lex)
  | .byteString value :: lex => .ok (.byteString value, lex)
  | .op .rwordTrue :: lex => .ok (.bool true, lex)
  | .op .rwordFalse :: lex => .ok (.bool false, lex)
  | .op .parenOpen :: .op .parenClose :: lex => .ok (.tuple [], lex)
  | .op .parenOpen :: lex => do
    let (rv, lex) ← call clearFlags _ .expr0 lex
    if lookahead lex = .op .comma then
      let (ents, lex) ← call clearFlags _ (.exprList .parenClose) lex.tail
      return (.tuple (rv :: ents), lex)
    else
      let lex ← getCheckTok .parenClose lex
      return (rv, lex)
  | .op .squareOpen :: .op .squareClose :: lex => .ok (.array [], lex)
  | .op .squareOpen :: lex => do
    let (first, lex) ← call clearFlags _ .expr0 lex
    if lookahead lex = .op .semicolon then
      let (size, lex) ← call clearFlags _ .expr0 lex.tail
      let lex ← getCheckTok .squareClose lex
      return (.arraySized first size, lex)
    else if lookahead lex = .op .comma then
      let (items, lex) ← call clearFlags _ (.exprList .squareClose) lex.tail
      return (.array (first :: items), lex)
    else
      let lex ← getCheckTok .squareClose lex
      return (.array [first], lex)
  | lex =>
    if isOtherStart (lookahead lex) then cfg.others.exprVal flags lex
    else .error (.unexpected (lookahead lex))

def parseExprVal (lex : List Token) : Parsed (Expr × List Token) := do
  let lex ← parseItemAttrs cfg flags lex
  parseExprValInner cfg call flags lex

end Exprs

section Calls

/-- One call, with the calls that it makes. -/
@[simp] def parseCall (call : Caller) : Caller := fun flags _ c =>
  match c with
  | .hrb => parseHRB cfg call flags
  | .hrbOpt => parseHRBOpt call flags
  | .type allowTraitList => parseType cfg call flags allowTraitList
  | .typeFn hrbs => parseTypeFn call flags hrbs
  | .typeFnArgs => parseTypeFnArgs call flags
  | .typePath hrbs allowTraitList => parseTypePath cfg call flags hrbs allowTraitList
  | .typePathList traits lifetimes => parseTypePathList call flags traits lifetimes
  | .typeTraitObject hrbs traits lifetimes =>
    parseTypeTraitObject call flags hrbs traits lifetimes
  | .typeErased traits maybeTraits lifetimes =>
    parseTypeErasedType call flags traits maybeTraits lifetimes
  | .typeTuple => parseTypeTuple call flags
  | .path mode => parsePath cfg call flags mode
  | .pathAbs mode => parsePathAbs call flags mode
  | .pathNodes mode => parsePathNodes call flags mode
  | .pathTypeParams => parsePathTypeParams call flags
  | .parenTypes => parseParenTypes call flags
  | .genericList => parsePathGenericList call flags
  | .genericEnt => parseGenericEnt call flags
  | .assocBounds name => parseAssocBounds call flags name
  | .parenList => parseParenList call
  | .exprList close => parseExprList call flags close
  | .expr0 => parseExpr0 cfg call flags
  | .expr1 => parseExpr1 call flags
  | .expr1_1 => parseExpr1_1 cfg call flags
  | .leftAssoc level => parseLeftAssoc call flags level
  | .leftAssocLoop level rv => parseLeftAssocLoop cfg call flags level rv
  | .expr12 => parseExpr12 call flags
  | .expr13 => parseExpr13 cfg call flags
  | .exprFC => parseExprFC call flags
  | .exprFCLoop val => parseExprFCLoop call flags val
  | .exprVal => parseExprVal cfg call flags

/-- The parser, with calls nested no deeper than `depth`. -/
def parse : (depth : ℕ) → Caller
  | 0 => fun _ _ _ _ => .error .depth
  | depth + 1 => parseCall cfg (parse depth)

end Calls

end Mrustc.Parse
