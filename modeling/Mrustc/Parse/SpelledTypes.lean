import Mrustc.Parse.Spelling
import Mrustc.Depth.Settles

/-! # Types and paths are parsed as they are spelled

What each production of the spelling of types, bounds, paths and generic arguments gives for the
parse functions that read it.
-/

namespace Mrustc.Parse
open Ast Depth

/-- From some depth on the call returns the value and leaves the rest, if `ok` holds; otherwise it
never returns. -/
abbrev Parses (cfg : ParseConfig) (flags : ParseFlags) (ok : Bool) {α : Type} (c : Call α)
    (ts : List Token) (v : α) (r : List Token) : Prop :=
  Returns ok (fun n => parse cfg n flags α c ts) (v, r)

variable {cfg : ParseConfig} {call : Caller} {flags : ParseFlags} {b ok ok' ok'' : Bool}
variable {ts us vs r : List Token} {tok : Token}

theorem settles_parse {α : Type} {bad : α × List Token → Prop} {c : Call α} {v : α × List Token}
    (h : Settles bad ok (fun n => parseCall cfg (parse cfg n) flags α c ts) v) :
    Settles bad ok (fun n => parse cfg n flags α c ts) v :=
  h.succ fun _ => rfl

@[simp] theorem getCheckTok_op (type : TokenType) : getCheckTok type (.op type :: ts) = .ok ts := by
  simp [getCheckTok]

@[simp] theorem ok_bind {α β : Type} (a : α) (k : α → Parsed β) : (Except.ok a >>= k) = k a := rfl

@[simp] theorem pure_eq_ok {α : Type} (a : α) : (pure a : Parsed α) = .ok a := rfl

@[simp] theorem error_bind {α β : Type} (e : ParseError) (k : α → Parsed β) :
    (Except.error e >>= k) = .error e := rfl

section Stops

/-- A path that ends in a name would go on with these. -/
def isNodeSecond (tok : Token) : Bool :=
  tok ∈ [Token.op .doubleColon, .op .lt, .op .doubleLt, .op .thinarrowLeft, .op .parenOpen]

/-- A path is not continued. -/
def pathStops : GenericMode → Token → Bool
  | .expr, tok => tok ≠ .op .doubleColon
  | .type, tok => !isNodeSecond tok && tok ≠ .op .thinarrow && tok ≠ .op .exclam

/-- A type is not continued, by bounds neither where these are allowed. -/
def typeStops (bounds : Bool) (tok : Token) : Bool :=
  pathStops .type tok && !(bounds && tok = .op .plus)

/-- A generic argument is not continued. -/
def entStops (tok : Token) : Bool := tok = .op .comma || isGt tok

def isPathStart : Token → Bool
  | .ident _ => true
  | .op type => type ∈ [.doubleColon, .lt, .doubleLt, .rwordSelf, .rwordSuper, .rwordCrate]
  | _ => false

def isTypeStart : Token → Bool
  | .ident _ => true
  | .op type => type ∈ [.doubleColon, .lt, .doubleLt, .rwordSelf, .rwordSuper, .rwordCrate,
      .underscore, .exclam, .parenOpen, .squareOpen, .amp, .doubleAmp, .star, .rwordFor, .rwordUnsafe,
      .rwordExtern, .rwordFn, .rwordDyn]
  | _ => false

def isName : Token → Bool
  | .ident _ => true
  | .op .underscore => true
  | _ => false

/-- The name in front is a type, not the name of one. -/
def isTypeSecond (tok : Token) : Bool := tok ≠ .op .colon && tok ≠ .op .equal

/-- Behind a name that starts the tokens there is the rest, or a token that is allowed. -/
def FollowsName (allowed : Token → Bool) (ts r : List Token) : Prop :=
  ∀ tok us, ts = tok :: us → isName tok = true → us = r ∨ allowed (lookahead us) = true

theorem FollowsName.of_start {allowed : Token → Bool} (h : isName tok = false) :
    FollowsName allowed (tok :: ts) r := by
  rintro _ us h' hname
  cases h'
  rw [h] at hname
  cases hname

theorem FollowsName.mono {p q : Token → Bool} (h : FollowsName p ts r)
    (hpq : ∀ tok, p tok = true → q tok = true) : FollowsName q ts r := by
  intro tok us hts hname
  exact (h tok us hts hname).imp_right (hpq _)

/-- Two tokens differ if a property tells them apart. -/
theorem ne_of_start {p : Token → Bool} {tok tok' : Token} (h : p tok = true)
    (h' : p tok' = false) : tok ≠ tok' := by
  intro he
  rw [he, h'] at h
  cases h

theorem isTypeStart_of_isPathStart (h : isPathStart tok = true) : isTypeStart tok = true := by
  cases tok with
  | op type =>
    simp only [isPathStart, isTypeStart, decide_eq_true_eq, List.mem_cons] at h ⊢
    tauto
  | ident name => rfl
  | _ => cases h

/-- The tokens that start an expression and that `parseIsTokValue` does not know. -/
def isUnknownValue : Token → Bool
  | .byteString _ => true
  | .op type => type ∈ [.lt, .doubleLt, .doubleAmp]
  | _ => false

/-- What is returned when the right end of a range is left behind. -/
def LeavesValue (v : Expr × List Token) : Prop := isUnknownValue (lookahead v.2) = true

/-- A value that is left behind does not close anything. -/
theorem getCheckTok_leavesValue {v : Expr × List Token} {type : TokenType}
    (h : LeavesValue v) (htype : isUnknownValue (.op type) = false) :
    getCheckTok type v.2 = .error (.unexpected (lookahead v.2)) :=
  if_neg (ne_of_start h htype)

end Stops

section Binders

theorem hrb_parses (name : Name) (names : List Name) : Parses cfg flags true .hrb
    (.lifetime name :: (names.flatMap (fun name => [.op .comma, .lifetime name]) ++ .op .gt :: r))
    (name :: names) r := by
  induction names generalizing name with
  | nil =>
    apply settles_parse
    exact settles_ok fun _ => by simp [parseCall, parseHRB, parseItemAttrs, pure, Except.pure, bind,
      Except.bind]
  | cons next names ih =>
    apply settles_parse
    simp only [parseCall, parseHRB, parseItemAttrs]
    simp
    exact (ih next).map fun _ => rfl

theorem hrbOpt_parses (hrbs : List Name) (h : lookahead ts ≠ .op .rwordFor) :
    Parses cfg flags true .hrbOpt (hrbTokens hrbs ++ ts) hrbs ts := by
  apply settles_parse
  cases hrbs with
  | nil => exact settles_ok fun _ => by simp [parseCall, parseHRBOpt, hrbTokens, h]
  | cons name names =>
    simp [parseCall, parseHRBOpt, hrbTokens]
    exact hrb_parses name names

end Binders

section Types

variable {type : Ty}

theorem parseType_reference (lifetime : Option Name) (isMut : Bool)
    (h : isTypeStart (lookahead ts) = true) :
    parseType cfg call flags b (.op .amp :: (lifetimeTokens lifetime ++ (mutTokens isMut ++ ts))) =
      (do
        let (inner, lex) ← call flags _ (.type false) ts
        return (.reference lifetime isMut inner, lex)) := by
  cases ts with
  | nil => cases h
  | cons tok ts =>
    have hlifetime (name : Name) : tok ≠ .lifetime name := ne_of_start h rfl
    have hmut : tok ≠ .op .rwordMut := ne_of_start h rfl
    cases lifetime <;> cases isMut <;> simp [parseType, parseType.reference, isDyn,
      isTypePathStart, lifetimeTokens, mutTokens, hlifetime, hmut]

theorem paren_parses (hts : isTypeStart (lookahead ts) = true)
    (h : Parses cfg flags ok (.type true) ts type (.op .parenClose :: r)) :
    Parses cfg flags ok (.type b) (.op .parenOpen :: ts) type r := by
  apply settles_parse
  simp only [parseCall, parseType_paren (ne_of_start hts rfl)]
  exact h.map fun _ => rfl

theorem reference_parses (lifetime : Option Name) (isMut : Bool)
    (hts : isTypeStart (lookahead ts) = true) (h : Parses cfg flags ok (.type false) ts type r) :
    Parses cfg flags ok (.type b)
      (.op .amp :: (lifetimeTokens lifetime ++ (mutTokens isMut ++ ts)))
      (.reference lifetime isMut type) r := by
  apply settles_parse
  simp only [parseCall, parseType_reference lifetime isMut hts]
  exact h.map fun _ => rfl

theorem refRef_parses (h : Parses cfg flags ok (.type false) (.op .amp :: ts) type r) :
    Parses cfg flags ok (.type b) (.op .doubleAmp :: ts) (.reference none false type) r := by
  apply settles_parse
  simp [parseCall, parseType, parseType.reference, isDyn, isTypePathStart]
  exact h.map fun _ => rfl

theorem pointer_parses (isMut : Bool) (h : Parses cfg flags ok (.type false) ts type r) :
    Parses cfg flags ok (.type b)
      (.op .star :: .op (if isMut then .rwordMut else .rwordConst) :: ts)
      (.pointer isMut type) r := by
  apply settles_parse
  cases isMut <;> simp [parseCall, parseType, isDyn, isTypePathStart] <;>
    exact h.map fun _ => rfl

theorem unsizedArray_parses (h : Parses cfg flags ok (.type true) ts type (.op .squareClose :: r)) :
    Parses cfg flags ok (.type b) (.op .squareOpen :: ts) (.unsizedArray type) r := by
  apply settles_parse
  simp [parseCall, parseType, isDyn, isTypePathStart]
  exact h.map fun _ => rfl

theorem inferredArray_parses (h : Parses cfg flags ok (.type true) ts type
      (.op .semicolon :: .op .underscore :: .op .squareClose :: r)) :
    Parses cfg flags ok (.type b) (.op .squareOpen :: ts) (.sizedArray type none) r := by
  apply settles_parse
  simp [parseCall, parseType, isDyn, isTypePathStart]
  exact h.map fun _ => rfl

theorem sizedArray_parses {size : Expr} (htok : tok ≠ .op .underscore)
    (h : Parses cfg flags ok (.type true) ts type (.op .semicolon :: tok :: us))
    (hsize : Settles LeavesValue ok' (fun n => parse cfg n flags _ .expr0 (tok :: us))
      (size, .op .squareClose :: r)) :
    Parses cfg flags (ok && ok') (.type b) (.op .squareOpen :: ts) (.sizedArray type (some size)) r := by
  apply settles_parse
  simp [parseCall, parseType, isDyn, isTypePathStart]
  refine h.bind fun _ => ?_
  simp [htok]
  refine hsize.map (fun _ v hv w hw => ?_) fun _ => by simp
  rw [getCheckTok_leavesValue hv rfl] at hw
  cases hw

theorem tuple_parses {types : List Ty} (hts : isTypeStart (lookahead ts) = true)
    (h : Parses cfg flags ok (.type true) ts type (.op .comma :: us))
    (hs : Parses cfg flags ok' .typeTuple (.op .comma :: us) types r) :
    Parses cfg flags (ok && ok') (.type b) (.op .parenOpen :: ts) (.tuple (type :: types)) r := by
  apply settles_parse
  simp only [parseCall, parseType_paren (ne_of_start hts rfl)]
  refine h.bind fun _ => ?_
  simp
  exact hs.map fun _ => rfl

/-- The tokens in front of `fn`. -/
def fnTokens (isUnsafe : Bool) (abi : Name) (ts : List Token) : List Token :=
  unsafeTokens isUnsafe ++ (abiTokens abi ++ .op .rwordFn :: .op .parenOpen :: ts)

theorem parseTypeFn_tokens (hrbs : List Name) (isUnsafe : Bool) (abi : Name) :
    parseTypeFn call flags hrbs (fnTokens isUnsafe abi ts) = (do
      let ((args, isVariadic), lex) ← call flags _ .typeFnArgs ts
      let lex ← getCheckTok .parenClose lex
      if lookahead lex = .op .thinarrow then
        let (ret, lex) ← call flags _ (.type false) lex.tail
        return (.function hrbs isUnsafe abi args isVariadic ret, lex)
      else return (.function hrbs isUnsafe abi args isVariadic (.tuple []), lex)) := by
  by_cases habi : abi = [] <;> cases isUnsafe <;>
    simp [parseTypeFn, fnTokens, unsafeTokens, abiTokens, parseAbi, habi]

theorem typeFn_parses {args : List Ty} {isVariadic : Bool} (hrbs : List Name) (isUnsafe : Bool)
    (abi : Name) (hr : lookahead r ≠ .op .thinarrow)
    (h : Parses cfg flags ok .typeFnArgs ts (args, isVariadic) (.op .parenClose :: r)) :
    Parses cfg flags ok (.typeFn hrbs) (fnTokens isUnsafe abi ts)
      (.function hrbs isUnsafe abi args isVariadic (.tuple [])) r := by
  apply settles_parse
  simp only [parseCall, parseTypeFn_tokens]
  exact h.map fun _ => by simp [hr]

theorem typeFnRet_parses {args : List Ty} {ret : Ty} {isVariadic : Bool} (hrbs : List Name)
    (isUnsafe : Bool) (abi : Name) (h : Parses cfg flags ok .typeFnArgs ts (args, isVariadic)
      (.op .parenClose :: .op .thinarrow :: us))
    (hret : Parses cfg flags ok' (.type false) us ret r) :
    Parses cfg flags (ok && ok') (.typeFn hrbs) (fnTokens isUnsafe abi ts)
      (.function hrbs isUnsafe abi args isVariadic ret) r := by
  apply settles_parse
  simp only [parseCall, parseTypeFn_tokens]
  refine h.bind fun _ => ?_
  simp
  exact hret.map fun _ => rfl

/-- A function type is the only one with higher-ranked lifetimes. -/
theorem function_parses (hrbs : List Name) (isUnsafe : Bool) (abi : Name)
    (h : Parses cfg flags ok (.typeFn hrbs) (fnTokens isUnsafe abi ts) type r) :
    Parses cfg flags ok (.type b) (hrbTokens hrbs ++ fnTokens isUnsafe abi ts) type r := by
  have hts : lookahead (fnTokens isUnsafe abi ts) ∈
      [Token.op .rwordUnsafe, .op .rwordExtern, .op .rwordFn] := by
    by_cases habi : abi = [] <;> cases isUnsafe <;> simp [fnTokens, unsafeTokens, abiTokens, habi]
  apply settles_parse
  cases hrbs with
  | nil =>
    by_cases habi : abi = [] <;> cases isUnsafe <;>
      simpa [parseCall, parseType, isDyn, isTypePathStart, hrbTokens, fnTokens, unsafeTokens,
        abiTokens, habi] using h
  | cons name names =>
    rw [List.mem_cons, List.mem_cons, List.mem_singleton] at hts
    have hfor : lookahead (fnTokens isUnsafe abi ts) ≠ .op .rwordFor := by
      intro he
      simp [he] at hts
    have hhrb : Parses cfg flags true .hrbOpt _ (name :: names) _ :=
      hrbOpt_parses (name :: names) hfor
    simp [parseCall, parseType, isDyn, isTypePathStart, hrbTokens] at hhrb ⊢
    refine hhrb.then ?_
    simpa [hts] using h

theorem typePathList_stops {traits : List TraitPath} {lifetimes : List (Option Name)}
    (hr : lookahead r ≠ .op .plus) :
    Parses cfg flags true (.typePathList traits lifetimes) r (traits, lifetimes) r := by
  apply settles_parse
  refine settles_ok fun _ => ?_
  cases r with
  | nil => rfl
  | cons tok r =>
    rw [lookahead_cons] at hr
    simp [parseCall, parseTypePathList, hr]

theorem typePath_parses {path : Path} (hr : typeStops b (lookahead r) = true)
    (h : Parses cfg flags ok (.path .type) ts path r) :
    Parses cfg flags ok (.typePath [] b) ts (.path path) r := by
  simp [typeStops, pathStops] at hr
  apply settles_parse
  simp only [parseCall, parseTypePath]
  rw [← Bool.and_true ok]
  refine h.bind fun _ => ?_
  cases b with
  | false => simpa [hr] using settles_ok fun _ => rfl
  | true =>
    simp only [hr]
    exact (typePathList_stops (by simpa using hr.2)).map fun _ => by simp

theorem path_parses {path : Path} (hts : isPathStart (lookahead ts) = true)
    (hdyn : isDyn cfg (lookahead ts) = false) (hr : typeStops b (lookahead r) = true)
    (h : Parses cfg flags ok (.path .type) ts path r) :
    Parses cfg flags ok (.type b) ts (.path path) r := by
  apply settles_parse
  by_cases hstart : isTypePathStart (lookahead ts) = true
  · simp only [parseCall, parseType, hdyn, hstart]
    exact typePath_parses hr h
  · have hlt : lookahead ts = .op .lt ∨ lookahead ts = .op .doubleLt := by
      cases hl : lookahead ts <;> simp [hl, isPathStart, isTypePathStart] at hts hstart ⊢
      tauto
    cases ts with
    | nil => cases hts
    | cons tok ts =>
      rw [lookahead_cons] at hlt
      obtain rfl | rfl := hlt <;> simp [parseCall, parseType, isDyn, isTypePathStart] <;>
        exact h.map fun _ => rfl

theorem typeTuple_cons {types : List Ty} (hts : isTypeStart (lookahead ts) = true)
    (h : Parses cfg flags ok (.type true) ts type us)
    (hs : Parses cfg flags ok' .typeTuple us types r) :
    Parses cfg flags (ok && ok') .typeTuple (.op .comma :: ts) (type :: types) r := by
  apply settles_parse
  cases ts with
  | nil => cases hts
  | cons tok ts =>
    have htok : tok ≠ .op .parenClose := ne_of_start hts rfl
    simp [parseCall, parseTypeTuple, htok]
    refine h.bind fun _ => ?_
    exact hs.map fun _ => rfl

theorem parenTypes_last (hts : isTypeStart (lookahead ts) = true)
    (h : Parses cfg flags ok (.type true) ts type (.op .parenClose :: r)) :
    Parses cfg flags ok .parenTypes ts [type] r := by
  apply settles_parse
  simp only [parseCall, parseParenTypes, if_neg (show lookahead ts ≠ .op .parenClose from ne_of_start hts rfl)]
  exact h.map fun _ => rfl

theorem parenTypes_cons {types : List Ty} (hts : isTypeStart (lookahead ts) = true)
    (h : Parses cfg flags ok (.type true) ts type (.op .comma :: us))
    (hs : Parses cfg flags ok' .parenTypes us types r) :
    Parses cfg flags (ok && ok') .parenTypes ts (type :: types) r := by
  apply settles_parse
  simp only [parseCall, parseParenTypes, if_neg (show lookahead ts ≠ .op .parenClose from ne_of_start hts rfl)]
  refine h.bind fun _ => ?_
  exact hs.map fun _ => rfl

theorem skipArgName_eq (h : FollowsName isTypeSecond ts r) (hr : lookahead r ≠ .op .colon) :
    skipArgName ts = ts := by
  have hcolon {tok : Token} {us : List Token} (hts : ts = tok :: .op .colon :: us)
      (hname : isName tok = true) : False := by
    obtain rfl | hallowed := h _ _ hts hname
    · exact hr rfl
    · simp [isTypeSecond] at hallowed
  unfold skipArgName
  split
  · exact (hcolon rfl rfl).elim
  · exact (hcolon rfl rfl).elim
  · rfl

theorem typeFnArgs_last (hts : isTypeStart (lookahead ts) = true)
    (hname : FollowsName isTypeSecond ts (.op .parenClose :: r))
    (h : Parses cfg flags ok (.type true) ts type (.op .parenClose :: r)) :
    Parses cfg flags ok .typeFnArgs ts ([type], false) (.op .parenClose :: r) := by
  apply settles_parse
  have hclose : lookahead ts ≠ .op .parenClose := ne_of_start hts rfl
  have hdots : lookahead ts ≠ .op .tripleDot := ne_of_start hts rfl
  simp only [parseCall, parseTypeFnArgs, if_neg hclose, if_neg hdots, skipArgName_eq hname (by simp)]
  exact h.map fun _ => rfl

theorem typeFnArgs_cons {types : List Ty} {isVariadic : Bool} (hts : isTypeStart (lookahead ts) = true)
    (hname : FollowsName isTypeSecond ts (.op .comma :: us))
    (h : Parses cfg flags ok (.type true) ts type (.op .comma :: us))
    (hs : Parses cfg flags ok' .typeFnArgs us (types, isVariadic) r) :
    Parses cfg flags (ok && ok') .typeFnArgs ts (type :: types, isVariadic) r := by
  apply settles_parse
  have hclose : lookahead ts ≠ .op .parenClose := ne_of_start hts rfl
  have hdots : lookahead ts ≠ .op .tripleDot := ne_of_start hts rfl
  simp only [parseCall, parseTypeFnArgs, if_neg hclose, if_neg hdots, skipArgName_eq hname (by simp)]
  refine h.bind fun _ => ?_
  exact hs.map fun _ => rfl

end Types

section Spelled

/-- What a spelled path is parsed to. -/
structure PathParses (cfg : ParseConfig) (mode : GenericMode) (ok : Bool) (path : Path)
    (ts r : List Token) : Prop where
  start : isPathStart (lookahead ts) = true
  second : FollowsName isNodeSecond ts r
  parses (flags : ParseFlags) (hr : pathStops mode (lookahead r) = true) :
    Parses cfg flags ok (.path mode) ts path r

/-- What a spelled type is parsed to. -/
structure TypeParses (cfg : ParseConfig) (b ok : Bool) (type : Ty) (ts r : List Token) : Prop where
  start : isTypeStart (lookahead ts) = true
  second : FollowsName isTypeSecond ts r
  parses (flags : ParseFlags) (hr : typeStops b (lookahead r) = true) :
    Parses cfg flags ok (.type b) ts type r

/-- What types up to a closing parenthesis are parsed to: as the arguments of `fn`, and unless they
are variadic as those of `Fn` and as the ones behind the first of a tuple. -/
structure TypesParse (cfg : ParseConfig) (isVariadic ok : Bool) (types : List Ty)
    (ts r : List Token) : Prop where
  fnArgs (flags : ParseFlags) :
    Parses cfg flags ok .typeFnArgs ts (types, isVariadic) (.op .parenClose :: r)
  parens (flags : ParseFlags) (hv : isVariadic = false) : Parses cfg flags ok .parenTypes ts types r
  tuple (flags : ParseFlags) (hv : isVariadic = false) :
    Parses cfg flags ok .typeTuple (.op .comma :: ts) types r

/-- What spelled bounds are parsed to, with their first higher-ranked lifetimes on their own, or
behind a `+`. -/
structure BoundsParse (cfg : ParseConfig) (ok : Bool) (traits : List TraitPath)
    (lifetimes : List (Option Name)) (ts r : List Token) : Prop where
  second : isTypeSecond (lookahead ts) = true
  first (flags : ParseFlags) (hr : typeStops true (lookahead r) = true) :
    ∃ hrbs us, Parses cfg flags true .hrbOpt ts hrbs us ∧
      Parses cfg flags ok (.typeTraitObject hrbs [] []) us
        (.traitObject traits (objectLifetimes lifetimes)) r
  more (flags : ParseFlags) (hr : typeStops true (lookahead r) = true) (ts' : List TraitPath)
    (ls : List (Option Name)) : Parses cfg flags ok (.typeTraitObject [] ts' ls) ts
      (.traitObject (ts' ++ traits) (objectLifetimes (ls ++ lifetimes))) r

end Spelled

section TypeProductions

variable {type ret : Ty} {types args : List Ty} {size : Expr} {isVariadic : Bool}

theorem TypeParses.any : TypeParses cfg b true .any (.op .underscore :: r) r where
  start := rfl
  second := by
    rintro _ _ ⟨rfl, rfl⟩ -
    exact .inl rfl
  parses _ _ := settles_parse (settles_ok fun _ => by simp [parseCall, parseType, isDyn, isTypePathStart])

theorem TypeParses.bang : TypeParses cfg b true .bang (.op .exclam :: r) r where
  start := rfl
  second := .of_start rfl
  parses _ _ := settles_parse (settles_ok fun _ => by simp [parseCall, parseType, isDyn, isTypePathStart])

theorem TypeParses.paren (h : TypeParses cfg true ok type ts (.op .parenClose :: r)) :
    TypeParses cfg b ok type (.op .parenOpen :: ts) r where
  start := rfl
  second := .of_start rfl
  parses flags _ := paren_parses h.start (h.parses flags rfl)

theorem TypeParses.path {path : Path} (h : PathParses cfg .type ok path ts r)
    (hdyn : isDyn cfg (lookahead ts) = false) : TypeParses cfg b ok (.path path) ts r where
  start := isTypeStart_of_isPathStart h.start
  second := h.second.mono fun tok htok => by
    have hcolon : tok ≠ .op .colon := ne_of_start htok rfl
    have hequal : tok ≠ .op .equal := ne_of_start htok rfl
    simp [isTypeSecond, hcolon, hequal]
  parses flags hr := path_parses h.start hdyn hr (h.parses flags (by simp_all [typeStops]))

theorem typeStops_weaken (hr : typeStops b tok = true) : typeStops false tok = true := by
  simp_all [typeStops]

theorem TypeParses.reference (lifetime : Option Name) (isMut : Bool)
    (h : TypeParses cfg false ok type ts r) : TypeParses cfg b ok (.reference lifetime isMut type)
      (.op .amp :: (lifetimeTokens lifetime ++ (mutTokens isMut ++ ts))) r where
  start := rfl
  second := .of_start rfl
  parses flags hr :=
    reference_parses lifetime isMut h.start (h.parses flags (typeStops_weaken hr))

theorem TypeParses.refRef (h : TypeParses cfg false ok type (.op .amp :: ts) r) :
    TypeParses cfg b ok (.reference none false type) (.op .doubleAmp :: ts) r where
  start := rfl
  second := .of_start rfl
  parses flags hr := refRef_parses (h.parses flags (typeStops_weaken hr))

theorem TypeParses.pointer (isMut : Bool) (h : TypeParses cfg false ok type ts r) :
    TypeParses cfg b ok (.pointer isMut type)
      (.op .star :: .op (if isMut then .rwordMut else .rwordConst) :: ts) r where
  start := rfl
  second := .of_start rfl
  parses flags hr := pointer_parses isMut (h.parses flags (typeStops_weaken hr))

theorem TypeParses.sizedArray (htok : tok ≠ .op .underscore)
    (h : TypeParses cfg true ok type ts (.op .semicolon :: tok :: us))
    (hsize : ∀ flags, Settles LeavesValue ok' (fun n => parse cfg n flags _ .expr0 (tok :: us))
      (size, .op .squareClose :: r)) :
    TypeParses cfg b (ok && ok') (.sizedArray type (some size)) (.op .squareOpen :: ts) r where
  start := rfl
  second := .of_start rfl
  parses flags _ := sizedArray_parses htok (h.parses flags rfl) (hsize flags)

theorem TypeParses.inferredArray (h : TypeParses cfg true ok type ts
      (.op .semicolon :: .op .underscore :: .op .squareClose :: r)) :
    TypeParses cfg b ok (.sizedArray type none) (.op .squareOpen :: ts) r where
  start := rfl
  second := .of_start rfl
  parses flags _ := inferredArray_parses (h.parses flags rfl)

theorem TypeParses.unsizedArray (h : TypeParses cfg true ok type ts (.op .squareClose :: r)) :
    TypeParses cfg b ok (.unsizedArray type) (.op .squareOpen :: ts) r where
  start := rfl
  second := .of_start rfl
  parses flags _ := unsizedArray_parses (h.parses flags rfl)

theorem TypeParses.unit :
    TypeParses cfg b true (.tuple []) (.op .parenOpen :: .op .parenClose :: r) r where
  start := rfl
  second := .of_start rfl
  parses _ _ := settles_parse (settles_ok fun _ => by simp [parseCall, parseType, isDyn, isTypePathStart])

theorem TypesParse.nil : TypesParse cfg false true [] (.op .parenClose :: r) r where
  fnArgs _ := settles_parse (settles_ok fun _ => rfl)
  parens _ _ := settles_parse (settles_ok fun _ => rfl)
  tuple _ _ := settles_parse (settles_ok fun _ => rfl)

theorem TypesParse.variadic :
    TypesParse cfg true true [] (.op .tripleDot :: .op .parenClose :: r) r where
  fnArgs _ := settles_parse (settles_ok fun _ => rfl)
  parens _ h := by cases h
  tuple _ h := by cases h

theorem TypesParse.last (h : TypeParses cfg true ok type ts (.op .parenClose :: r)) :
    TypesParse cfg false ok [type] ts r where
  fnArgs flags := typeFnArgs_last h.start h.second (h.parses flags rfl)
  parens flags _ := parenTypes_last h.start (h.parses flags rfl)
  tuple flags _ := by
    have hs : Parses cfg flags true .typeTuple (.op .parenClose :: r) [] r :=
      settles_parse (settles_ok fun _ => rfl)
    have := typeTuple_cons h.start (h.parses flags rfl) hs
    rwa [Bool.and_true] at this

theorem TypesParse.cons (h : TypeParses cfg true ok type ts (.op .comma :: us))
    (hs : TypesParse cfg isVariadic ok' types us r) :
    TypesParse cfg isVariadic (ok && ok') (type :: types) ts r where
  fnArgs flags := typeFnArgs_cons h.start h.second (h.parses flags rfl) (hs.fnArgs flags)
  parens flags hv := parenTypes_cons h.start (h.parses flags rfl) (hs.parens flags hv)
  tuple flags hv := typeTuple_cons h.start (h.parses flags rfl) (hs.tuple flags hv)

theorem TypeParses.tuple (h : TypeParses cfg true ok type ts (.op .comma :: us))
    (hs : TypesParse cfg false ok' types us r) :
    TypeParses cfg b (ok && ok') (.tuple (type :: types)) (.op .parenOpen :: ts) r where
  start := rfl
  second := .of_start rfl
  parses flags _ := tuple_parses h.start (h.parses flags rfl) (hs.tuple flags rfl)

theorem isTypeStart_fnTokens (hrbs : List Name) (isUnsafe : Bool) (abi : Name) :
    ∃ type us, hrbTokens hrbs ++ fnTokens isUnsafe abi ts = .op type :: us ∧
      isTypeStart (.op type) = true ∧ isName (.op type) = false := by
  cases hrbs with
  | nil =>
    by_cases habi : abi = [] <;> cases isUnsafe <;>
      simp [hrbTokens, fnTokens, unsafeTokens, abiTokens, habi, isTypeStart, isName]
  | cons name names => simp [hrbTokens, isTypeStart, isName]

theorem TypeParses.fn (hrbs : List Name) (isUnsafe : Bool) (abi : Name)
    (h : ∀ flags, typeStops b (lookahead r) = true →
      Parses cfg flags ok (.typeFn hrbs) (fnTokens isUnsafe abi ts) type r) :
    TypeParses cfg b ok type (hrbTokens hrbs ++ fnTokens isUnsafe abi ts) r where
  start := by
    obtain ⟨tok, us, he, hstart, -⟩ := @isTypeStart_fnTokens ts hrbs isUnsafe abi
    rwa [he]
  second := by
    obtain ⟨tok, us, he, -, hname⟩ := @isTypeStart_fnTokens ts hrbs isUnsafe abi
    rw [he]
    exact .of_start hname
  parses flags hr := function_parses hrbs isUnsafe abi (h flags hr)

theorem TypeParses.function (hrbs : List Name) (isUnsafe : Bool) (abi : Name)
    (h : TypesParse cfg isVariadic ok args ts r) :
    TypeParses cfg b ok (.function hrbs isUnsafe abi args isVariadic (.tuple []))
      (hrbTokens hrbs ++ fnTokens isUnsafe abi ts) r :=
  .fn hrbs isUnsafe abi fun flags hr =>
    typeFn_parses hrbs isUnsafe abi (by simp_all [typeStops, pathStops]) (h.fnArgs flags)

theorem TypeParses.functionRet (hrbs : List Name) (isUnsafe : Bool) (abi : Name)
    (h : TypesParse cfg isVariadic ok args ts (.op .thinarrow :: us))
    (hret : TypeParses cfg false ok' ret us r) :
    TypeParses cfg b (ok && ok') (.function hrbs isUnsafe abi args isVariadic ret)
      (hrbTokens hrbs ++ fnTokens isUnsafe abi ts) r :=
  .fn hrbs isUnsafe abi fun flags hr => typeFnRet_parses hrbs isUnsafe abi (h.fnArgs flags)
    (hret.parses flags (typeStops_weaken hr))

end TypeProductions

section Bounds

variable {hrbs : List Name} {path : Path} {traits ts' : List TraitPath} {v : Ty × List Token}
variable {lifetimes ls : List (Option Name)}

theorem traitObject_path (hts : isPathStart (lookahead ts) = true)
    (h : Parses cfg flags ok (.path .type) ts path us)
    (hmore : Returns ok' (fun n => parseTypeTraitObject.more (parse cfg n) flags []
      (ts' ++ [.mk hrbs path]) ls us) v) :
    Returns (ok && ok') (fun n => parse cfg n flags _ (.typeTraitObject hrbs ts' ls) ts) v := by
  apply settles_parse
  cases ts with
  | nil => cases hts
  | cons tok ts =>
    have hlifetime (name : Name) : tok ≠ .lifetime name := ne_of_start hts rfl
    have hfor : tok ≠ .op .rwordFor := ne_of_start hts rfl
    have hparen : tok ≠ .op .parenOpen := ne_of_start hts rfl
    simp [parseCall, parseTypeTraitObject, hlifetime, hfor, hparen]
    exact h.bind fun _ => hmore

theorem traitObject_hrb (hrbs : List Name) (hts : isPathStart (lookahead ts) = true)
    (h : Parses cfg flags ok (.path .type) ts path us)
    (hmore : Returns ok' (fun n => parseTypeTraitObject.more (parse cfg n) flags []
      (ts' ++ [.mk hrbs path]) ls us) v) :
    Returns (ok && ok')
      (fun n => parse cfg n flags _ (.typeTraitObject [] ts' ls) (hrbTokens hrbs ++ ts)) v := by
  cases hrbs with
  | nil => exact traitObject_path hts h hmore
  | cons name names =>
    have hfor : lookahead ts ≠ .op .rwordFor := ne_of_start hts rfl
    have hparen : lookahead ts ≠ .op .parenOpen := ne_of_start hts rfl
    have hhrb : Parses cfg flags true .hrbOpt _ (name :: names) _ :=
      hrbOpt_parses (name :: names) hfor
    apply settles_parse
    simp [parseCall, parseTypeTraitObject, hrbTokens] at hhrb ⊢
    refine hhrb.then ?_
    simp [hparen]
    exact h.bind fun _ => hmore

theorem more_stops (hr : typeStops true (lookahead r) = true) :
    Returns true (fun n => parseTypeTraitObject.more (parse cfg n) flags hrbs traits lifetimes r)
      (.traitObject traits (objectLifetimes lifetimes), r) := by
  simp [typeStops] at hr
  exact settles_ok fun _ => by simp [parseTypeTraitObject.more, hr]

theorem more_plus (h : Returns ok
      (fun n => parse cfg n flags _ (.typeTraitObject hrbs traits lifetimes) us) v) :
    Returns ok (fun n => parseTypeTraitObject.more (parse cfg n) flags hrbs traits lifetimes
      (.op .plus :: us)) v :=
  h

theorem isTypeSecond_hrbTokens (hts : isPathStart (lookahead ts) = true) :
    isTypeSecond (lookahead (hrbTokens hrbs ++ ts)) = true := by
  cases hrbs with
  | nil =>
    have hcolon : lookahead ts ≠ .op .colon := ne_of_start hts rfl
    have hequal : lookahead ts ≠ .op .equal := ne_of_start hts rfl
    simp [hrbTokens, isTypeSecond, hcolon, hequal]
  | cons name names => rfl

theorem BoundsParse.trait (hrbs : List Name) (h : PathParses cfg .type ok path ts r) :
    BoundsParse cfg ok [.mk hrbs path] [] (hrbTokens hrbs ++ ts) r where
  second := isTypeSecond_hrbTokens h.start
  first flags hr := by
    have hpath := h.parses flags (by simp_all [typeStops])
    refine ⟨hrbs, ts, hrbOpt_parses hrbs (ne_of_start h.start rfl), ?_⟩
    have hobject := @traitObject_path cfg flags ok true ts _ hrbs path [] _ [] h.start hpath (more_stops hr)
    rwa [Bool.and_true] at hobject
  more flags hr ts' ls := by
    have hpath := h.parses flags (by simp_all [typeStops])
    simpa using traitObject_hrb hrbs h.start hpath (more_stops hr)

theorem BoundsParse.traitCons (hrbs : List Name) (h : PathParses cfg .type ok path ts (.op .plus :: us))
    (hs : BoundsParse cfg ok' traits lifetimes us r) :
    BoundsParse cfg (ok && ok') (.mk hrbs path :: traits) lifetimes (hrbTokens hrbs ++ ts) r where
  second := isTypeSecond_hrbTokens h.start
  first flags hr := by
    have hpath := h.parses flags (by simp [pathStops, isNodeSecond])
    refine ⟨hrbs, ts, hrbOpt_parses hrbs (ne_of_start h.start rfl), ?_⟩
    exact traitObject_path h.start hpath (more_plus (hs.more flags hr [.mk hrbs path] []))
  more flags hr ts' ls := by
    have hpath := h.parses flags (by simp [pathStops, isNodeSecond])
    simpa using traitObject_hrb hrbs h.start hpath (more_plus (hs.more flags hr _ _))

theorem BoundsParse.lifetime (name : Name) :
    BoundsParse cfg true [] [some name] (.lifetime name :: r) r where
  second := rfl
  first flags hr := by
    refine ⟨[], _, hrbOpt_parses [] (by simp), settles_parse ?_⟩
    exact more_stops hr
  more flags hr ts' ls := by
    rw [List.append_nil]
    exact settles_parse (more_stops hr)

theorem BoundsParse.lifetimeCons (name : Name) (hs : BoundsParse cfg ok traits lifetimes us r) :
    BoundsParse cfg ok traits (some name :: lifetimes) (.lifetime name :: .op .plus :: us) r where
  second := rfl
  first flags hr := by
    refine ⟨[], _, hrbOpt_parses [] (by simp), settles_parse ?_⟩
    exact more_plus (hs.more flags hr [] [some name])
  more flags hr ts' ls := by
    apply settles_parse
    have hmore := hs.more flags hr ts' (ls ++ [some name])
    rw [List.append_assoc] at hmore
    exact more_plus hmore

theorem TypeParses.traitObject {dyn : Token} (hdyn : isDyn cfg dyn = true)
    (h : BoundsParse cfg ok traits lifetimes ts r) :
    TypeParses cfg true ok (.traitObject traits (objectLifetimes lifetimes)) (dyn :: ts) r where
  start := by
    simp [isDyn] at hdyn
    obtain rfl | ⟨-, rfl⟩ := hdyn <;> rfl
  second := by
    rintro _ _ ⟨rfl, rfl⟩ -
    exact .inr h.second
  parses flags hr := by
    obtain ⟨hrbs, us, hhrb, hobject⟩ := h.first flags hr
    apply settles_parse
    simp only [parseCall, parseType, lookahead_cons, hdyn, if_true, List.tail_cons]
    exact hhrb.then hobject

end Bounds

end Mrustc.Parse
