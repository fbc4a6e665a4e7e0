import Mrustc.Parse.Token

/-! # Symbols and reserved words -/

namespace Mrustc.Parse

/-- What a symbol starts. -/
inductive SymType
  | tok (type : TokenType)
  | lineComment
  | blockComment
  | singleQuote
  | doubleQuote
  deriving DecidableEq, Repr

/-- `TOKENMAP`, sorted. -/
def tokenmap : List (List Char × SymType) :=
  [(['!'], .tok .exclam), (['!', '='], .tok .exclamEqual), (['"'], .doubleQuote),
    (['#'], .tok .hash), (['$'], .tok .dollar), (['%'], .tok .percent),
    (['%', '='], .tok .percentEqual), (['&'], .tok .amp), (['&', '&'], .tok .doubleAmp),
    (['&', '='], .tok .ampEqual), (['\''], .singleQuote), (['('], .tok .parenOpen),
    ([')'], .tok .parenClose), (['*'], .tok .star), (['*', '='], .tok .starEqual),
    (['+'], .tok .plus), (['+', '='], .tok .plusEqual), ([','], .tok .comma),
    (['-'], .tok .dash), (['-', '='], .tok .dashEqual), (['-', '>'], .tok .thinarrow),
    (['.'], .tok .dot), (['.', '.'], .tok .doubleDot), (['.', '.', '.'], .tok .tripleDot),
    (['.', '.', '='], .tok .doubleDotEqual), (['/'], .tok .slash), (['/', '*'], .blockComment),
    (['/', '/'], .lineComment), (['/', '='], .tok .slashEqual), ([':'], .tok .colon),
    ([':', ':'], .tok .doubleColon), ([';'], .tok .semicolon), (['<'], .tok .lt),
    (['<', '-'], .tok .thinarrowLeft), (['<', '<'], .tok .doubleLt),
    (['<', '<', '='], .tok .doubleLtEqual), (['<', '='], .tok .lte), (['='], .tok .equal),
    (['=', '='], .tok .doubleEqual), (['=', '>'], .tok .fatarrow), (['>'], .tok .gt),
    (['>', '='], .tok .gte), (['>', '>'], .tok .doubleGt),
    (['>', '>', '='], .tok .doubleGtEqual), (['?'], .tok .qmark), (['@'], .tok .at),
    (['['], .tok .squareOpen), (['\\'], .tok .backslash), ([']'], .tok .squareClose),
    (['^'], .tok .caret), (['^', '='], .tok .caretEqual), (['\x60'], .tok .backtick),
    (['\x7b'], .tok .braceOpen), (['|'], .tok .pipe), (['|', '='], .tok .pipeEqual),
    (['|', '|'], .tok .doublePipe), (['\x7d'], .tok .braceClose), (['~'], .tok .tilde)]

def rwords2015 : List (String × TokenType) :=
  [("_", .underscore), ("abstract", .rwordAbstract), ("as", .rwordAs), ("become", .rwordBecome),
    ("box", .rwordBox), ("break", .rwordBreak), ("const", .rwordConst),
    ("continue", .rwordContinue), ("crate", .rwordCrate), ("do", .rwordDo), ("else", .rwordElse),
    ("enum", .rwordEnum), ("extern", .rwordExtern), ("false", .rwordFalse),
    ("final", .rwordFinal), ("fn", .rwordFn), ("for", .rwordFor), ("if", .rwordIf),
    ("impl", .rwordImpl), ("in", .rwordIn), ("let", .rwordLet), ("loop", .rwordLoop),
    ("macro", .rwordMacro), ("match", .rwordMatch), ("mod", .rwordMod), ("move", .rwordMove),
    ("mut", .rwordMut), ("override", .rwordOverride), ("priv", .rwordPriv), ("pub", .rwordPub),
    ("ref", .rwordRef), ("return", .rwordReturn), ("self", .rwordSelf), ("static", .rwordStatic),
    ("struct", .rwordStruct), ("super", .rwordSuper), ("trait", .rwordTrait),
    ("true", .rwordTrue), ("type", .rwordType), ("typeof", .rwordTypeof),
    ("unsafe", .rwordUnsafe), ("unsized", .rwordUnsized), ("use", .rwordUse),
    ("virtual", .rwordVirtual), ("where", .rwordWhere), ("while", .rwordWhile),
    ("yield", .rwordYield)]

def rwords2018 : List (String × TokenType) :=
  [("_", .underscore), ("abstract", .rwordAbstract), ("as", .rwordAs), ("async", .rwordAsync),
    ("await", .rwordAwait), ("become", .rwordBecome), ("box", .rwordBox), ("break", .rwordBreak),
    ("const", .rwordConst), ("continue", .rwordContinue), ("crate", .rwordCrate),
    ("do", .rwordDo), ("dyn", .rwordDyn), ("else", .rwordElse), ("enum", .rwordEnum),
    ("extern", .rwordExtern), ("false", .rwordFalse), ("final", .rwordFinal), ("fn", .rwordFn),
    ("for", .rwordFor), ("if", .rwordIf), ("impl", .rwordImpl), ("in", .rwordIn),
    ("let", .rwordLet), ("loop", .rwordLoop), ("macro", .rwordMacro), ("match", .rwordMatch),
    ("mod", .rwordMod), ("move", .rwordMove), ("mut", .rwordMut), ("override", .rwordOverride),
    ("priv", .rwordPriv), ("pub", .rwordPub), ("ref", .rwordRef), ("return", .rwordReturn),
    ("self", .rwordSelf), ("static", .rwordStatic), ("struct", .rwordStruct),
    ("super", .rwordSuper), ("trait", .rwordTrait), ("true", .rwordTrue), ("try", .rwordTry),
    ("type", .rwordType), ("typeof", .rwordTypeof), ("unsafe", .rwordUnsafe),
    ("unsized", .rwordUnsized), ("use", .rwordUse), ("virtual", .rwordVirtual),
    ("where", .rwordWhere), ("while", .rwordWhile), ("yield", .rwordYield)]

def rwords : Edition → List (String × TokenType)
  | .rust2015 => rwords2015
  | .rust2018 | .rust2021 => rwords2018

/-- `Lex_FindReservedWord`, which stops at the first word behind `s`. -/
def lexFindReservedWord (s : List UInt8) (edition : Edition) : Option TokenType :=
  go (rwords edition)
where
  go : List (String × TokenType) → Option TokenType
    | [] => none
    | (word, type) :: words =>
      if s < ascii word.toList then none
      else if s = ascii word.toList then some type
      else go words

/-- `Lex_FindOperator`, which stops at the first symbol behind `s`. -/
def lexFindOperator (s : List UInt8) : Option TokenType :=
  if s = ascii ['_'] then some .underscore else go tokenmap
where
  go : List (List Char × SymType) → Option TokenType
    | [] => none
    | (chars, type) :: symbols =>
      if s < ascii chars then none
      else if s = ascii chars then
        match type with
        | .tok type => some type
        | _ => none
      else go symbols

end Mrustc.Parse
