import Mrustc.Codec.Decimal
import Mrustc.Parse.Codepoint

/-! # Tokens and their source text

Interpolated fragments are left out: no lexer makes them. A float keeps the text that the
lexer hands to `strtod` in place of its value.
-/

namespace Mrustc.Parse

/-- The data types of number tokens, `any` where the source gives none. -/
inductive CoreType
  | any | char | uint | int | u8 | i8 | u16 | i16 | u32 | i32 | u64 | i64 | u128 | i128 | f32 | f64
  deriving DecidableEq, Repr

def coretypeName : CoreType → String
  | .any => "_" | .char => "char" | .uint => "usize" | .int => "isize"
  | .u8 => "u8" | .i8 => "i8" | .u16 => "u16" | .i16 => "i16"
  | .u32 => "u32" | .i32 => "i32" | .u64 => "u64" | .i64 => "i64"
  | .u128 => "u128" | .i128 => "i128" | .f32 => "f32" | .f64 => "f64"

/-- The enumerator, printed where no stream operator for the type is in sight. -/
def coretypeNumber : CoreType → ℕ
  | .any => 1 | .char => 3 | .uint => 5 | .int => 6 | .u8 => 7 | .i8 => 8 | .u16 => 9 | .i16 => 10
  | .u32 => 11 | .i32 => 12 | .u64 => 13 | .i64 => 14 | .u128 => 15 | .i128 => 16
  | .f32 => 17 | .f64 => 18

/-- The types of the tokens without data. -/
inductive TokenType
  | hash | underscore | parenOpen | parenClose | braceOpen | braceClose | lt | gt | squareOpen
  | squareClose | comma | semicolon | colon | doubleColon | star | amp | pipe | fatarrow
  | thinarrow | thinarrowLeft | plus | dash | exclam | percent | slash | dot | doubleDot
  | doubleDotEqual | tripleDot | equal | plusEqual | dashEqual | percentEqual | slashEqual
  | starEqual | ampEqual | pipeEqual | doubleEqual | exclamEqual | gte | lte | doubleAmp
  | doublePipe | doubleLt | doubleGt | doubleLtEqual | doubleGtEqual | dollar | qmark | at | tilde
  | backslash | caret | caretEqual | backtick | rwordPub | rwordPriv | rwordMut | rwordConst
  | rwordStatic | rwordUnsafe | rwordExtern | rwordCrate | rwordMod | rwordStruct | rwordEnum
  | rwordTrait | rwordFn | rwordUse | rwordImpl | rwordType | rwordWhere | rwordAs | rwordLet
  | rwordMatch | rwordIf | rwordElse | rwordLoop | rwordWhile | rwordFor | rwordIn | rwordDo
  | rwordContinue | rwordBreak | rwordReturn | rwordYield | rwordBox | rwordRef | rwordFalse
  | rwordTrue | rwordSelf | rwordSuper | rwordMove | rwordMacro | rwordAbstract | rwordFinal
  | rwordOverride | rwordVirtual | rwordTypeof | rwordBecome | rwordUnsized | rwordAsync
  | rwordAwait | rwordDyn | rwordTry
  deriving DecidableEq, Repr

inductive Edition
  | rust2015 | rust2018 | rust2021
  deriving DecidableEq, Repr

/-- A scope: the contexts of the names in it. -/
abbrev Hygiene := List ℕ

inductive Token
  | eof
  | newline
  | whitespace
  | comment (str : List UInt8)
  | op (type : TokenType)
  | ident (name : List UInt8)
  | lifetime (name : List UInt8)
  | integer (intval : BitVec 128) (datatype : CoreType)
  | float (text : List UInt8) (datatype : CoreType)
  | string (str : List UInt8) (hygiene : Hygiene)
  | byteString (str : List UInt8)
  deriving DecidableEq, Repr

/-- The token without its hygiene. -/
def Token.stripHygiene : Token → Token
  | .string str _ => .string str []
  | t => t

/-- The bytes of a text made of ASCII characters. -/
def ascii (s : List Char) : List UInt8 := s.map Char.toUInt8

section ToStr

/-- The text of an operator or a reserved word. -/
def TokenType.text : TokenType → String
  | .hash => "#" | .underscore => "_" | .parenOpen => "(" | .parenClose => ")" | .braceOpen => "\x7b"
  | .braceClose => "\x7d" | .lt => "<" | .gt => ">" | .squareOpen => "[" | .squareClose => "]"
  | .comma => "," | .semicolon => ";" | .colon => ":" | .doubleColon => "::" | .star => "*"
  | .amp => "&" | .pipe => "|" | .fatarrow => "=>" | .thinarrow => "->" | .thinarrowLeft => "<-"
  | .plus => "+" | .dash => "-" | .exclam => "!" | .percent => "%" | .slash => "/" | .dot => "."
  | .doubleDot => ".." | .doubleDotEqual => "..=" | .tripleDot => "..." | .equal => "="
  | .plusEqual => "+=" | .dashEqual => "-" | .percentEqual => "%=" | .slashEqual => "/="
  | .starEqual => "*=" | .ampEqual => "&=" | .pipeEqual => "|=" | .doubleEqual => "=="
  | .exclamEqual => "!=" | .gte => ">=" | .lte => "<=" | .doubleAmp => "&&" | .doublePipe => "||"
  | .doubleLt => "<<" | .doubleGt => ">>" | .doubleLtEqual => "<=" | .doubleGtEqual => ">="
  | .dollar => "$" | .qmark => "?" | .at => "@" | .tilde => "~" | .backslash => "\\"
  | .caret => "^" | .caretEqual => "^=" | .backtick => "\x60" | .rwordPub => "pub"
  | .rwordPriv => "priv" | .rwordMut => "mut" | .rwordConst => "const" | .rwordStatic => "static"
  | .rwordUnsafe => "unsafe" | .rwordExtern => "extern" | .rwordCrate => "crate"
  | .rwordMod => "mod" | .rwordStruct => "struct" | .rwordEnum => "enum" | .rwordTrait => "trait"
  | .rwordFn => "fn" | .rwordUse => "use" | .rwordImpl => "impl" | .rwordType => "type"
  | .rwordWhere => "where" | .rwordAs => "as" | .rwordLet => "let" | .rwordMatch => "match"
  | .rwordIf => "if" | .rwordElse => "else" | .rwordLoop => "loop" | .rwordWhile => "while"
  | .rwordFor => "for" | .rwordIn => "in" | .rwordDo => "do" | .rwordContinue => "continue"
  | .rwordBreak => "break" | .rwordReturn => "return" | .rwordYield => "yeild"
  | .rwordBox => "box" | .rwordRef => "ref" | .rwordFalse => "false" | .rwordTrue => "true"
  | .rwordSelf => "self" | .rwordSuper => "super" | .rwordMove => "move" | .rwordMacro => "macro"
  | .rwordAbstract => "abstract" | .rwordFinal => "final" | .rwordOverride => "override"
  | .rwordVirtual => "virtual" | .rwordTypeof => "typeof" | .rwordBecome => "become"
  | .rwordUnsized => "unsized" | .rwordAsync => "async" | .rwordAwait => "await"
  | .rwordDyn => "dyn" | .rwordTry => "try"

/-- `char` is signed: a byte from `0x80` on is a negative number, and `unsigned int` wraps it. -/
def escapedByte (b : UInt8) : List Char :=
  if b = '"'.toUInt8 then ['\\', '"']
  else if b = '\\'.toUInt8 then ['\\', '\\']
  else if b = '\n'.toUInt8 then ['\\', 'n']
  else if 0x20 ≤ b ∧ b < 0x7F then [Char.ofNat b.toNat]
  else
    ['\\', 'u', '\x7b'] ++ Nat.toDigits 16 (if b < 0x80 then b.toNat else b.toNat + 0xFFFFFF00) ++ ['\x7d']

/-- Whether printing the string leaves the stream in hexadecimal. -/
def printsHex (s : List UInt8) : Bool :=
  s.any fun b => b != '\n'.toUInt8 && !(0x20 ≤ b && b < 0x7F)

def contextsText (base : ℕ) (contexts : Hygiene) : List Char :=
  List.intercalate [',', ' '] (contexts.map (Nat.toDigits base))

/-- A scope is printed as a comment. -/
def hygieneText (base : ℕ) (contexts : Hygiene) : List Char :=
  ['/', '*'] ++ contextsText base contexts ++ ['*', '/']

/-- A string, and its scope behind it. -/
def stringText (s : List UInt8) (contexts : Hygiene) : List Char :=
  ['"'] ++ s.flatMap escapedByte ++ ['"'] ++ hygieneText (if printsHex s then 16 else 10) contexts

def charText (v : BitVec 128) : List Char :=
  if 0x20 ≤ v.toNat ∧ v.toNat < 128 then
    if v.toNat = cp '\'' then ['\'', '\\', '\'', '\'']
    else if v.toNat = cp '\\' then ['\'', '\\', '\\', '\'']
    else ['\'', Char.ofNat v.toNat, '\'']
  else ['\'', '\\', 'u', '\x7b'] ++ Nat.toDigits 16 v.toNat ++ ['\x7d', '\'']

/-- `to_str`. The text of a double is a parameter. -/
def Token.toStr (fmtDouble : List UInt8 → List UInt8) : Token → List UInt8
  | .eof => ascii "/*eof*/".toList
  | .newline => ascii ['\n']
  | .whitespace => ascii [' ']
  | .comment str => ascii ['/', '*'] ++ str ++ ascii ['*', '/']
  | .op type => ascii type.text.toList
  | .ident name => name
  | .lifetime name => ascii ['\''] ++ name
  | .integer v .char => ascii (charText v)
  | .integer v .any => ascii (Nat.toDigits 10 v.toNat)
  | .integer v type => ascii (Nat.toDigits 10 v.toNat ++ '_' :: (coretypeName type).toList)
  | .float text .any => fmtDouble text
  | .float text type => fmtDouble text ++ ascii ('_' :: Nat.toDigits 10 (coretypeNumber type))
  | .string str hygiene => ascii (stringText str hygiene)
  | .byteString str => ascii ['b', '"'] ++ str ++ ascii ['"']

end ToStr

end Mrustc.Parse
