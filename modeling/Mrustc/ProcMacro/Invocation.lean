import Mrustc.Parse.LexTables
import Mrustc.ProcMacro.Protocol

/-! # The compiler's side of a macro invocation

What `visit_token` sends to the child process and what `realGetToken` reads back from it. What aborts
is `none`. Interpolated fragments are left out.
-/

namespace Mrustc.ProcMacro
open Codec
open Parse hiding utf8
open Protocol (utf8 getF64)

/-- A token that the compiler sends; a double is its bytes in memory. -/
inductive Token
  | op (type : TokenType)
  | ident (name : List UInt8)
  | lifetime (name : List UInt8)
  | integer (intval : BitVec 128) (datatype : CoreType)
  | float (floatval : Vector UInt8 8) (datatype : CoreType)
  | string (str : List UInt8)
  | byteString (str : List UInt8)
  deriving DecidableEq

/-- A token, or trees in a row. -/
inductive TokTree
  | token (tok : Token)
  | trees (subtrees : List TokTree)

section Send

/-- Both overloads of `send_v128u`. -/
def sendV128u {width : ℕ} (val : BitVec width) : List UInt8 := varint val.toNat

def sendBytes (val : List UInt8) : List UInt8 := sendV128u (BitVec.ofNat 64 val.length) ++ val

/-- What `strlen` counts. -/
def cStr (s : List UInt8) : List UInt8 := s.takeWhile (· ≠ 0)

def sendDone : List UInt8 := [0]

def sendSymbol (val : String) : List UInt8 := 1 :: sendBytes (utf8 val)

def sendRword (val : String) : List UInt8 := 2 :: sendBytes (utf8 val)

/-- A name that is a reserved word is sent as a raw identifier. -/
def sendIdent (edition : Edition) (val : List UInt8) : List UInt8 :=
  2 :: if (lexFindReservedWord val edition).isSome then
    sendV128u (BitVec.ofNat 64 (2 + val.length)) ++ utf8 "r#" ++ val
  else sendBytes val

def sendLifetime (val : List UInt8) : List UInt8 := 3 :: sendBytes val

def sendString (s : List UInt8) : List UInt8 := 4 :: sendBytes s

def sendByteString (s : List UInt8) : List UInt8 := 5 :: sendBytes s

def sendChar (ch : BitVec 32) : List UInt8 := 6 :: sendV128u ch

/-- The token class and the size of an integer. -/
def intClass : CoreType → Option (UInt8 × UInt8)
  | .any => some (7, 0)
  | .uint => some (7, 1)
  | .u8 => some (7, 8)
  | .u16 => some (7, 16)
  | .u32 => some (7, 32)
  | .u64 => some (7, 64)
  | .u128 => some (7, 128)
  | .int => some (8, 1)
  | .i8 => some (8, 8)
  | .i16 => some (8, 16)
  | .i32 => some (8, 32)
  | .i64 => some (8, 64)
  | .i128 => some (8, 128)
  | _ => none

/-- The value of a signed integer is sent like that of an unsigned one. -/
def sendInt (ct : CoreType) (v : BitVec 128) : Option (List UInt8) := do
  let (cls, size) ← intClass ct
  some (cls :: size :: sendV128u v)

def floatSize : CoreType → Option UInt8
  | .any => some 0
  | .f32 => some 32
  | .f64 => some 64
  | _ => none

def sendFloat (ct : CoreType) (v : Vector UInt8 8) : Option (List UInt8) := do
  let size ← floatSize ct
  some (9 :: size :: v.toList)

inductive SendCall
  | symbol (val : String)
  | rword (val : String)
  deriving DecidableEq

def SendCall.bytes : SendCall → List UInt8
  | .symbol val => sendSymbol val
  | .rword val => sendRword val

/-- How `visit_token` sends an operator or a reserved word. -/
def sendCall : TokenType → SendCall
  | .hash => .symbol "#" | .underscore => .symbol "_" | .parenOpen => .symbol "("
  | .parenClose => .symbol ")" | .braceOpen => .symbol "\x7b" | .braceClose => .symbol "\x7d"
  | .lt => .symbol "<" | .gt => .symbol ">" | .squareOpen => .symbol "["
  | .squareClose => .symbol "]" | .comma => .symbol "," | .semicolon => .symbol ";"
  | .colon => .symbol ":" | .doubleColon => .symbol "::" | .star => .symbol "*"
  | .amp => .symbol "&" | .pipe => .symbol "|" | .fatarrow => .symbol "=>"
  | .thinarrow => .symbol "->" | .thinarrowLeft => .symbol "<-" | .plus => .symbol "+"
  | .dash => .symbol "-" | .exclam => .symbol "!" | .percent => .symbol "%" | .slash => .symbol "/"
  | .dot => .symbol "." | .doubleDot => .symbol ".." | .doubleDotEqual => .symbol "..="
  | .tripleDot => .symbol "..." | .equal => .symbol "=" | .plusEqual => .symbol "+="
  | .dashEqual => .symbol "-" | .percentEqual => .symbol "%=" | .slashEqual => .symbol "/="
  | .starEqual => .symbol "*=" | .ampEqual => .symbol "&=" | .pipeEqual => .symbol "|="
  | .doubleEqual => .symbol "==" | .exclamEqual => .symbol "!=" | .gte => .symbol ">="
  | .lte => .symbol "<=" | .doubleAmp => .symbol "&&" | .doublePipe => .symbol "||"
  | .doubleLt => .symbol "<<" | .doubleGt => .symbol ">>" | .doubleLtEqual => .symbol "<="
  | .doubleGtEqual => .symbol ">=" | .dollar => .symbol "$" | .qmark => .symbol "?"
  | .at => .symbol "@" | .tilde => .symbol "~" | .backslash => .symbol "\\" | .caret => .symbol "^"
  | .caretEqual => .symbol "^=" | .backtick => .symbol "\x60" | .rwordPub => .rword "pub"
  | .rwordPriv => .rword "priv" | .rwordMut => .rword "mut" | .rwordConst => .rword "const"
  | .rwordStatic => .rword "static" | .rwordUnsafe => .rword "unsafe"
  | .rwordExtern => .rword "extern" | .rwordCrate => .rword "crate" | .rwordMod => .rword "mod"
  | .rwordStruct => .rword "struct" | .rwordEnum => .rword "enum" | .rwordTrait => .rword "trait"
  | .rwordFn => .rword "fn" | .rwordUse => .rword "use" | .rwordImpl => .rword "impl"
  | .rwordType => .rword "type" | .rwordWhere => .rword "where" | .rwordAs => .rword "as"
  | .rwordLet => .rword "let" | .rwordMatch => .rword "match" | .rwordIf => .rword "if"
  | .rwordElse => .rword "else" | .rwordLoop => .rword "loop" | .rwordWhile => .rword "while"
  | .rwordFor => .rword "for" | .rwordIn => .rword "in" | .rwordDo => .rword "do"
  | .rwordContinue => .rword "continue" | .rwordBreak => .rword "break"
  | .rwordReturn => .rword "return" | .rwordYield => .rword "yeild" | .rwordBox => .rword "box"
  | .rwordRef => .rword "ref" | .rwordFalse => .rword "false" | .rwordTrue => .rword "true"
  | .rwordSelf => .rword "self" | .rwordSuper => .rword "super" | .rwordMove => .rword "move"
  | .rwordAbstract => .rword "abstract" | .rwordFinal => .rword "final"
  | .rwordOverride => .rword "override" | .rwordVirtual => .rword "virtual"
  | .rwordTypeof => .rword "typeof" | .rwordBecome => .rword "become"
  | .rwordUnsized => .rword "unsized" | .rwordMacro => .rword "macro"
  | .rwordAsync => .rword "async" | .rwordAwait => .rword "await" | .rwordDyn => .rword "dyn"
  | .rwordTry => .rword "try"

def visitToken (edition : Edition) : Token → Option (List UInt8)
  | .op type => some (sendCall type).bytes
  | .ident name => some (sendIdent edition (cStr name))
  | .lifetime name => some (sendLifetime (cStr name))
  | .integer v .char => some (sendChar (v.setWidth 32))
  | .integer v ct => sendInt ct v
  | .float v ct => sendFloat ct v
  | .string s => some (sendString s)
  | .byteString s => some (sendByteString s)

def visitTokentree (edition : Edition) : TokTree → Option (List UInt8)
  | .token tok => visitToken edition tok
  | .trees tts => visitTrees tts
where
  visitTrees : List TokTree → Option (List UInt8)
    | [] => some []
    | tt :: tts => do
      let sent ← visitTokentree edition tt
      let rest ← visitTrees tts
      some (sent ++ rest)

end Send

section Receive

/-- What the child process has written, and whether its end was read. -/
structure ProcMacroInv where
  eofHit : Bool
  input : List UInt8

def recvV128u (bs : List UInt8) : Option (BitVec 64 × List UInt8) := do
  let (v, bs) ← readVarint 64 (fun _ => true) 0 0 bs
  some (BitVec.ofNat 64 v, bs)

def recvV128uU128 (bs : List UInt8) : Option (BitVec 128 × List UInt8) := do
  let (v, bs) ← readVarint 128 (fun _ => true) 0 0 bs
  some (BitVec.ofNat 128 v, bs)

def recvBytes (bs : List UInt8) : Option (List UInt8 × List UInt8) := do
  let (len, bs) ← recvV128u bs
  if len.toNat < 2 ^ 64 - 1 ∧ len.toNat ≤ bs.length then
    some (bs.take len.toNat, bs.drop len.toNat)
  else none

def recvU8 : List UInt8 → Option (UInt8 × List UInt8)
  | [] => none
  | b :: bs => some (b, bs)

def unsignedType (size : UInt8) : Option CoreType :=
  match size.toNat with
  | 0 => some .any
  | 1 => some .uint
  | 8 => some .u8
  | 16 => some .u16
  | 32 => some .u32
  | 64 => some .u64
  | 128 => some .u128
  | _ => none

def signedType (size : UInt8) : Option CoreType :=
  match size.toNat with
  | 0 => some .any
  | 1 => some .int
  | 8 => some .i8
  | 16 => some .i16
  | 32 => some .i32
  | 64 => some .i64
  | 128 => some .i128
  | _ => none

def floatType (size : UInt8) : Option CoreType :=
  match size.toNat with
  | 0 => some .any
  | 32 => some .f32
  | 64 => some .f64
  | _ => none

/-- The token behind a symbol of the child; the empty one is the end. -/
def symbolToken (val : List UInt8) : Option (Option Token) :=
  if val = [] then some none
  else (lexFindOperator val).map fun type => some (.op type)

def identToken (edition : Edition) (val : List UInt8) : Token :=
  match lexFindReservedWord val edition with
  | some type => .op type
  | none => if val.take 2 = utf8 "r#" then .ident (cStr (val.drop 2)) else .ident val

/-- Nothing negative is expected of a macro. -/
def recvSigned (bs : List UInt8) : Option (BitVec 128 × List UInt8) := do
  let (val, bs) ← recvV128uU128 bs
  if val &&& 1 ≠ 0 then none else some (val >>> 1, bs)

/-- A token behind the byte of its class. -/
def recvToken (edition : Edition) (cls : UInt8) (bs : List UInt8) :
    Option (Option Token × List UInt8) :=
  match cls.toNat with
  | 1 => do
    let (val, bs) ← recvBytes bs
    let tok ← symbolToken val
    some (tok, bs)
  | 2 => do
    let (val, bs) ← recvBytes bs
    some (some (identToken edition val), bs)
  | 3 => do
    let (val, bs) ← recvBytes bs
    some (some (.lifetime val), bs)
  | 4 => do
    let (val, bs) ← recvBytes bs
    some (some (.string val), bs)
  | 5 => do
    let (val, bs) ← recvBytes bs
    some (some (.byteString val), bs)
  | 6 => do
    let (val, bs) ← recvV128u bs
    some (some (.integer (val.setWidth 128) .char), bs)
  | 7 => do
    let (size, bs) ← recvU8 bs
    let ty ← unsignedType size
    let (val, bs) ← recvV128uU128 bs
    some (some (.integer val ty), bs)
  | 8 => do
    let (size, bs) ← recvU8 bs
    let ty ← signedType size
    let (val, bs) ← recvSigned bs
    some (some (.integer val ty), bs)
  | 9 => do
    let (size, bs) ← recvU8 bs
    let ty ← floatType size
    let (val, bs) ← getF64 bs
    some (some (.float val ty), bs)
  | _ => none

/-- `realGetToken_`, without a token at the end. -/
def realGetToken (edition : Edition) (inv : ProcMacroInv) : Option (Option Token × ProcMacroInv) :=
  if inv.eofHit then some (none, inv)
  else do
    let (cls, bs) ← recvU8 inv.input
    let (tok, bs) ← recvToken edition cls bs
    some (tok, ⟨tok.isNone, bs⟩)

/-- The tokens that are read up to the end. -/
inductive Yields (edition : Edition) : ProcMacroInv → List Token → ProcMacroInv → Prop
  | eof {inv inv'} (h : realGetToken edition inv = some (none, inv')) : Yields edition inv [] inv'
  | token {inv inv' inv'' tok toks} (h : realGetToken edition inv = some (some tok, inv'))
      (hrest : Yields edition inv' toks inv'') : Yields edition inv (tok :: toks) inv''

end Receive

end Mrustc.ProcMacro
