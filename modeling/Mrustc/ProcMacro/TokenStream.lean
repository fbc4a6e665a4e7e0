import Mrustc.ProcMacro.Protocol

/-! # The token streams of a macro

What the macro library makes of the tokens it receives, and how it sends a stream back. Spans are
left out. A panic is `none`.
-/

namespace Mrustc.ProcMacro
open Protocol

inductive Delimiter
  | parenthesis | brace | bracket | none
  deriving DecidableEq, Repr

inductive Spacing
  | alone | joint
  deriving DecidableEq, Repr

inductive LiteralValue
  | string (v : String)
  | byteString (v : List UInt8)
  | charLit (v : Char)
  | unsignedInt (v : BitVec 128) (sz : UInt8)
  | signedInt (v : BitVec 128) (sz : UInt8)
  | float (v : Vector UInt8 8) (sz : UInt8)
  deriving DecidableEq

inductive TokenTree
  | group (delimiter : Delimiter) (stream : List TokenTree)
  | ident (isRaw : Bool) (val : String)
  | punct (ch : Char) (spacing : Spacing)
  | literal (val : LiteralValue)

section Receive

/-- The characters of a symbol, joint except the last. -/
def puncts : List Char → List TokenTree
  | [] => []
  | [c] => [.punct c .alone]
  | c :: cs => .punct c .joint :: puncts cs

/-- The group that a symbol opens, and the symbol that closes it. -/
def openedGroup (sym : String) : Option (Delimiter × String) :=
  if sym = "\x7b" then some (.brace, "\x7d")
  else if sym = "[" then some (.bracket, "]")
  else if sym = "(" then some (.parenthesis, ")")
  else none

/-- The trees of a token that neither opens nor closes anything. -/
def tokenTrees : Protocol.Token → List TokenTree
  | .symbol sym => puncts sym.toList
  | .ident val => [.ident false val]
  | .lifetime val => [.punct '\'' .joint, .ident false val]
  | .string val => [.literal (.string val)]
  | .byteString val => [.literal (.byteString val)]
  | .char ch => [.literal (.charLit ch)]
  | .unsigned val ty => [.literal (.unsignedInt val ty)]
  | .signed val ty => [.literal (.signedInt val ty)]
  | .float val ty => [.literal (.float val ty)]
  | .endOfStream | .spanRef _ | .spanDef _ => []

/-- `get_subtree` up to the symbol `close`, the end of the stream where it is empty. -/
def getSubtree : ℕ → String → List TokenTree → List UInt8 → Option (List TokenTree × List UInt8)
  | 0, _, _, _ => none
  | fuel + 1, close, toks, bs => do
    let (t, bs) ← readEnt bs
    match t with
    | none => none
    | some .endOfStream => if close = "" then some (toks, bs) else none
    | some (.symbol sym) =>
      if sym = close then some (toks, bs)
      else if sym = "" then none
      else match openedGroup sym with
        | some (delimiter, close') => do
          let (stream, bs) ← getSubtree fuel close' [] bs
          getSubtree fuel close (toks ++ [.group delimiter stream]) bs
        | none => getSubtree fuel close (toks ++ tokenTrees (.symbol sym)) bs
    | some t => getSubtree fuel close (toks ++ tokenTrees t) bs

/-- Every token takes at least a byte. -/
def recvTokenStream (bs : List UInt8) : Option (List TokenTree × List UInt8) :=
  getSubtree (bs.length + 1) "" [] bs

end Receive

section Send

/-- What the next tree has to be: anything, the name of a lifetime, or more of a symbol. -/
inductive Pending
  | none
  | lifetime
  | symbol (buf : List UInt8)

def groupOpen : Delimiter → List UInt8
  | .none => []
  | .brace => writeSym1 '\x7b'
  | .parenthesis => writeSym1 '('
  | .bracket => writeSym1 '['

def groupClose : Delimiter → List UInt8
  | .none => []
  | .brace => writeSym1 '\x7d'
  | .parenthesis => writeSym1 ')'
  | .bracket => writeSym1 ']'

def literalToken : LiteralValue → Protocol.Token
  | .string v => .string v
  | .byteString v => .byteString v
  | .charLit v => .char v
  | .unsignedInt v sz => .unsigned v sz
  | .signedInt v sz => .signed v sz
  | .float v sz => .float v sz

/-- The body of `send_token_stream`. A symbol is gathered in four bytes. -/
def sendInner : Pending → List TokenTree → Option (List UInt8)
  | .none, [] => some []
  | .none, .group delimiter stream :: ts => do
    let body ← sendInner .none stream
    let rest ← sendInner .none ts
    some (groupOpen delimiter ++ body ++ groupClose delimiter ++ rest)
  | .none, .ident _ val :: ts => do
    let rest ← sendInner .none ts
    some (writeEnt (.ident val) ++ rest)
  | .none, .punct ch spacing :: ts =>
    if ch = '\'' then sendInner .lifetime ts
    else match spacing with
      | .alone => do
        let rest ← sendInner .none ts
        some (writeSym1 ch ++ rest)
      | .joint => sendInner (.symbol (String.utf8EncodeChar ch)) ts
  | .none, .literal val :: ts => do
    let rest ← sendInner .none ts
    some (writeEnt (literalToken val) ++ rest)
  | .lifetime, .ident _ val :: ts => do
    let rest ← sendInner .none ts
    some (writeEnt (.lifetime val) ++ rest)
  | .lifetime, _ => none
  | .symbol buf, .punct ch spacing :: ts =>
    let buf := buf ++ String.utf8EncodeChar ch
    if buf.length ≤ 4 then
      match spacing with
      | .joint => sendInner (.symbol buf) ts
      | .alone => do
        let rest ← sendInner .none ts
        some (writeSym buf ++ rest)
    else none
  | .symbol _, _ => none

/-- An empty symbol indicates the end. -/
def sendTokenStream (ts : List TokenTree) : Option (List UInt8) := do
  let bytes ← sendInner .none ts
  some (bytes ++ writeSym [])

end Send

end Mrustc.ProcMacro
