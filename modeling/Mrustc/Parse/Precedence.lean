import Mrustc.Parse.SpelledExprs

/-! # The parser follows the precedences of the operators

By induction on the spelling every expression is parsed as it is written, unless the right end of
an exclusive range starts with a token that `parseIsTokValue` does not know.
-/

namespace Mrustc.Parse
open Ast Depth Filter

variable {cfg : ParseConfig} {ts r : List Token}

section Spelled

mutual

theorem SpellTy.parses {b ok : Bool} {type : Ty} {ts r : List Token} :
    SpellTy cfg b ok type ts r → TypeParses cfg b ok type ts r
  | .any => .any
  | .bang => .bang
  | .paren h => .paren h.parses
  | .path h hdyn => .path h.parses hdyn
  | .reference lifetime isMut h => .reference lifetime isMut h.parses
  | .refRef h => .refRef h.parses
  | .pointer isMut h => .pointer isMut h.parses
  | .sizedArray h hsize => hsize.parses.sizedArray h.parses
  | .inferredArray h => .inferredArray h.parses
  | .unsizedArray h => .unsizedArray h.parses
  | .unit => .unit
  | .tuple h hs => .tuple h.parses hs.parses
  | .function hrbs isUnsafe abi h => .function hrbs isUnsafe abi h.parses
  | .functionRet hrbs isUnsafe abi h hret => .functionRet hrbs isUnsafe abi h.parses hret.parses
  | .traitObject hdyn h => .traitObject hdyn h.parses

theorem SpellTys.parses {isVariadic ok : Bool} {types : List Ty} {ts r : List Token} :
    SpellTys cfg isVariadic ok types ts r → TypesParse cfg isVariadic ok types ts r
  | .nil => .nil
  | .variadic => .variadic
  | .last h => .last h.parses
  | .cons h hs => .cons h.parses hs.parses

theorem SpellBounds.parses {ok : Bool} {traits : List TraitPath} {lifetimes : List (Option Name)}
    {ts r : List Token} :
    SpellBounds cfg ok traits lifetimes ts r → BoundsParse cfg ok traits lifetimes ts r
  | .trait hrbs h => .trait hrbs h.parses
  | .traitCons hrbs h hs => .traitCons hrbs h.parses hs.parses
  | .lifetime => .lifetime _
  | .lifetimeCons hs => .lifetimeCons _ hs.parses

theorem SpellPath.parses {mode : GenericMode} {ok : Bool} {path : Path} {ts r : List Token} :
    SpellPath cfg mode ok path ts r → PathParses cfg mode ok path ts r
  | .relative h => .relative h.parses
  | .self h => .self h.parses
  | .super count h => .super count h.parses
  | .crate h => .crate h.parses
  | .root hedition h => .root hedition h.parses
  | .external hedition h => .external hedition h.parses
  | .externCrate hedition => .externCrate hedition
  | .string h => .string _ _ h.parses
  | .qualified h hs => .qualified h.parses hs.parses
  | .qualifiedTrait h htrait hs => .qualifiedTrait h.parses htrait.parses hs.parses
  | .join h => .join h.parses

theorem SpellNodes.parses {mode : GenericMode} {ok : Bool} {nodes : List PathNode}
    {ts r : List Token} : SpellNodes cfg mode ok nodes ts r → NodesParse cfg mode ok nodes ts r
  | .expr => .expr
  | .exprCons hs => .exprCons hs.parses
  | .generic hlt h => .generic hlt h.parses
  | .genericCons hlt h hs => .genericCons hlt h.parses hs.parses
  | .type h => .type h.parses
  | .typeCons h hs => .typeCons h.parses hs.parses
  | .parenCons h hs => .parenCons h.parses hs.parses

theorem SpellParams.parses {ok : Bool} {params : PathParams} {ts r : List Token} :
    SpellParams cfg ok params ts r → ParamsParse cfg ok params ts r
  | .none => .none
  | .angle hlt h => .angle hlt h.parses
  | .turbofish hlt h => .turbofish hlt h.parses
  | .paren h => .paren h.parses
  | .parenRet h hret => .parenRet h.parses hret.parses

theorem SpellEnts.parses {ok : Bool} {entries : List PathParamEnt} {ts r : List Token} :
    SpellEnts cfg ok entries ts r → EntsParse cfg ok entries ts r
  | .nil hgt => .nil hgt
  | .last h hgt => .last h.parses hgt
  | .cons h hs => .cons h.parses hs.parses

theorem SpellEnt.parses {ok : Bool} {ent : PathParamEnt} {ts r : List Token} :
    SpellEnt cfg ok ent ts r → EntParses cfg ok ent ts r
  | .lifetime => .lifetime
  | .type h => .type h.parses
  | .value h hstart => .value h hstart
  | .negative h _ => .negative h
  | .assocEqual h => .assocEqual h.parses
  | .assocBound h => .assocBound h.parses

theorem SpellExpr.parses {k : ℕ} {c ok : Bool} {e : Expr} {ts r : List Token} :
    SpellExpr cfg k c ok e ts r → ExprParses cfg k c ok e ts r
  | .paren h => .paren h.parses
  | .assign op hslot hvalue => .assign op hslot.parses hvalue.parses
  | .binOp op hk hleft hc hright => .binOp op hk hleft.parses hc hright.parses
  | .rangeFull hk => .rangeFull hk
  | .rangeFrom hk hleft => .rangeFrom hk hleft.parses
  | .rangeTo hk hright => .rangeTo hk hright.parses
  | .range hk hleft hright => .range hk hleft.parses hright.parses
  | .rangeToInc hk hright => .rangeToInc hk hright.parses
  | .rangeInc hk hleft hright => .rangeInc hk hleft.parses hright.parses
  | .cast hk h htype => .cast hk h.parses htype.parses
  | .uniOp op hk hop h => .uniOp op hk hop h.parses
  | .refRef hk h => .refRef hk h.parses
  | .callPath _ h hargs => .callPath h h.parses hargs.parses
  | .callObject _ h hvalue hargs => .callObject h.parses hvalue hargs.parses
  | .callFieldIndex _ h hargs => .callFieldIndex h.parses hargs.parses
  | .callParen _ h hargs => .callParen h.parses hargs.parses
  | .callMethod _ h hargs => .callMethod h.parses hargs.parses
  | .callGeneric _ h hents hargs => .callGeneric h.parses hents.parses hargs.parses
  | .callGenericJoin _ h hents hargs => .callGenericJoin h.parses hents.parses hargs.parses
  | .index _ h hindex => .index h.parses hindex.parses
  | .field _ h => .field h.parses
  | .fieldIndex _ h => .fieldIndex h.parses
  | .qmark _ h => .qmark h.parses
  | .await _ h => .await h.parses
  | .lit _ h => .lit h
  | .namedValue _ h => .namedValue h h.parses
  | .selfValue _ => .selfValue

theorem SpellArgs.parses {ok : Bool} {args : List Expr} {ts r : List Token} :
    SpellArgs cfg ok args ts r → ArgsParse cfg ok args ts r
  | .nil => .nil
  | .last h => .last h.parses
  | .cons h hs => .cons h.parses hs.parses

end

end Spelled

section Runs

/-- A parser for the current edition that knows nothing else. -/
def plainConfig : ParseConfig where
  edition := .rust2021
  targetverLeast129 := true
  others := {
    attributes := fun _ lex => .error (.unexpected (lookahead lex))
    typeMacro := fun _ lex => .error (.unexpected (lookahead lex))
    exprVal := fun _ lex => .error (.unexpected (lookahead lex))
    pathExpr := fun _ _ lex => .error (.unexpected (lookahead lex)) }

def nameToken (c : Char) : Token := .ident (ascii [c])

def nameExpr (c : Char) : Expr := .namedValue (.relative [.mk (ascii [c]) .empty])

theorem spell_name {k : ℕ} (hk : k ≤ 15) (c : Char) :
    SpellExpr plainConfig k false true (nameExpr c) (nameToken c :: r) r :=
  .namedValue hk (.relative .expr)

end Runs

end Mrustc.Parse
