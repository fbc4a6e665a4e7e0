import Mrustc.Parse.SpelledTypes

/-! # Paths and generic arguments are parsed as they are spelled -/

namespace Mrustc.Parse
open Ast Depth

variable {cfg : ParseConfig} {call : Caller} {flags : ParseFlags} {ok ok' ok'' : Bool}
variable {ts us vs r : List Token} {tok : Token} {mode : GenericMode}

section Spelled

/-- The nodes of a path go on only where a name follows. -/
structure ParamsStop (r : List Token) : Prop where
  getLt : getLt r = none
  paren : lookahead r ≠ .op .parenOpen
  ret : lookahead r ≠ .op .thinarrow
  turbofish : lookahead r = .op .doubleColon → Parse.getLt r.tail = none

/-- What the spelled nodes of a path are parsed to. -/
structure NodesParse (cfg : ParseConfig) (mode : GenericMode) (ok : Bool) (nodes : List PathNode)
    (ts r : List Token) : Prop where
  start : ∃ name us, ts = .ident name :: us
  second : FollowsName isNodeSecond ts r
  parses (flags : ParseFlags) (hr : pathStops mode (lookahead r) = true) :
    Parses cfg flags ok (.pathNodes mode) ts nodes r

/-- What the spelled parameters of a node in a type are parsed to. -/
structure ParamsParse (cfg : ParseConfig) (ok : Bool) (params : PathParams)
    (ts r : List Token) : Prop where
  start : ts = r ∨ isNodeSecond (lookahead ts) = true
  parses (flags : ParseFlags) (hr : ParamsStop r)
    (hret : ∀ args ret, params = .paren args ret → typeStops false (lookahead r) = true) :
    Parses cfg flags ok .pathTypeParams ts params r

/-- What spelled generic arguments are parsed to. -/
structure EntsParse (cfg : ParseConfig) (ok : Bool) (entries : List PathParamEnt)
    (ts r : List Token) : Prop where
  parses (flags : ParseFlags) : Parses cfg flags ok .genericList ts entries r

/-- What a spelled generic argument is parsed to. -/
structure EntParses (cfg : ParseConfig) (ok : Bool) (ent : PathParamEnt)
    (ts r : List Token) : Prop where
  start : isGt (lookahead ts) = false
  parses (flags : ParseFlags) (hr : entStops (lookahead r) = true) :
    Parses cfg flags ok .genericEnt ts [ent] r

end Spelled

section Params

variable {entries : List PathParamEnt} {args : List Ty} {ret : Ty}

theorem getLt_isNodeSecond (h : getLt ts = some us) :
    isNodeSecond (lookahead ts) = true ∧ lookahead ts ≠ .op .doubleColon := by
  unfold getLt at h
  split at h <;> cases h <;> exact ⟨rfl, by simp⟩

theorem ParamsStop.of_pathStops (hr : pathStops .type (lookahead r) = true) : ParamsStop r := by
  simp [pathStops, isNodeSecond] at hr
  refine ⟨?_, by simp [hr], by simp [hr], by simp [hr]⟩
  unfold Parse.getLt
  split <;> simp_all

theorem ParamsStop.of_ident (name : Name) : ParamsStop (.op .doubleColon :: .ident name :: us) :=
  ⟨rfl, by simp, by simp, fun _ => rfl⟩

theorem ParamsParse.none : ParamsParse cfg true .empty r r where
  start := .inl rfl
  parses flags hr hret := by
    apply settles_parse
    refine settles_ok fun _ => ?_
    have hlex : ¬ (lookahead r = .op .doubleColon ∧ (getLt r.tail).isSome) := by
      rintro ⟨hcolon, hlt⟩
      rw [hr.turbofish hcolon] at hlt
      cases hlt
    simp [parseCall, parsePathTypeParams, hlex, hr.getLt, hr.paren]

theorem ParamsParse.angle (hlt : getLt ts = some us) (h : EntsParse cfg ok entries us r) :
    ParamsParse cfg ok (.angle entries) ts r where
  start := .inr (getLt_isNodeSecond hlt).1
  parses flags _ _ := by
    apply settles_parse
    simp only [parseCall, parsePathTypeParams, (getLt_isNodeSecond hlt).2, false_and, if_false, hlt]
    exact (h.parses flags).map fun _ => rfl

theorem ParamsParse.turbofish (hlt : getLt ts = some us) (h : EntsParse cfg ok entries us r) :
    ParamsParse cfg ok (.angle entries) (.op .doubleColon :: ts) r where
  start := .inr rfl
  parses flags _ _ := by
    apply settles_parse
    simp only [parseCall, parsePathTypeParams, lookahead_cons, List.tail_cons, hlt, Option.isSome_some,
      and_self, if_true]
    exact (h.parses flags).map fun _ => rfl

theorem pathTypeParams_paren (hr : lookahead r ≠ .op .thinarrow) (h : TypesParse cfg false ok args ts r) :
    Parses cfg flags ok .pathTypeParams (.op .parenOpen :: ts) (.paren args (.tuple [])) r := by
  apply settles_parse
  simp [parseCall, parsePathTypeParams, getLt]
  exact (h.parens flags rfl).map fun _ => by simp [hr]

theorem ParamsParse.paren (h : TypesParse cfg false ok args ts r) :
    ParamsParse cfg ok (.paren args (.tuple [])) (.op .parenOpen :: ts) r where
  start := .inr rfl
  parses _ hr _ := pathTypeParams_paren hr.ret h

theorem ParamsParse.parenRet (h : TypesParse cfg false ok args ts (.op .thinarrow :: us))
    (hret : TypeParses cfg false ok' ret us r) :
    ParamsParse cfg (ok && ok') (.paren args ret) (.op .parenOpen :: ts) r where
  start := .inr rfl
  parses flags _ hr := by
    apply settles_parse
    simp [parseCall, parsePathTypeParams, getLt]
    refine (h.parens flags rfl).bind fun _ => ?_
    simp
    exact (hret.parses flags (hr _ _ rfl)).map fun _ => rfl

end Params

section Nodes

variable {name : Name} {params : PathParams} {nodes : List PathNode} {entries : List PathParamEnt}
variable {args : List Ty}

theorem NodesParse.type (h : ParamsParse cfg ok params ts r) :
    NodesParse cfg .type ok [.mk name params] (.ident name :: ts) r where
  start := ⟨name, ts, rfl⟩
  second := by
    rintro _ _ ⟨rfl, rfl⟩ -
    exact h.start
  parses flags hr := by
    have hcolon : lookahead r ≠ .op .doubleColon := by
      intro he
      rw [he] at hr
      cases hr
    have hparams := h.parses flags (.of_pathStops hr) fun _ _ _ => by simp [typeStops, hr]
    apply settles_parse
    simp [parseCall, parsePathNodes, getCheckIdent]
    exact hparams.map fun _ => by simp [hcolon]

theorem pathNodes_type (hparams : Parses cfg flags ok .pathTypeParams ts params (.op .doubleColon :: us))
    (hs : Parses cfg flags ok' (.pathNodes .type) us nodes r) :
    Parses cfg flags (ok && ok') (.pathNodes .type) (.ident name :: ts) (.mk name params :: nodes) r := by
  apply settles_parse
  simp [parseCall, parsePathNodes, getCheckIdent]
  refine hparams.bind fun _ => ?_
  simp
  exact hs.map fun _ => rfl

theorem NodesParse.typeCons (h : ParamsParse cfg ok (.angle entries) ts (.op .doubleColon :: us))
    (hs : NodesParse cfg .type ok' nodes us r) :
    NodesParse cfg .type (ok && ok') (.mk name (.angle entries) :: nodes) (.ident name :: ts) r where
  start := ⟨name, ts, rfl⟩
  second := by
    rintro _ _ ⟨rfl, rfl⟩ -
    obtain rfl | hts := h.start
    · exact .inr rfl
    · exact .inr hts
  parses flags hr := by
    obtain ⟨next, us', rfl⟩ := hs.start
    exact pathNodes_type (h.parses flags (.of_ident next) nofun) (hs.parses flags hr)

theorem NodesParse.parenCons (h : TypesParse cfg false ok args ts (.op .doubleColon :: us))
    (hs : NodesParse cfg .type ok' nodes us r) :
    NodesParse cfg .type (ok && ok') (.mk name (.paren args (.tuple [])) :: nodes)
      (.ident name :: .op .parenOpen :: ts) r where
  start := ⟨name, _, rfl⟩
  second := by
    rintro _ _ ⟨rfl, rfl⟩ -
    exact .inr rfl
  parses flags hr := pathNodes_type (pathTypeParams_paren (by simp) h) (hs.parses flags hr)

theorem NodesParse.expr : NodesParse cfg .expr true [.mk name .empty] (.ident name :: r) r where
  start := ⟨name, r, rfl⟩
  second := by
    rintro _ _ ⟨rfl, rfl⟩ -
    exact .inl rfl
  parses flags hr := by
    simp [pathStops] at hr
    exact settles_parse (settles_ok fun _ => by simp [parseCall, parsePathNodes, getCheckIdent, hr])

theorem NodesParse.exprCons (hs : NodesParse cfg .expr ok nodes ts r) :
    NodesParse cfg .expr ok (.mk name .empty :: nodes) (.ident name :: .op .doubleColon :: ts) r where
  start := ⟨name, _, rfl⟩
  second := by
    rintro _ _ ⟨rfl, rfl⟩ -
    exact .inr rfl
  parses flags hr := by
    obtain ⟨next, us, rfl⟩ := hs.start
    apply settles_parse
    simp [parseCall, parsePathNodes, getCheckIdent, getLt]
    exact (hs.parses flags hr).map fun _ => rfl

theorem NodesParse.generic (hlt : getLt ts = some us) (h : EntsParse cfg ok entries us r) :
    NodesParse cfg .expr ok [.mk name (.angle entries)] (.ident name :: .op .doubleColon :: ts) r where
  start := ⟨name, _, rfl⟩
  second := by
    rintro _ _ ⟨rfl, rfl⟩ -
    exact .inr rfl
  parses flags hr := by
    simp [pathStops] at hr
    apply settles_parse
    simp [parseCall, parsePathNodes, getCheckIdent, hlt]
    exact (h.parses flags).map fun _ => by simp [hr]

theorem NodesParse.genericCons (hlt : getLt ts = some us)
    (h : EntsParse cfg ok entries us (.op .doubleColon :: vs))
    (hs : NodesParse cfg .expr ok' nodes vs r) :
    NodesParse cfg .expr (ok && ok') (.mk name (.angle entries) :: nodes)
      (.ident name :: .op .doubleColon :: ts) r where
  start := ⟨name, _, rfl⟩
  second := by
    rintro _ _ ⟨rfl, rfl⟩ -
    exact .inr rfl
  parses flags hr := by
    apply settles_parse
    simp [parseCall, parsePathNodes, getCheckIdent, hlt]
    refine (h.parses flags).bind fun _ => ?_
    simp
    exact (hs.parses flags hr).map fun _ => rfl

end Nodes

section Paths

variable {nodes : List PathNode} {name : Name} {path trait : Path} {type : Ty}

theorem PathParses.relative (h : NodesParse cfg mode ok nodes ts r) :
    PathParses cfg mode ok (.relative nodes) ts r where
  start := by
    obtain ⟨name, us, rfl⟩ := h.start
    rfl
  second := h.second
  parses flags hr := by
    obtain ⟨name, us, rfl⟩ := h.start
    exact settles_parse ((h.parses flags hr).map fun _ => rfl)

theorem PathParses.self (h : NodesParse cfg mode ok nodes ts r) :
    PathParses cfg mode ok (.self nodes) (.op .rwordSelf :: .op .doubleColon :: ts) r where
  start := rfl
  second := .of_start rfl
  parses flags hr := settles_parse ((h.parses flags hr).map fun _ => rfl)

theorem parseSupers_superTokens (n count : ℕ) :
    parseSupers n (superTokens count ++ .ident name :: ts) = (n + count, false, .ident name :: ts) := by
  induction count generalizing n with
  | zero => rfl
  | succ count ih =>
    rw [superTokens, List.replicate_succ, List.flatten_cons]
    have := ih (n + 1)
    rw [superTokens] at this
    simp [parseSupers, this]
    omega

theorem PathParses.super (count : ℕ) (h : NodesParse cfg mode ok nodes ts r) :
    PathParses cfg mode ok (.super (count + 1) nodes) (superTokens (count + 1) ++ ts) r where
  start := rfl
  second := .of_start rfl
  parses flags hr := by
    obtain ⟨name, us, rfl⟩ := h.start
    have hsupers := @parseSupers_superTokens us name 1 count
    apply settles_parse
    rw [superTokens] at hsupers ⊢
    simp [parseCall, parsePath, List.replicate_succ, hsupers]
    exact (h.parses flags hr).map fun _ => by simp [Nat.add_comm]

theorem pathAbs_ident (h : Parses cfg flags ok (.pathNodes mode) (.ident name :: ts) nodes r) :
    Parses cfg flags ok (.pathAbs mode) (.ident name :: ts) (.absolute [] nodes) r :=
  settles_parse (h.map fun _ => rfl)

theorem PathParses.crate (h : NodesParse cfg mode ok nodes ts r) :
    PathParses cfg mode ok (.absolute [] nodes) (.op .rwordCrate :: .op .doubleColon :: ts) r where
  start := rfl
  second := .of_start rfl
  parses flags hr := by
    obtain ⟨name, us, rfl⟩ := h.start
    exact settles_parse (pathAbs_ident (h.parses flags hr))

theorem PathParses.root (hedition : cfg.edition = .rust2015) (h : NodesParse cfg mode ok nodes ts r) :
    PathParses cfg mode ok (.absolute [] nodes) (.op .doubleColon :: ts) r where
  start := rfl
  second := .of_start rfl
  parses flags hr := by
    obtain ⟨name, us, rfl⟩ := h.start
    apply settles_parse
    simp only [parseCall, parsePath, hedition, if_true]
    exact pathAbs_ident (h.parses flags hr)

theorem PathParses.external (hedition : cfg.edition ≠ .rust2015)
    (h : NodesParse cfg mode ok nodes ts r) :
    PathParses cfg mode ok (.absolute (ascii ['='] ++ name) nodes)
      (.op .doubleColon :: .ident name :: .op .doubleColon :: ts) r where
  start := rfl
  second := .of_start rfl
  parses flags hr := by
    apply settles_parse
    simp only [parseCall, parsePath, hedition, if_false, lookahead_cons, if_true, List.tail_cons]
    exact (h.parses flags hr).map fun _ => rfl

theorem PathParses.externCrate (hedition : cfg.edition ≠ .rust2015) :
    PathParses cfg mode true (.absolute (ascii ['='] ++ name) [])
      (.op .doubleColon :: .ident name :: r) r where
  start := rfl
  second := .of_start rfl
  parses flags hr := by
    have hcolon : lookahead r ≠ .op .doubleColon := by
      intro he
      rw [he] at hr
      cases mode <;> cases hr
    exact settles_parse (settles_ok fun _ => by simp [parseCall, parsePath, hedition, hcolon])

theorem PathParses.string (crate : Name) (hygiene : Hygiene) (h : NodesParse cfg mode ok nodes ts r) :
    PathParses cfg mode ok (.absolute crate nodes)
      (.op .doubleColon :: .string crate hygiene :: .op .doubleColon :: ts) r where
  start := rfl
  second := .of_start rfl
  parses flags hr := settles_parse (settles_parse ((h.parses flags hr).map fun _ => rfl))

theorem PathParses.qualified (h : TypeParses cfg true ok type ts (.op .gt :: .op .doubleColon :: us))
    (hs : NodesParse cfg mode ok' nodes us r) :
    PathParses cfg mode (ok && ok') (.ufcs type none nodes) (.op .lt :: ts) r where
  start := rfl
  second := .of_start rfl
  parses flags hr := by
    refine settles_parse ((h.parses flags rfl).bind fun _ => ?_)
    exact (hs.parses flags hr).map fun _ => rfl

theorem PathParses.qualifiedTrait (h : TypeParses cfg true ok type ts (.op .rwordAs :: us))
    (htrait : PathParses cfg .type ok' trait us (.op .gt :: .op .doubleColon :: vs))
    (hs : NodesParse cfg mode ok'' nodes vs r) :
    PathParses cfg mode (ok && (ok' && ok'')) (.ufcs type (some trait) nodes) (.op .lt :: ts) r where
  start := rfl
  second := .of_start rfl
  parses flags hr := by
    refine settles_parse ((h.parses flags rfl).bind fun _ => ?_)
    refine (htrait.parses flags rfl).bind fun _ => ?_
    exact (hs.parses flags hr).map fun _ => rfl

/-- A `<<` is read like two `<`. -/
theorem PathParses.join (h : PathParses cfg mode ok path (.op .lt :: .op .lt :: ts) r) :
    PathParses cfg mode ok path (.op .doubleLt :: ts) r where
  start := rfl
  second := .of_start rfl
  parses flags hr := (h.parses flags hr).congr fun n => by cases n <;> rfl

end Paths

section Generics

variable {entries : List PathParamEnt} {ent : PathParamEnt} {path : Path} {e : Expr}
variable {name : Name}

theorem isGt_of_getCheckGt (h : getCheckGt ts = .ok r) : isGt (lookahead ts) = true := by
  unfold getCheckGt at h
  split at h <;> cases h <;> rfl

theorem EntsParse.nil (hgt : getCheckGt ts = .ok r) : EntsParse cfg true [] ts r where
  parses flags := settles_parse (settles_ok fun _ => by
    simp [parseCall, parsePathGenericList, isGt_of_getCheckGt hgt, hgt])

theorem EntsParse.last (h : EntParses cfg ok ent ts us) (hgt : getCheckGt us = .ok r) :
    EntsParse cfg ok [ent] ts r where
  parses flags := by
    have hus := isGt_of_getCheckGt hgt
    have hcomma : lookahead us ≠ .op .comma := ne_of_start hus rfl
    apply settles_parse
    simp only [parseCall, parsePathGenericList, h.start]
    exact (h.parses flags (by simp [entStops, hus])).map fun _ => by simp [hcomma, hgt]

theorem EntsParse.cons (h : EntParses cfg ok ent ts (.op .comma :: us))
    (hs : EntsParse cfg ok' entries us r) : EntsParse cfg (ok && ok') (ent :: entries) ts r where
  parses flags := by
    apply settles_parse
    simp only [parseCall, parsePathGenericList, h.start]
    refine (h.parses flags rfl).bind fun _ => ?_
    exact (hs.parses flags).map fun _ => rfl

theorem EntParses.lifetime : EntParses cfg true (.lifetime name) (.lifetime name :: r) r where
  start := rfl
  parses _ _ := settles_parse (settles_ok fun _ => rfl)

theorem entStops_cases (hr : entStops (lookahead r) = true) : ∃ type us, r = .op type :: us ∧
    type ∈ [TokenType.comma, .gt, .doubleGt, .gte, .doubleGtEqual] := by
  cases r with
  | nil => cases hr
  | cons tok us =>
    rw [lookahead_cons, entStops, Bool.or_eq_true, decide_eq_true_eq] at hr
    obtain rfl | hgt := hr
    · exact ⟨_, _, rfl, by simp⟩
    · simp only [isGt, decide_eq_true_eq, List.mem_cons, List.not_mem_nil, or_false] at hgt
      obtain rfl | rfl | rfl | rfl := hgt <;> exact ⟨_, _, rfl, by simp⟩

theorem typeStops_of_entStops {b : Bool} (hr : entStops (lookahead r) = true) :
    typeStops b (lookahead r) = true := by
  obtain ⟨type, us, rfl, htype⟩ := entStops_cases hr
  simp only [List.mem_cons, List.not_mem_nil, or_false] at htype
  obtain rfl | rfl | rfl | rfl | rfl := htype <;> cases b <;> rfl

/-- The start of a type is neither the end of a list nor the start of a value. -/
theorem isGt_of_isTypeStart (h : isTypeStart tok = true) :
    isGt tok = false ∧ isGenericValueStart tok = false := by
  cases tok with
  | op type =>
    simp only [isTypeStart, decide_eq_true_eq, List.mem_cons, List.not_mem_nil, or_false] at h
    rcases h with rfl | rfl | rfl | rfl | rfl | rfl | rfl | rfl | rfl | rfl | rfl | rfl | rfl | rfl |
      rfl | rfl | rfl | rfl <;> exact ⟨rfl, rfl⟩
  | ident name => exact ⟨rfl, rfl⟩
  | _ => cases h

theorem parseGenericEnt_type (hts : isTypeStart (lookahead ts) = true)
    (hsecond : FollowsName isTypeSecond ts r) (hr : isTypeSecond (lookahead r) = true) :
    parseGenericEnt call flags ts = (do
      let (type, lex) ← call flags _ (.type true) ts
      match lex with
      | .op .equal :: lex => do
        let name ← parseGenericEnt.assocName type
        let (type, lex) ← call flags _ (.type false) lex
        return ([.assocEqual name type], lex)
      | .op .colon :: lex => do
        let name ← parseGenericEnt.assocName type
        call flags _ (.assocBounds name) lex
      | lex => return ([.type type], lex)) := by
  have hname {name : Name} {us : List Token} (he : ts = .ident name :: us) :
      isTypeSecond (lookahead us) = true := by
    obtain rfl | hus := hsecond _ _ he rfl
    · exact hr
    · exact hus
  unfold parseGenericEnt
  split
  · cases hts
  · exact absurd (hname rfl) (by simp [isTypeSecond])
  · exact absurd (hname rfl) (by simp [isTypeSecond])
  · simp only [isGt_of_isTypeStart hts]
    rfl

theorem EntParses.type {type : Ty} (h : TypeParses cfg true ok type ts r) :
    EntParses cfg ok (.type type) ts r where
  start := (isGt_of_isTypeStart h.start).1
  parses flags hr := by
    have htype := h.parses flags (typeStops_of_entStops hr)
    obtain ⟨stop, us, rfl, hstop⟩ := entStops_cases hr
    have hsecond : isTypeSecond (.op stop) = true := by
      simp only [List.mem_cons, List.not_mem_nil, or_false] at hstop
      obtain rfl | rfl | rfl | rfl | rfl := hstop <;> rfl
    apply settles_parse
    simp only [parseCall, parseGenericEnt_type h.start h.second hsecond]
    refine htype.map fun _ => ?_
    simp only [isTypeSecond, Bool.and_eq_true, decide_eq_true_eq] at hsecond
    split <;> simp_all

theorem EntParses.assocEqual {type : Ty} (h : TypeParses cfg false ok type ts r) :
    EntParses cfg ok (.assocEqual name type) (.ident name :: .op .equal :: ts) r where
  start := rfl
  parses flags hr := settles_parse
    ((h.parses flags (typeStops_of_entStops hr)).map fun _ => rfl)

theorem EntParses.assocBound (h : PathParses cfg .type ok path ts r) :
    EntParses cfg ok (.assocBound name path) (.ident name :: .op .colon :: ts) r where
  start := rfl
  parses flags hr := by
    have htype := typeStops_of_entStops (b := true) hr
    simp only [typeStops, Bool.and_eq_true, Bool.true_and, Bool.not_eq_true', decide_eq_false_iff_not]
      at htype
    refine settles_parse (settles_parse ((h.parses flags htype.1).map fun _ => ?_))
    simp [htype.2]

end Generics

end Mrustc.Parse
