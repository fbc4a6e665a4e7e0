import Mrustc.Parse.SpelledPaths

/-! # Expressions are parsed as they are spelled

A spelling with a precedence is parsed by every function of that precedence or a lower one, as
long as the token behind it does not bind tighter than the function does.
-/

namespace Mrustc.Ast
open Parse

/-- The loop that knows the operator; `<-` is in none. -/
def BinOp.level : BinOp → Level
  | .cmpEqu | .cmpNequ => .expr3
  | .cmpLt | .cmpLte | .cmpGt | .cmpGte => .expr4
  | .boolAnd => .expr2
  | .boolOr => .expr1_5
  | .bitAnd => .expr7
  | .bitOr => .expr5
  | .bitXor => .expr6
  | .shl | .shr => .expr8
  | .multiply | .divide | .modulo => .expr10
  | .add | .sub => .expr9
  | .placeIn => .expr1_2

end Mrustc.Ast

namespace Mrustc.Parse
open Ast Depth

variable {cfg : ParseConfig} {call : Caller} {flags : ParseFlags} {ok ok' ok'' : Bool}
variable {ts us vs r : List Token} {tok : Token} {e : Expr} {l : Level}

section Tightness

/-- The place of a loop in the tower of the parse functions. -/
def Level.rank : Level → ℕ
  | .expr1_2 => 4 | .expr1_5 => 5 | .expr2 => 6 | .expr3 => 7 | .expr4 => 8 | .expr5 => 9
  | .expr6 => 10 | .expr7 => 11 | .expr8 => 12 | .expr9 => 13 | .expr10 => 14 | .expr11 => 15

/-- The least precedence that is parsed by a loop and those above it. -/
def Level.minPrec : Level → ℕ
  | .expr1_2 => 3 | .expr1_5 => 3 | .expr2 => 4 | .expr3 => 5 | .expr4 => 6 | .expr5 => 6
  | .expr6 => 7 | .expr7 => 8 | .expr8 => 9 | .expr9 => 10 | .expr10 => 11 | .expr11 => 12

/-- The place in the tower of the last function that goes on at a token. -/
def tightness : Token → ℕ
  | .op .equal | .op .plusEqual | .op .dashEqual | .op .starEqual | .op .slashEqual
  | .op .percentEqual | .op .ampEqual | .op .pipeEqual | .op .caretEqual | .op .doubleGtEqual
  | .op .doubleLtEqual => 1
  | .op .thinarrowLeft => 2
  | .op .doubleDot => 3
  | .op .doubleDotEqual | .op .tripleDot => 4
  | .op .doublePipe => 5
  | .op .doubleAmp => 6
  | .op .doubleEqual | .op .exclamEqual => 7
  | .op .lt | .op .gt | .op .lte | .op .gte => 8
  | .op .pipe => 9
  | .op .caret => 10
  | .op .amp => 11
  | .op .doubleLt | .op .doubleGt => 12
  | .op .plus | .op .dash => 13
  | .op .star | .op .slash | .op .percent => 14
  | .op .rwordAs => 15
  | .op .colon => 16
  | .op .parenOpen | .op .squareOpen | .op .qmark | .op .dot => 18
  | .op .doubleColon | .op .exclam | .op .braceOpen | .op .hash => 19
  | .op .rwordMut | .op .rwordConst | .ident _ | .integer _ _ | .float _ _ | .string _ _
  | .op .underscore | .op .rwordTrue | .op .rwordFalse | .op .rwordSelf | .op .rwordSuper
  | .op .rwordCrate | .op .rwordBox | .op .rwordIn => 20
  | _ => 0

/-- No value follows a complete range. -/
theorem not_isTokValue (h : tightness tok ≤ 2) : parseIsTokValue tok = false := by
  cases hvalue : parseIsTokValue tok with
  | false => rfl
  | true =>
    cases tok with
    | op type =>
      simp only [parseIsTokValue, decide_eq_true_eq, List.mem_cons, List.not_mem_nil, or_false]
        at hvalue
      rcases hvalue with rfl | rfl | rfl | rfl | rfl | rfl | rfl | rfl | rfl | rfl | rfl | rfl | rfl |
        rfl | rfl | rfl <;> exact absurd h (by decide)
    | _ => first | exact absurd hvalue Bool.false_ne_true | exact absurd h (by simp [tightness])

theorem isRangeInc_cases (h : isRangeInc cfg tok = true) :
    tok = .op .tripleDot ∨ tok = .op .doubleDotEqual := by
  simp only [isRangeInc, Bool.or_eq_true, Bool.and_eq_true, decide_eq_true_eq] at h
  exact h.imp_right And.right

theorem tightness_of_cases {c : LoopCase} (h : l.cases cfg tok = some c) : tightness tok = l.rank := by
  unfold Level.cases at h
  split at h <;> try rfl
  · split_ifs at h with hrange
    obtain rfl | rfl := isRangeInc_cases hrange <;> rfl
  · cases h

theorem cases_eq_none (h : tightness tok < l.rank) : l.cases cfg tok = none := by
  cases hc : l.cases cfg tok with
  | none => rfl
  | some c => exact absurd (tightness_of_cases hc) h.ne

theorem loop_stops (h : tightness (lookahead r) < l.rank) :
    Parses cfg flags true (.leftAssocLoop l e) r e r :=
  settles_parse (settles_ok fun _ => by simp [parseCall, parseLeftAssocLoop, cases_eq_none h])

theorem fcLoop_stops (h : tightness (lookahead r) < 18) :
    Parses cfg flags true (.exprFCLoop e) r e r := by
  apply settles_parse
  refine settles_ok fun _ => ?_
  simp only [parseCall]
  unfold parseExprFCLoop
  split <;> first | rfl | exact (Nat.lt_irrefl 18 h).elim

end Tightness

section Starts

def isPrimaryStart : Token → Bool
  | .ident _ | .integer _ _ | .float _ _ | .string _ _ | .byteString _ => true
  | .op type => type ∈ [.parenOpen, .rwordTrue, .rwordFalse, .rwordSelf, .rwordSuper, .rwordCrate,
      .doubleColon, .lt, .doubleLt]
  | _ => false

def isPrefixStart (tok : Token) : Bool :=
  tok ∈ [Token.op .dash, .op .exclam, .op .star, .op .rwordBox, .op .amp, .op .doubleAmp]

def isRangeStart (tok : Token) : Bool :=
  tok ∈ [Token.op .doubleDot, .op .doubleDotEqual, .op .tripleDot]

/-- What starts an expression where a precedence is asked for. -/
def isExprStart (prec : ℕ) (tok : Token) : Bool :=
  isPrimaryStart tok || (prec ≤ 13 && isPrefixStart tok) || (prec ≤ 2 && isRangeStart tok)

/-- The name in front is an operand, not the `raw` of a borrow. -/
def isOperandSecond (tok : Token) : Bool := tok ≠ .op .rwordMut && tok ≠ .op .rwordConst

theorem isExprStart_mono {k k' : ℕ} (h : isExprStart k tok = true) (hk : k' ≤ k) :
    isExprStart k' tok = true := by
  simp only [isExprStart, Bool.or_eq_true, Bool.and_eq_true, decide_eq_true_eq] at h ⊢
  obtain (hprimary | ⟨hle, hprefix⟩) | ⟨hle, hrange⟩ := h
  · exact .inl (.inl hprimary)
  · exact .inl (.inr ⟨hk.trans hle, hprefix⟩)
  · exact .inr ⟨hk.trans hle, hrange⟩

/-- An expression that is no range starts with an operand. -/
theorem operand_of_isExprStart {k : ℕ} (h : isExprStart k tok = true) (hk : 3 ≤ k) :
    isPrimaryStart tok = true ∨ isPrefixStart tok = true := by
  simp only [isExprStart, Bool.or_eq_true, Bool.and_eq_true, decide_eq_true_eq] at h
  obtain (hprimary | ⟨-, hprefix⟩) | ⟨hle, -⟩ := h
  · exact .inl hprimary
  · exact .inr hprefix
  · omega

theorem isRangeStart_of_isExprStart {k : ℕ} (h : isExprStart k tok = true) (hk : 3 ≤ k) :
    isRangeStart tok = false := by
  have hop := operand_of_isExprStart h hk
  by_contra hrange
  simp only [isRangeStart, Bool.not_eq_false, decide_eq_true_eq, List.mem_cons, List.not_mem_nil,
    or_false] at hrange
  obtain rfl | rfl | rfl := hrange <;> exact absurd hop (by decide)

theorem prefixOp_of_isPrimaryStart (h : isPrimaryStart tok = true) : prefixOp tok = none := by
  unfold prefixOp
  split <;> first | rfl | cases h

/-- What starts an operand is a value for the parser, or left behind. -/
theorem isUnknownValue_of_isExprStart {k : ℕ} (h : isExprStart k tok = true) (hk : 3 ≤ k)
    (hvalue : parseIsTokValue tok = false) : isUnknownValue tok = true := by
  obtain hprimary | hprefix := operand_of_isExprStart h hk
  · cases tok with
    | op type =>
      simp only [isPrimaryStart, decide_eq_true_eq, List.mem_cons, List.not_mem_nil, or_false]
        at hprimary
      obtain rfl | rfl | rfl | rfl | rfl | rfl | rfl | rfl | rfl := hprimary <;>
        first | rfl | cases hvalue
    | byteString value => rfl
    | _ => first
      | exact absurd hprimary Bool.false_ne_true
      | exact absurd hvalue.symm Bool.false_ne_true
  · simp only [isPrefixStart, decide_eq_true_eq, List.mem_cons, List.not_mem_nil, or_false]
      at hprefix
    obtain rfl | rfl | rfl | rfl | rfl | rfl := hprefix <;> first | rfl | cases hvalue

end Starts

section Tower

/-- An expression in front of what the loop does with it. -/
def LevelParses (cfg : ParseConfig) (l : Level) (ok : Bool) (e : Expr) (ts r : List Token) : Prop :=
  ∀ flags, flags.disallowCallOrIndex = false → ∀ ok' v,
    Returns ok' (fun n => parse cfg n flags _ (.leftAssocLoop l e) r) v →
    Returns (ok && ok') (fun n => parse cfg n flags _ (.leftAssoc l) ts) v

/-- An expression in front of calls, indices and fields. -/
def FCParses (cfg : ParseConfig) (ok : Bool) (e : Expr) (ts r : List Token) : Prop :=
  ∀ flags, flags.disallowCallOrIndex = false → ∀ ok' v,
    Returns ok' (fun n => parse cfg n flags _ (.exprFCLoop e) r) v →
    Returns (ok && ok') (fun n => parse cfg n flags _ .exprFC ts) v

theorem LevelParses.parses (h : LevelParses cfg l ok e ts r) (hr : tightness (lookahead r) < l.rank)
    (hflags : flags.disallowCallOrIndex = false) : Parses cfg flags ok (.leftAssoc l) ts e r := by
  have := h flags hflags true (e, r) (loop_stops hr)
  rwa [Bool.and_true] at this

theorem LevelParses.of_next {l' : Level} (h : LevelParses cfg l' ok e ts r)
    (hnext : l.next = .leftAssoc l') (hr : tightness (lookahead r) < l'.rank) :
    LevelParses cfg l ok e ts r := by
  intro flags hflags ok' v hloop
  apply settles_parse
  simp only [parseCall, parseLeftAssoc, hnext]
  exact (h.parses hr hflags).bind fun _ => hloop

theorem exists_next {l l' : Level} (h : l.rank < l'.rank) :
    ∃ m : Level, l.next = .leftAssoc m ∧ m.rank = l.rank + 1 := by
  cases l <;> first
    | exact ⟨_, rfl, rfl⟩
    | (cases l' <;> exact absurd h (by decide))

theorem rank_injective {l l' : Level} (h : l.rank = l'.rank) : l = l' := by
  cases l <;> cases l' <;> first | rfl | cases h

/-- What a loop parses is parsed by those above it, up to a token that is not theirs. -/
theorem LevelParses.lower {l' : Level} (h : LevelParses cfg l' ok e ts r) (hl : l.rank ≤ l'.rank)
    (hr : tightness (lookahead r) ≤ l.rank) : LevelParses cfg l ok e ts r := by
  induction hd : l'.rank - l.rank generalizing l with
  | zero =>
    rw [rank_injective (show l.rank = l'.rank by omega)]
    exact h
  | succ d ih =>
    obtain ⟨m, hnext, hm⟩ := exists_next (show l.rank < l'.rank by omega)
    exact (ih (by omega) (by omega) (by omega)).of_next hnext (by omega)

theorem LevelParses.of_expr12
    (h : ∀ flags, flags.disallowCallOrIndex = false → Parses cfg flags ok .expr12 ts e r) :
    LevelParses cfg .expr11 ok e ts r := by
  intro flags hflags ok' v hloop
  apply settles_parse
  exact (h flags hflags).bind fun _ => hloop

theorem expr12_of_expr13 (h : Parses cfg flags ok .expr13 ts e r) (hr : lookahead r ≠ .op .colon) :
    Parses cfg flags ok .expr12 ts e r :=
  settles_parse (h.map fun _ => by simp [hr])

theorem expr13_of_fc (h : FCParses cfg ok e ts r) (hts : prefixOp (lookahead ts) = none)
    (hr : tightness (lookahead r) < 18) (hflags : flags.disallowCallOrIndex = false) :
    Parses cfg flags ok .expr13 ts e r := by
  have hfc := h flags hflags true (e, r) (fcLoop_stops hr)
  rw [Bool.and_true] at hfc
  apply settles_parse
  simp only [parseCall, parseExpr13, hts]
  exact hfc

theorem FCParses.of_val
    (h : ∀ flags, flags.disallowCallOrIndex = false → Parses cfg flags ok .exprVal ts e r) :
    FCParses cfg ok e ts r := by
  intro flags hflags ok' v hloop
  exact settles_parse ((h flags hflags).bind fun _ => hloop)

theorem isRangeInc_ne {c : ParseConfig} (h : isRangeStart (lookahead ts) = false) :
    isRangeInc c (lookahead ts) = false ∧ lookahead ts ≠ .op .doubleDot := by
  constructor
  · by_contra hinc
    obtain he | he := isRangeInc_cases (Bool.not_eq_false _ ▸ hinc) <;> rw [he] at h <;> cases h
  · intro he
    rw [he] at h
    cases h

theorem expr1_1_of_level (h : LevelParses cfg .expr1_2 ok e ts r)
    (hts : isRangeStart (lookahead ts) = false) (hr : tightness (lookahead r) ≤ 2)
    (hflags : flags.disallowCallOrIndex = false) : Parses cfg flags ok .expr1_1 ts e r := by
  have hparses := h.parses (show _ < 4 by omega) hflags
  obtain ⟨hinc, hdots⟩ := isRangeInc_ne (c := cfg) hts
  have hrest : lookahead r ≠ .op .doubleDot := by
    intro he
    rw [he] at hr
    exact absurd hr (by decide)
  apply settles_parse
  simp only [parseCall, parseExpr1_1, hinc, hdots]
  exact hparses.map fun _ => by simp [hrest]

/-- A value that is left behind is no operator of `parseExpr1` or `parseExpr0`. -/
theorem LeavesValue.stops {v : Expr × List Token} (h : LeavesValue v) :
    lookahead v.2 ≠ .op .thinarrowLeft ∧ assignOp (lookahead v.2) = none := by
  constructor
  · exact ne_of_start h rfl
  · unfold assignOp
    rw [LeavesValue] at h
    split <;> first | rfl | (rename_i he; rw [he] at h; cases h)

theorem expr1_of_expr1_1 (h : Settles LeavesValue ok (fun n => parse cfg n flags _ .expr1_1 ts) (e, r))
    (hr : tightness (lookahead r) ≤ 1) :
    Settles LeavesValue ok (fun n => parse cfg n flags _ .expr1 ts) (e, r) := by
  have hplace : lookahead r ≠ .op .thinarrowLeft := by
    intro he
    rw [he] at hr
    exact absurd hr (by decide)
  refine settles_parse (h.map (fun _ v hv w hw => ?_) fun _ => by simp [hplace])
  simp only [hv.stops.1, if_false, pure_eq_ok, Except.ok.injEq] at hw
  rwa [← hw]

theorem expr0_of_expr1 (h : ∀ flags, flags.disallowCallOrIndex = false →
      Settles LeavesValue ok (fun n => parse cfg n flags _ .expr1 ts) (e, r))
    (hts : lookahead ts ≠ .op .hash) (hr : tightness (lookahead r) = 0) :
    Settles LeavesValue ok (fun n => parse cfg n flags _ .expr0 ts) (e, r) := by
  have hassign : assignOp (lookahead r) = none := by
    unfold assignOp
    split <;> first | rfl | (rename_i he; rw [he] at hr; cases hr)
  apply settles_parse
  simp only [parseCall, parseExpr0, parseItemAttrs, hts, if_false, ok_bind]
  refine (h _ rfl).map (fun _ v hv w hw => ?_) fun _ => by simp [hassign]
  simp only [hv.stops.2, pure_eq_ok, Except.ok.injEq] at hw
  rwa [← hw]

end Tower

section Spelled

/-- What a spelled expression is parsed to by each of the functions of its precedence. -/
structure ExprParses (cfg : ParseConfig) (k : ℕ) (c ok : Bool) (e : Expr) (ts r : List Token) :
    Prop where
  start : isExprStart k (lookahead ts) = true
  second : FollowsName isOperandSecond ts r
  expr0 (flags : ParseFlags) (hr : tightness (lookahead r) = 0)
    (hc : c = true → typeStops false (lookahead r) = true) :
    Settles LeavesValue ok (fun n => parse cfg n flags _ .expr0 ts) (e, r)
  expr1 (flags : ParseFlags) (hk : 1 ≤ k) (hr : tightness (lookahead r) ≤ 1)
    (hc : c = true → typeStops false (lookahead r) = true) (hflags : flags.disallowCallOrIndex = false) :
    Settles LeavesValue ok (fun n => parse cfg n flags _ .expr1 ts) (e, r)
  expr1_1 (flags : ParseFlags) (hk : 2 ≤ k) (hr : tightness (lookahead r) ≤ 2)
    (hc : c = true → typeStops false (lookahead r) = true) (hflags : flags.disallowCallOrIndex = false) :
    Settles LeavesValue ok (fun n => parse cfg n flags _ .expr1_1 ts) (e, r)
  level (l : Level) (hk : l.minPrec ≤ k) (hr : tightness (lookahead r) ≤ l.rank)
    (hc : c = true → typeStops false (lookahead r) = true) : LevelParses cfg l ok e ts r
  expr12 (flags : ParseFlags) (hk : 13 ≤ k) (hr : tightness (lookahead r) ≤ 15)
    (hflags : flags.disallowCallOrIndex = false) : Parses cfg flags ok .expr12 ts e r
  fc (hk : 14 ≤ k) (hr : tightness (lookahead r) ≤ 18)
    (hcall : lookahead r = .op .parenOpen → calledByName e = false) : FCParses cfg ok e ts r

variable {k : ℕ} {c : Bool}

theorem lookahead_ne_hash (h : isExprStart k (lookahead ts) = true) : lookahead ts ≠ .op .hash := by
  intro he
  simp [he, isExprStart, isPrimaryStart, isPrefixStart, isRangeStart] at h

theorem ExprParses.of_expr0 (hts : isExprStart 0 (lookahead ts) = true)
    (hsecond : FollowsName isOperandSecond ts r)
    (h : ∀ flags, tightness (lookahead r) = 0 → (c = true → typeStops false (lookahead r) = true) →
      Settles LeavesValue ok (fun n => parse cfg n flags _ .expr0 ts) (e, r)) :
    ExprParses cfg 0 c ok e ts r where
  start := hts
  second := hsecond
  expr0 := h
  expr1 _ hk := absurd hk (by decide)
  expr1_1 _ hk := absurd hk (by decide)
  level l hk := absurd hk (by cases l <;> decide)
  expr12 _ hk := absurd hk (by decide)
  fc hk := absurd hk (by decide)

theorem ExprParses.of_expr1 (hk : k ≤ 1) (hts : isExprStart k (lookahead ts) = true)
    (hsecond : FollowsName isOperandSecond ts r)
    (h : ∀ flags, flags.disallowCallOrIndex = false → tightness (lookahead r) ≤ 1 →
      (c = true → typeStops false (lookahead r) = true) →
      Settles LeavesValue ok (fun n => parse cfg n flags _ .expr1 ts) (e, r)) :
    ExprParses cfg k c ok e ts r where
  start := hts
  second := hsecond
  expr0 _ hr hc := expr0_of_expr1 (fun flags hflags => h flags hflags (by omega) hc)
    (lookahead_ne_hash hts) hr
  expr1 flags _ hr hc hflags := h flags hflags hr hc
  expr1_1 _ hk := by omega
  level l hk := by cases l <;> simp only [Level.minPrec] at hk <;> omega
  expr12 _ hk := by omega
  fc hk := by omega

theorem ExprParses.of_expr1_1 (hk : k ≤ 2) (hts : isExprStart k (lookahead ts) = true)
    (hsecond : FollowsName isOperandSecond ts r)
    (h : ∀ flags, flags.disallowCallOrIndex = false → tightness (lookahead r) ≤ 2 →
      (c = true → typeStops false (lookahead r) = true) →
      Settles LeavesValue ok (fun n => parse cfg n flags _ .expr1_1 ts) (e, r)) :
    ExprParses cfg k c ok e ts r where
  start := hts
  second := hsecond
  expr0 _ hr hc := expr0_of_expr1
    (fun flags hflags => expr1_of_expr1_1 (h flags hflags (by omega) hc) (by omega))
    (lookahead_ne_hash hts) hr
  expr1 flags _ hr hc hflags := expr1_of_expr1_1 (h flags hflags (by omega) hc) hr
  expr1_1 flags _ hr hc hflags := h flags hflags hr hc
  level l hk := by cases l <;> simp only [Level.minPrec] at hk <;> omega
  expr12 _ hk := by omega
  fc hk := by omega

/-- The loops from the one of the expression upwards, and what is above them. -/
theorem ExprParses.of_level {l : Level} (hk : k ≤ 12) (hl : ∀ l' : Level, l'.minPrec ≤ k → l'.rank ≤ l.rank)
    (hts : isExprStart 3 (lookahead ts) = true) (hstart : isExprStart k (lookahead ts) = true)
    (hsecond : FollowsName isOperandSecond ts r)
    (h : tightness (lookahead r) ≤ l.rank → (c = true → typeStops false (lookahead r) = true) →
      LevelParses cfg l ok e ts r) :
    ExprParses cfg k c ok e ts r := by
  have hrank : 4 ≤ l.rank := by cases l <;> decide
  have hlow (hr : tightness (lookahead r) ≤ 2) (hc : c = true → typeStops false (lookahead r) = true)
      (flags : ParseFlags) (hflags : flags.disallowCallOrIndex = false) :
      Settles LeavesValue ok (fun n => parse cfg n flags _ .expr1_1 ts) (e, r) := by
    have hlevel := (h (by omega) hc).lower (l := .expr1_2) hrank (show _ ≤ 4 by omega)
    exact (expr1_1_of_level hlevel (isRangeStart_of_isExprStart hts le_rfl) hr hflags).settles
  exact {
    start := hstart
    second := hsecond
    expr0 := fun _ hr hc => expr0_of_expr1
      (fun flags hflags => expr1_of_expr1_1 (hlow (by omega) hc flags hflags) (by omega))
      (lookahead_ne_hash hts) hr
    expr1 := fun flags _ hr hc hflags => expr1_of_expr1_1 (hlow (by omega) hc flags hflags) hr
    expr1_1 := fun flags _ hr hc hflags => hlow hr hc flags hflags
    level := fun l' hk hr hc => (h (hr.trans (hl l' hk)) hc).lower (hl l' hk) hr
    expr12 := fun _ hk => by omega
    fc := fun hk => by omega }

/-- A prefix operator, or what binds tighter. -/
theorem ExprParses.of_expr13 (hts : isExprStart 13 (lookahead ts) = true)
    (hstart : isExprStart k (lookahead ts) = true) (hsecond : FollowsName isOperandSecond ts r)
    (h : tightness (lookahead r) ≤ 15 → ∀ flags, flags.disallowCallOrIndex = false →
      Parses cfg flags ok .expr13 ts e r)
    (hfc : 14 ≤ k → tightness (lookahead r) ≤ 18 →
      (lookahead r = .op .parenOpen → calledByName e = false) → FCParses cfg ok e ts r) :
    ExprParses cfg k c ok e ts r := by
  have hexpr12 (hr : tightness (lookahead r) ≤ 15) (flags : ParseFlags)
      (hflags : flags.disallowCallOrIndex = false) : Parses cfg flags ok .expr12 ts e r := by
    refine expr12_of_expr13 (h hr flags hflags) fun he => ?_
    rw [he] at hr
    exact absurd hr (by decide)
  have hlevel : ExprParses cfg (min k 12) c ok e ts r := by
    refine .of_level (l := .expr11) (min_le_right _ _) ?_ (isExprStart_mono hts (by decide))
      (isExprStart_mono hstart (min_le_left _ _)) hsecond fun hr _ => .of_expr12 (hexpr12 hr)
    intro l' _
    cases l' <;> decide
  exact {
    start := hstart
    second := hsecond
    expr0 := hlevel.expr0
    expr1 := fun flags hk => hlevel.expr1 flags (by omega)
    expr1_1 := fun flags hk => hlevel.expr1_1 flags (by omega)
    level := fun l hk => hlevel.level l (le_min hk (by cases l <;> decide))
    expr12 := fun flags _ hr hflags => hexpr12 hr flags hflags
    fc := hfc }

theorem isExprStart_of_isPrimaryStart (h : isPrimaryStart tok = true) (k : ℕ) :
    isExprStart k tok = true := by
  simp [isExprStart, h]

theorem ExprParses.of_fc (hts : isPrimaryStart (lookahead ts) = true)
    (hsecond : FollowsName isOperandSecond ts r)
    (h : tightness (lookahead r) ≤ 18 →
      (lookahead r = .op .parenOpen → calledByName e = false) → FCParses cfg ok e ts r) :
    ExprParses cfg k c ok e ts r := by
  refine .of_expr13 (isExprStart_of_isPrimaryStart hts 13) (isExprStart_of_isPrimaryStart hts k)
    hsecond (fun hr flags hflags => ?_) fun _ => h
  have hcall : lookahead r = .op .parenOpen → calledByName e = false := by
    intro he
    rw [he] at hr
    exact absurd hr (by decide)
  exact expr13_of_fc (h (by omega) hcall) (prefixOp_of_isPrimaryStart hts) (by omega) hflags

end Spelled

section Operators

variable {k : ℕ} {c c' : Bool} {left right slot value : Expr} {type : Ty}

@[simp] theorem assignOp_token (op : AssignOp) : assignOp (.op op.token) = some op := by
  cases op <;> rfl

theorem FollowsName.of_op {allowed : Token → Bool} (h : FollowsName allowed ts us)
    (hus : allowed (lookahead us) = true) : FollowsName allowed ts r := by
  intro tok vs hts hname
  obtain rfl | hvs := h tok vs hts hname
  · exact .inr hus
  · exact .inr hvs

theorem ExprParses.assign (op : AssignOp) (hslot : ExprParses cfg 1 c ok slot ts (.op op.token :: us))
    (hvalue : ExprParses cfg 0 c' ok' value us r) :
    ExprParses cfg 0 c' (ok && ok') (.assign op slot value) ts r := by
  have hop : tightness (.op op.token) ≤ 1 ∧ typeStops false (.op op.token) = true ∧
      isOperandSecond (.op op.token) = true := by
    cases op <;> exact ⟨by decide, by decide, by decide⟩
  refine .of_expr0 (isExprStart_mono hslot.start (by decide)) (hslot.second.of_op hop.2.2) ?_
  intro flags hr hc
  apply settles_parse
  simp only [parseCall, parseExpr0, parseItemAttrs, lookahead_ne_hash hslot.start, if_false, ok_bind]
  refine (hslot.expr1 _ le_rfl hop.1 (fun _ => hop.2.1) rfl).bind (fun _ v hv w hw => ?_) fun _ => ?_
  · simp only [hv.stops.2, pure_eq_ok, Except.ok.injEq] at hw
    rwa [← hw]
  · simp only [lookahead_cons, assignOp_token, List.tail_cons]
    refine (hvalue.expr0 _ hr hc).map (fun _ v hv w hw => ?_) fun _ => rfl
    simp only [pure_eq_ok, Except.ok.injEq] at hw
    rwa [← hw]

theorem ExprParses.placeIn (hleft : ExprParses cfg 2 c ok left ts (.op .thinarrowLeft :: us))
    (hk : k ≤ 1) (hc : c = false) (hright : ExprParses cfg 1 c' ok' right us r) :
    ExprParses cfg k c' (ok && ok') (.binOp .placeIn left right) ts r := by
  subst hc
  refine .of_expr1 hk (isExprStart_mono hleft.start (by omega)) (hleft.second.of_op rfl) ?_
  intro flags hflags hr hc
  apply settles_parse
  refine (hleft.expr1_1 _ le_rfl (Nat.le_refl 2) (by simp) hflags).bind (fun _ v hv w hw => ?_) fun _ => ?_
  · simp only [hv.stops.1, if_false, pure_eq_ok, Except.ok.injEq] at hw
    rwa [← hw]
  · refine (hright.expr1 _ le_rfl hr hc hflags).map (fun _ v hv w hw => ?_) fun _ => rfl
    simp only [pure_eq_ok, Except.ok.injEq] at hw
    rwa [← hw]

/-- What is known about an operator and the loop it belongs to. -/
theorem BinOp.level_spec (op : BinOp) (hop : op ≠ .placeIn) :
    op.level.cases cfg (.op op.token) = some (.binOp op) ∧
    (∃ l, op.level.next = .leftAssoc l ∧ op.level.rank < l.rank ∧ l.minPrec ≤ op.rightPrec) ∧
    op.level.minPrec ≤ op.leftPrec ∧ 3 ≤ op.prec ∧ op.prec ≤ 11 ∧
    ∀ l : Level, l.minPrec ≤ op.prec → l.rank ≤ op.level.rank := by
  cases op <;> first
    | exact absurd rfl hop
    | exact ⟨rfl, ⟨_, rfl, by decide, by decide⟩, by decide, by decide, by decide,
        fun l => by cases l <;> decide⟩

theorem BinOp.token_spec (op : BinOp) : isOperandSecond (.op op.token) = true ∧
    (op.startsGenerics = false → typeStops false (.op op.token) = true) := by
  cases op <;> exact ⟨by decide, by decide⟩

theorem ExprParses.leftAssoc (op : BinOp)
    (hleft : ExprParses cfg op.leftPrec c ok left ts (.op op.token :: us))
    (hop : op ≠ .placeIn) (hk : k ≤ op.prec)
    (hc : op.startsGenerics = true → c = false)
    (hright : ExprParses cfg op.rightPrec c' ok' right us r) :
    ExprParses cfg k c' (ok && ok') (.binOp op left right) ts r := by
  obtain ⟨hcase, ⟨l, hnext, hl, hright'⟩, hleft', hprec, hprec', hrank⟩ :=
    @BinOp.level_spec cfg op hop
  obtain ⟨hsecond, hstops⟩ := BinOp.token_spec op
  have hprec3 : op.prec ≤ op.leftPrec := by
    rw [BinOp.leftPrec]
    split <;> omega
  refine .of_level (l := op.level) (by omega) (fun l' hl' => hrank l' (hl'.trans hk))
    (isExprStart_mono hleft.start (by omega)) (isExprStart_mono hleft.start (by omega))
    (hleft.second.of_op hsecond) fun hr hc' => ?_
  have hcstops : c = true → typeStops false (.op op.token) = true := by
    intro hct
    apply hstops
    cases hg : op.startsGenerics with
    | false => rfl
    | true => exact absurd (hc hg ▸ hct) Bool.false_ne_true
  intro flags hflags ok'' v hloop
  rw [Bool.and_assoc]
  apply hleft.level op.level hleft' (tightness_of_cases hcase).le hcstops flags hflags
  apply settles_parse
  simp only [parseCall, parseLeftAssocLoop, lookahead_cons, hcase, hnext, List.tail_cons]
  have hparses := (hright.level l hright' (by omega) hc').parses (by omega) hflags
  exact hparses.bind fun _ => hloop

theorem ExprParses.binOp (op : BinOp) (hk : k ≤ op.prec)
    (hleft : ExprParses cfg op.leftPrec c ok left ts (.op op.token :: us))
    (hc : op.startsGenerics = true → c = false)
    (hright : ExprParses cfg op.rightPrec c' ok' right us r) :
    ExprParses cfg k c' (ok && ok') (.binOp op left right) ts r := by
  by_cases hop : op = .placeIn
  · subst hop
    exact hleft.placeIn hk (hc rfl) hright
  · exact hleft.leftAssoc op hop hk hc hright

theorem ExprParses.cast (hk : k ≤ 12) (h : ExprParses cfg 12 c ok value ts (.op .rwordAs :: us))
    (htype : TypeParses cfg false ok' type us r) :
    ExprParses cfg k true (ok && ok') (.cast value type) ts r := by
  refine .of_level (l := .expr11) hk (fun l' _ => by cases l' <;> decide)
    (isExprStart_mono h.start (by decide)) (isExprStart_mono h.start hk)
    (h.second.of_op rfl) fun _ hc => ?_
  intro flags hflags ok'' v hloop
  rw [Bool.and_assoc]
  apply h.level .expr11 (by decide) (Nat.le_refl 15) (fun _ => rfl) flags hflags
  apply settles_parse
  exact (htype.parses flags (hc rfl)).bind fun _ => hloop

theorem ExprParses.rangeFull (hk : k ≤ 2) :
    ExprParses cfg k false true (.range none none) (.op .doubleDot :: r) r := by
  refine .of_expr1_1 hk (by simp [isExprStart, hk, isRangeStart]) (.of_start rfl) ?_
  intro flags _ hr _
  apply settles_parse
  refine settles_ok fun _ => ?_
  simp [parseCall, parseExpr1_1, isRangeInc, parseRangeEnd, not_isTokValue hr]

/-- The right end is parsed if the parser knows how it starts, and else left behind. -/
theorem rangeEnd_parses {left : Option Expr} (hright : ExprParses cfg 3 c ok right us r)
    (hr : tightness (lookahead r) ≤ 2) (hc : c = true → typeStops false (lookahead r) = true)
    (hflags : flags.disallowCallOrIndex = false) :
    Settles LeavesValue (parseIsTokValue (lookahead us) && ok)
      (fun n => parseRangeEnd (parse cfg n) flags left us) (.range left (some right), r) := by
  have hlevel := (hright.level .expr1_2 le_rfl (show _ ≤ 4 by omega) hc).parses (show _ < 4 by omega) hflags
  cases hvalue : parseIsTokValue (lookahead us) with
  | true =>
    simp only [parseRangeEnd, hvalue, if_true, Bool.true_and]
    exact hlevel.map fun _ => rfl
  | false =>
    have hleaves := isUnknownValue_of_isExprStart hright.start le_rfl hvalue
    simp only [parseRangeEnd, hvalue, Bool.false_and]
    exact settles_bad fun _ _ hw => by
      simp only [Bool.false_eq_true, if_false, Except.ok.injEq] at hw
      rwa [← hw]

theorem ExprParses.rangeFrom (hk : k ≤ 2) (hleft : ExprParses cfg 3 c ok left ts (.op .doubleDot :: r)) :
    ExprParses cfg k false ok (.range (some left) none) ts r := by
  obtain ⟨hinc, hdots⟩ := isRangeInc_ne (c := cfg) (isRangeStart_of_isExprStart hleft.start le_rfl)
  refine .of_expr1_1 hk (isExprStart_mono hleft.start (by omega)) (hleft.second.of_op rfl) ?_
  intro flags hflags hr _
  have hlevel := (hleft.level .expr1_2 le_rfl (Nat.le_succ 3) fun _ => rfl).parses (Nat.lt_succ_self 3) hflags
  apply settles_parse
  simp only [parseCall, parseExpr1_1, hinc, hdots]
  exact hlevel.map fun _ => by simp [parseRangeEnd, not_isTokValue hr]

theorem ExprParses.rangeTo (hk : k ≤ 2) (hright : ExprParses cfg 3 c ok right us r) :
    ExprParses cfg k c (parseIsTokValue (lookahead us) && ok) (.range none (some right))
      (.op .doubleDot :: us) r := by
  refine .of_expr1_1 hk (by simp [isExprStart, hk, isRangeStart]) (.of_start rfl) ?_
  intro flags hflags hr hc
  apply settles_parse
  simp [parseCall, parseExpr1_1, isRangeInc]
  exact rangeEnd_parses hright hr hc hflags

theorem ExprParses.range (hk : k ≤ 2) (hleft : ExprParses cfg 3 c ok left ts (.op .doubleDot :: us))
    (hright : ExprParses cfg 3 c' ok' right us r) :
    ExprParses cfg k c' (ok && (parseIsTokValue (lookahead us) && ok'))
      (.range (some left) (some right)) ts r := by
  obtain ⟨hinc, hdots⟩ := isRangeInc_ne (c := cfg) (isRangeStart_of_isExprStart hleft.start le_rfl)
  refine .of_expr1_1 hk (isExprStart_mono hleft.start (by omega)) (hleft.second.of_op rfl) ?_
  intro flags hflags hr hc
  have hlevel := (hleft.level .expr1_2 le_rfl (Nat.le_succ 3) fun _ => rfl).parses (Nat.lt_succ_self 3) hflags
  apply settles_parse
  simp only [parseCall, parseExpr1_1, hinc, hdots]
  exact hlevel.bind fun _ => rangeEnd_parses hright hr hc hflags

theorem isRangeInc_rangeIncToken : isRangeInc cfg (.op (rangeIncToken cfg)) = true := by
  cases h : cfg.targetverLeast129 <;> simp [isRangeInc, rangeIncToken, h]

theorem rangeIncToken_spec : tightness (.op (rangeIncToken cfg)) = 4 ∧
    isRangeStart (.op (rangeIncToken cfg)) = true ∧ isName (.op (rangeIncToken cfg)) = false ∧
    isOperandSecond (.op (rangeIncToken cfg)) = true ∧
    typeStops false (.op (rangeIncToken cfg)) = true := by
  cases h : cfg.targetverLeast129 <;> simp only [rangeIncToken, h] <;>
    exact ⟨rfl, rfl, rfl, rfl, rfl⟩

theorem ExprParses.rangeToInc (hk : k ≤ 2) (hright : ExprParses cfg 3 c ok right us r) :
    ExprParses cfg k c ok (.rangeInc none right) (.op (rangeIncToken cfg) :: us) r := by
  obtain ⟨-, hstart, hname, -, -⟩ := @rangeIncToken_spec cfg
  refine .of_expr1_1 hk (by simp [isExprStart, hk, hstart]) (.of_start hname) ?_
  intro flags hflags hr hc
  have hlevel := (hright.level .expr1_2 le_rfl (show _ ≤ 4 by omega) hc).parses (show _ < 4 by omega) hflags
  apply settles_parse
  simp only [parseCall, parseExpr1_1, lookahead_cons, isRangeInc_rangeIncToken, if_true, List.tail_cons]
  exact hlevel.map fun _ => rfl

theorem ExprParses.rangeInc (hk : k ≤ 2)
    (hleft : ExprParses cfg 3 c ok left ts (.op (rangeIncToken cfg) :: us))
    (hright : ExprParses cfg 3 c' ok' right us r) :
    ExprParses cfg k c' (ok && ok') (.rangeInc (some left) right) ts r := by
  obtain ⟨htight, -, -, hsecond, hstops⟩ := @rangeIncToken_spec cfg
  have hstart := isRangeStart_of_isExprStart hleft.start le_rfl
  refine .of_expr1_1 hk (isExprStart_mono hleft.start (by omega)) (hleft.second.of_op hsecond) ?_
  intro flags hflags hr hc
  have hloop : Returns ok' (fun n => parse cfg n flags _ (.leftAssocLoop .expr1_2 left)
      (.op (rangeIncToken cfg) :: us)) (.rangeInc (some left) right, r) := by
    have hlevel := (hright.level .expr1_5 le_rfl (show _ ≤ 5 by omega) hc).parses (show _ < 5 by omega) hflags
    apply settles_parse
    simp only [parseCall, parseLeftAssocLoop, Level.cases, lookahead_cons, isRangeInc_rangeIncToken,
      if_true, List.tail_cons, Level.next]
    rw [← Bool.and_true ok']
    exact hlevel.bind fun _ => loop_stops (show tightness (lookahead r) < 4 by omega)
  have hlevel := hleft.level .expr1_2 le_rfl htight.le (fun _ => hstops) flags hflags _ _ hloop
  obtain ⟨hinc, hdots⟩ := isRangeInc_ne (c := cfg) hstart
  have hrest : lookahead r ≠ .op .doubleDot := by
    intro he
    rw [he] at hr
    exact absurd hr (by decide)
  apply settles_parse
  simp only [parseCall, parseExpr1_1, hinc, hdots]
  exact hlevel.map fun _ => by simp [hrest]

/-- `&` in front of an operand that does not start with `mut` or the rest of a raw borrow. -/
theorem borrow_ref (hts : isExprStart 13 (lookahead ts) = true)
    (hsecond : FollowsName isOperandSecond ts r) (hr : isOperandSecond (lookahead r) = true) :
    parseExpr13.borrow call flags ts = parseExpr13.operand call flags .ref ts := by
  have hmut : lookahead ts ≠ .op .rwordMut := by
    intro he
    rw [he] at hts
    exact absurd hts (by decide)
  have htail (h : lookahead ts = .ident (ascii ['r', 'a', 'w'])) :
      isOperandSecond (lookahead ts.tail) = true := by
    cases ts with
    | nil => cases h
    | cons tok ts =>
      obtain rfl | hts := hsecond _ _ rfl (by rw [show tok = _ from h]; rfl)
      · exact hr
      · exact hts
  unfold parseExpr13.borrow
  simp only [hmut, if_false]
  split_ifs with hraw hraw
  · have := htail hraw.1
    simp [hraw.2, isOperandSecond] at this
  · have := htail hraw.1
    simp [hraw.2, isOperandSecond] at this
  · rfl

theorem isOperandSecond_of_tightness (h : tightness tok ≤ 15) : isOperandSecond tok = true := by
  simp only [isOperandSecond, Bool.and_eq_true, decide_eq_true_eq]
  constructor <;>
  · rintro rfl
    exact absurd h (by decide)

theorem operand_parses (op : UniOp) (h : Parses cfg flags ok .expr12 ts value r) :
    Returns ok (fun n => parseExpr13.operand (parse cfg n) flags op ts) (.uniOp op value, r) :=
  h.map fun _ => rfl

theorem prefixTokens_spec {op : UniOp} {toks : List Token} (hop : op.prefixTokens = some toks) :
    isPrefixStart (lookahead (toks ++ ts)) = true ∧ isName (lookahead (toks ++ ts)) = false ∧
      toks ≠ [] := by
  cases op <;> cases hop <;> exact ⟨rfl, rfl, by simp⟩

theorem ExprParses.of_prefixOp {tok : Token} (hk : k ≤ 13) (htok : isPrefixStart tok = true)
    (hname : isName tok = false)
    (h : tightness (lookahead r) ≤ 15 → ∀ flags, flags.disallowCallOrIndex = false →
      Parses cfg flags ok .expr13 (tok :: ts) e r) : ExprParses cfg k false ok e (tok :: ts) r :=
  .of_expr13 (by simp [isExprStart, htok]) (by simp [isExprStart, htok, hk]) (.of_start hname) h
    fun hk => by omega

theorem ExprParses.uniOp {toks : List Token} (op : UniOp) (hk : k ≤ 13)
    (hop : op.prefixTokens = some toks) (h : ExprParses cfg 13 false ok value ts r) :
    ExprParses cfg k false ok (.uniOp op value) (toks ++ ts) r := by
  obtain ⟨hstart, hname, hnil⟩ := @prefixTokens_spec ts op toks hop
  obtain ⟨tok, toks, rfl⟩ := List.exists_cons_of_ne_nil hnil
  refine .of_prefixOp hk hstart hname fun hr flags hflags => settles_parse ?_
  have hoperand (op : UniOp) := operand_parses op (h.expr12 flags le_rfl hr hflags)
  cases op <;> cases hop
  case ref =>
    refine (hoperand .ref).congr fun n => ?_
    exact (borrow_ref h.start h.second (isOperandSecond_of_tightness hr)).symm
  all_goals exact hoperand _

theorem ExprParses.refRef (hk : k ≤ 13) (h : ExprParses cfg 13 false ok value (.op .amp :: ts) r) :
    ExprParses cfg k false ok (.uniOp .ref value) (.op .doubleAmp :: ts) r := by
  refine .of_prefixOp hk rfl rfl fun hr flags hflags => settles_parse ?_
  exact operand_parses .ref (h.expr12 flags le_rfl hr hflags)

end Operators

section Calls

variable {k : ℕ} {c : Bool} {value : Expr} {args : List Expr} {entries : List PathParamEnt}
variable {name : Name} {path : Path}

/-- What spelled arguments are parsed to. -/
structure ArgsParse (cfg : ParseConfig) (ok : Bool) (args : List Expr) (ts r : List Token) : Prop where
  parses : Parses cfg clearFlags ok (.exprList .parenClose) ts args r

theorem ArgsParse.parenList (h : ArgsParse cfg ok args ts r) :
    Parses cfg flags ok .parenList (.op .parenOpen :: ts) args r :=
  settles_parse h.parses

theorem lookahead_ne_close (h : isExprStart k (lookahead ts) = true) :
    lookahead ts ≠ .op .parenClose := by
  intro he
  simp [he, isExprStart, isPrimaryStart, isPrefixStart, isRangeStart] at h

/-- Behind a value that is left behind a list of expressions neither goes on nor ends. -/
theorem LeavesValue.not_list {v : Expr × List Token} (h : LeavesValue v) {type : TokenType}
    (htype : isUnknownValue (.op type) = false) : lookahead v.2 ≠ .op type :=
  ne_of_start h htype

theorem ArgsParse.nil : ArgsParse cfg true [] (.op .parenClose :: r) r where
  parses := settles_parse (settles_ok fun _ => rfl)

theorem ArgsParse.last (h : ExprParses cfg 0 c ok e ts (.op .parenClose :: r)) :
    ArgsParse cfg ok [e] ts r where
  parses := by
    apply settles_parse
    simp only [parseCall, parseExprList, lookahead_ne_close h.start, if_false]
    refine (h.expr0 _ rfl fun _ => rfl).map (fun _ v hv w hw => ?_) fun _ => rfl
    simp only [hv.not_list (show isUnknownValue (.op .comma) = false from rfl), if_false,
      getCheckTok_leavesValue hv (show isUnknownValue (.op .parenClose) = false from rfl)] at hw
    cases hw

theorem ArgsParse.cons (h : ExprParses cfg 0 c ok e ts (.op .comma :: us))
    (hs : ArgsParse cfg ok' args us r) : ArgsParse cfg (ok && ok') (e :: args) ts r where
  parses := by
    apply settles_parse
    simp only [parseCall, parseExprList, lookahead_ne_close h.start, if_false]
    refine (h.expr0 _ rfl fun _ => rfl).bind (fun _ v hv w hw => ?_) fun _ => ?_
    · simp only [hv.not_list (show isUnknownValue (.op .comma) = false from rfl), if_false,
        getCheckTok_leavesValue hv (show isUnknownValue (.op .parenClose) = false from rfl)] at hw
      cases hw
    · exact hs.parses.map fun _ => rfl

/-- A value that needs no parentheses in front of a call, an index or a field. -/
theorem ExprParses.fcStep {v : Expr} (h : ExprParses cfg 14 false ok value ts us)
    (hus : tightness (lookahead us) = 18)
    (hcall : lookahead us = .op .parenOpen → calledByName value = false)
    (hloop : tightness (lookahead r) ≤ 18 →
      (lookahead r = .op .parenOpen → calledByName v = false) →
      ∀ flags, flags.disallowCallOrIndex = false → ∀ ok'' w,
      Returns ok'' (fun n => parse cfg n flags _ (.exprFCLoop v) r) w →
      Returns (ok' && ok'') (fun n => parse cfg n flags _ (.exprFCLoop value) us) w) :
    ExprParses cfg k false (ok && ok') v ts r := by
  have hts : isPrimaryStart (lookahead ts) = true := by
    have := h.start
    simpa [isExprStart] using this
  have hsecond : isOperandSecond (lookahead us) = true := by
    simp only [isOperandSecond, Bool.and_eq_true, decide_eq_true_eq]
    constructor <;>
    · intro he
      rw [he] at hus
      exact absurd hus (by decide)
  refine .of_fc hts (h.second.of_op hsecond) fun hr hcall' flags hflags ok'' w hw => ?_
  rw [Bool.and_assoc]
  exact h.fc le_rfl hus.le hcall flags hflags _ w (hloop hr hcall' flags hflags ok'' w hw)

theorem ExprParses.callObject (h : ExprParses cfg 14 false ok value ts (.op .parenOpen :: us))
    (hvalue : calledByName value = false) (hargs : ArgsParse cfg ok' args us r) :
    ExprParses cfg k false (ok && ok') (.callObject value args) ts r := by
  refine h.fcStep rfl (fun _ => hvalue) fun _ _ flags hflags ok'' w hw => ?_
  apply settles_parse
  simp only [parseCall, parseExprFCLoop, hflags]
  exact hargs.parenList.bind fun _ => hw

theorem ExprParses.callMethod
    (h : ExprParses cfg 14 false ok value ts (.op .dot :: .ident name :: .op .parenOpen :: us))
    (hargs : ArgsParse cfg ok' args us r) :
    ExprParses cfg k false (ok && ok') (.callMethod value (.mk name .empty) args) ts r := by
  refine h.fcStep rfl (by simp) fun _ _ flags hflags ok'' w hw => ?_
  exact settles_parse (hargs.parenList.bind fun _ => hw)

theorem ExprParses.callGeneric
    (h : ExprParses cfg 14 false ok value ts
      (.op .dot :: .ident name :: .op .doubleColon :: .op .lt :: us))
    (hents : EntsParse cfg ok' entries us (.op .parenOpen :: vs))
    (hargs : ArgsParse cfg ok'' args vs r) :
    ExprParses cfg k false (ok && (ok' && ok''))
      (.callMethod value (.mk name (.angle entries)) args) ts r := by
  refine h.fcStep rfl (by simp) fun _ _ flags hflags ok₁ w hw => ?_
  rw [Bool.and_assoc]
  refine settles_parse ((hents.parses flags).bind fun _ => ?_)
  exact hargs.parenList.bind fun _ => hw

theorem ExprParses.callGenericJoin
    (h : ExprParses cfg 14 false ok value ts
      (.op .dot :: .ident name :: .op .doubleColon :: .op .doubleLt :: us))
    (hents : EntsParse cfg ok' entries (.op .lt :: us) (.op .parenOpen :: vs))
    (hargs : ArgsParse cfg ok'' args vs r) :
    ExprParses cfg k false (ok && (ok' && ok''))
      (.callMethod value (.mk name (.angle entries)) args) ts r := by
  refine h.fcStep rfl (by simp) fun _ _ flags hflags ok₁ w hw => ?_
  rw [Bool.and_assoc]
  refine settles_parse ((hents.parses flags).bind fun _ => ?_)
  exact hargs.parenList.bind fun _ => hw

theorem ExprParses.index {index : Expr} (h : ExprParses cfg 14 false ok value ts (.op .squareOpen :: us))
    (hindex : ExprParses cfg 0 c ok' index us (.op .squareClose :: r)) :
    ExprParses cfg k false (ok && ok') (.index value index) ts r := by
  refine h.fcStep rfl (by simp) fun _ _ flags hflags ok'' w hw => ?_
  apply settles_parse
  simp only [parseCall, parseExprFCLoop, hflags]
  refine (hindex.expr0 _ rfl fun _ => rfl).bind (fun _ v hv w hw => ?_) fun _ => ?_
  · simp only [getCheckTok_leavesValue hv (show isUnknownValue (.op .squareClose) = false from rfl)]
      at hw
    cases hw
  · exact hw

theorem ExprParses.field (h : ExprParses cfg 14 false ok value ts (.op .dot :: .ident name :: r)) :
    ExprParses cfg k false ok (.field value name) ts r := by
  rw [← Bool.and_true ok]
  refine h.fcStep rfl (by simp) fun hr hcall flags hflags ok'' w hw => ?_
  have hparen : lookahead r ≠ .op .parenOpen := fun he => absurd (hcall he) (by simp [calledByName])
  have hcolon : lookahead r ≠ .op .doubleColon := by
    intro he
    rw [he] at hr
    exact absurd hr (by decide)
  apply settles_parse
  simp only [parseCall, parseExprFCLoop, hparen, hcolon, if_false]
  rwa [Bool.true_and]

theorem ExprParses.fieldIndex {index : BitVec 128} {datatype : CoreType}
    (h : ExprParses cfg 14 false ok value ts (.op .dot :: .integer index datatype :: r)) :
    ExprParses cfg k false ok (.field value (fieldName index)) ts r := by
  rw [← Bool.and_true ok]
  refine h.fcStep rfl (by simp) fun _ _ flags hflags ok'' w hw => settles_parse ?_
  rwa [Bool.true_and]

theorem ExprParses.callFieldIndex {index : BitVec 128} {datatype : CoreType}
    (h : ExprParses cfg 14 false ok value ts
      (.op .dot :: .integer index datatype :: .op .parenOpen :: us))
    (hargs : ArgsParse cfg ok' args us r) :
    ExprParses cfg k false (ok && ok') (.callObject (.field value (fieldName index)) args) ts r := by
  refine h.fcStep rfl (by simp) fun _ _ flags hflags ok'' w hw => settles_parse (settles_parse ?_)
  simp only [parseCall, parseExprFCLoop, hflags]
  exact hargs.parenList.bind fun _ => hw

theorem ExprParses.qmark (h : ExprParses cfg 14 false ok value ts (.op .qmark :: r)) :
    ExprParses cfg k false ok (.uniOp .qmark value) ts r := by
  rw [← Bool.and_true ok]
  refine h.fcStep rfl (by simp) fun _ _ flags hflags ok'' w hw => settles_parse ?_
  rwa [Bool.true_and]

theorem ExprParses.await (h : ExprParses cfg 14 false ok value ts (.op .dot :: .op .rwordAwait :: r)) :
    ExprParses cfg k false ok (.uniOp .await value) ts r := by
  rw [← Bool.and_true ok]
  refine h.fcStep rfl (by simp) fun _ _ flags hflags ok'' w hw => settles_parse ?_
  rwa [Bool.true_and]

end Calls

section Values

variable {k : ℕ} {c : Bool} {args : List Expr} {path : Path}

theorem ExprParses.of_val (hts : isPrimaryStart (lookahead ts) = true)
    (hsecond : FollowsName isOperandSecond ts r)
    (h : tightness (lookahead r) ≤ 18 → (lookahead r = .op .parenOpen → calledByName e = false) →
      ∀ flags, Parses cfg flags ok .exprVal ts e r) : ExprParses cfg k c ok e ts r :=
  .of_fc hts hsecond fun hr hcall => .of_val fun flags _ => h hr hcall flags

theorem SpellLit.spec (h : SpellLit e tok) : isPrimaryStart tok = true ∧ isName tok = false ∧
    tok ≠ .op .hash ∧ ∀ flags, Parses cfg flags true .exprVal (tok :: r) e r := by
  cases h <;> exact ⟨rfl, rfl, by simp, fun _ => settles_parse (settles_ok fun _ => by
    simp [parseCall, parseExprVal, parseItemAttrs, parseExprValInner])⟩

theorem ExprParses.lit (h : SpellLit e tok) : ExprParses cfg k false true e (tok :: r) r := by
  obtain ⟨hstart, hname, -, hparses⟩ := @SpellLit.spec cfg r tok e h
  exact .of_val hstart (.of_start hname) fun _ _ => hparses

theorem SpellLit.expr13 (h : SpellLit e tok) (hr : tightness (lookahead r) < 18) :
    Parses cfg flags true .expr13 (tok :: r) e r := by
  obtain ⟨hstart, -, -, hparses⟩ := @SpellLit.spec cfg r tok e h
  apply settles_parse
  simp only [parseCall, parseExpr13, lookahead_cons, prefixOp_of_isPrimaryStart hstart]
  exact settles_parse ((hparses flags).then (fcLoop_stops hr))

theorem tightness_of_entStops (hr : entStops (lookahead r) = true) :
    tightness (lookahead r) < 18 ∧ lookahead r ≠ .op .colon := by
  obtain ⟨type, us, rfl, htype⟩ := entStops_cases hr
  simp only [List.mem_cons, List.not_mem_nil, or_false] at htype
  rw [lookahead_cons]
  obtain rfl | rfl | rfl | rfl | rfl := htype <;> exact ⟨by decide, by simp⟩

theorem parseGenericEnt_value (hts : isGenericValueStart tok = true) :
    parseGenericEnt call flags (tok :: ts) = (do
      let (expr, lex) ← call flags _ .expr13 (tok :: ts)
      return ([.value expr], lex)) := by
  cases tok <;> first
    | exact absurd hts Bool.false_ne_true
    | simp only [parseGenericEnt, lookahead_cons, hts, if_true]

theorem EntParses.value (h : SpellLit e tok) (hstart : isGenericValueStart tok = true) :
    EntParses cfg true (.value e) (tok :: r) r where
  start := by cases h <;> rfl
  parses flags hr := by
    apply settles_parse
    simp only [parseCall, parseGenericEnt_value hstart]
    exact (h.expr13 (tightness_of_entStops hr).1).map fun _ => rfl

theorem EntParses.negative (h : SpellLit e tok) :
    EntParses cfg true (.value (.uniOp .negate e)) (.op .dash :: tok :: r) r where
  start := rfl
  parses flags hr := by
    obtain ⟨htight, hcolon⟩ := tightness_of_entStops hr
    have hoperand := expr12_of_expr13 (@SpellLit.expr13 cfg flags r tok e h htight) hcolon
    have hnegate : Parses cfg flags true .expr13 (.op .dash :: tok :: r) (.uniOp .negate e) r :=
      settles_parse (hoperand.map fun _ => rfl)
    apply settles_parse
    simp only [parseCall, @parseGenericEnt_value (parse cfg _) flags (tok :: r) (.op .dash) rfl]
    exact hnegate.map fun _ => rfl

theorem ExprParses.selfValue : ExprParses cfg k false true
    (.namedValue (.localVar (ascii ['s', 'e', 'l', 'f']))) (.op .rwordSelf :: r) r := by
  refine .of_val rfl (.of_start rfl) fun hr _ flags => settles_parse (settles_ok fun _ => ?_)
  have hcolon : lookahead r ≠ .op .doubleColon := by
    intro he
    rw [he] at hr
    exact absurd hr (by decide)
  simp [parseCall, parseExprVal, parseItemAttrs, parseExprValInner, hcolon]

theorem isPrimaryStart_of_isPathStart (h : isPathStart tok = true) : isPrimaryStart tok = true := by
  cases tok with
  | op type =>
    simp only [isPathStart, isPrimaryStart, decide_eq_true_eq, List.mem_cons] at h ⊢
    tauto
  | ident name => rfl
  | _ => cases h

theorem isOperandSecond_of_isNodeSecond (tok : Token) (h : isNodeSecond tok = true) :
    isOperandSecond tok = true := by
  have hmut : tok ≠ .op .rwordMut := ne_of_start h rfl
  have hconst : tok ≠ .op .rwordConst := ne_of_start h rfl
  simp [isOperandSecond, hmut, hconst]

theorem SpellPath.named {ok : Bool} {path : Path} {mode : GenericMode} {ts r : List Token} :
    SpellPath cfg mode ok path ts r → calledByName (.namedValue path) = true
  | .join h => h.named
  | .relative _ | .self _ | .super _ _ | .crate _ | .root _ _ | .external _ _ | .externCrate _
  | .string _ | .qualified _ _ | .qualifiedTrait _ _ _ => rfl

/-- `self` is a path where `::` follows. -/
theorem SpellPath.self_colon {mode : GenericMode} (h : SpellPath cfg mode ok path (.op .rwordSelf :: ts) r) :
    lookahead ts = .op .doubleColon := by
  cases h with
  | relative h => cases h
  | self h => rfl

theorem parseExprVal_path (hts : isPathStart (lookahead ts) = true)
    (h : SpellPath cfg .expr ok path ts r) :
    parseExprVal cfg call flags ts = parseExprValPath cfg call flags ts := by
  cases ts with
  | nil => cases hts
  | cons tok ts =>
    cases tok with
    | ident name => rfl
    | op type =>
      simp only [lookahead_cons, isPathStart, decide_eq_true_eq, List.mem_cons, List.not_mem_nil,
        or_false] at hts
      obtain rfl | rfl | rfl | rfl | rfl | rfl := hts <;> first
        | rfl
        | exact if_pos h.self_colon
    | _ => cases hts

theorem ExprParses.namedValue (hpath : SpellPath cfg .expr ok path ts r)
    (h : PathParses cfg .expr ok path ts r) : ExprParses cfg k false ok (.namedValue path) ts r := by
  refine .of_val (isPrimaryStart_of_isPathStart h.start) (h.second.mono isOperandSecond_of_isNodeSecond)
    fun hr hcall flags => ?_
  have hparen : lookahead r ≠ .op .parenOpen := by
    intro he
    rw [hpath.named] at hcall
    exact absurd (hcall he) (by decide)
  have hne {tok : Token} (htok : 18 < tightness tok) : lookahead r ≠ tok := by
    rintro rfl
    omega
  apply settles_parse
  simp only [parseCall, parseExprVal_path h.start hpath, parseExprValPath]
  have hcolon : lookahead r ≠ .op .doubleColon := hne (by decide)
  refine (h.parses flags (by simpa [pathStops] using hcolon)).map fun _ => ?_
  simp only
  split
  case h_5 => rfl
  all_goals rename_i he
  case h_2 => exact absurd he hparen
  all_goals exact absurd he (hne (by decide))

theorem ExprParses.callPath (hpath : SpellPath cfg .expr ok path ts (.op .parenOpen :: us))
    (h : PathParses cfg .expr ok path ts (.op .parenOpen :: us)) (hargs : ArgsParse cfg ok' args us r) :
    ExprParses cfg k false (ok && ok') (.callPath path args) ts r := by
  refine .of_val (isPrimaryStart_of_isPathStart h.start)
    ((h.second.mono isOperandSecond_of_isNodeSecond).of_op rfl) fun _ _ flags => ?_
  apply settles_parse
  simp only [parseCall, parseExprVal_path h.start hpath, parseExprValPath]
  refine (h.parses flags rfl).bind fun _ => ?_
  exact hargs.parenList.map fun _ => rfl

/-- In parentheses, behind which anything may stand. -/
theorem ExprParses.paren_val (h : ExprParses cfg 0 c ok e ts (.op .parenClose :: r)) :
    Parses cfg flags ok .exprVal (.op .parenOpen :: ts) e r := by
  have hclose := lookahead_ne_close h.start
  cases ts with
  | nil => exact absurd h.start (by decide)
  | cons tok ts =>
    rw [lookahead_cons] at hclose
    apply settles_parse
    simp [parseCall, parseExprVal, parseItemAttrs, parseExprValInner, hclose]
    refine (h.expr0 clearFlags rfl fun _ => rfl).map (fun _ v hv w hw => ?_) fun _ => rfl
    simp [hv.not_list (show isUnknownValue (.op .comma) = false from rfl),
      getCheckTok_leavesValue hv (show isUnknownValue (.op .parenClose) = false from rfl)] at hw

theorem ExprParses.paren (h : ExprParses cfg 0 c ok e ts (.op .parenClose :: r)) :
    ExprParses cfg k false ok e (.op .parenOpen :: ts) r :=
  .of_val rfl (.of_start rfl) fun _ _ _ => h.paren_val

theorem ExprParses.callParen {value : Expr}
    (h : ExprParses cfg 0 c ok value ts (.op .parenClose :: .op .parenOpen :: us))
    (hargs : ArgsParse cfg ok' args us r) :
    ExprParses cfg k false (ok && ok') (.callObject value args) (.op .parenOpen :: ts) r := by
  refine .of_fc rfl (.of_start rfl) fun _ _ flags hflags ok'' w hw => settles_parse ?_
  rw [Bool.and_assoc]
  refine h.paren_val.bind fun _ => settles_parse ?_
  simp only [parseCall, parseExprFCLoop, hflags]
  exact hargs.parenList.bind fun _ => hw

end Values

/-- An expression does not start with the `_` of an inferred size. -/
theorem ExprParses.sizedArray {k : ℕ} {b c : Bool} {type : Ty} {size : Expr}
    (hsize : ExprParses cfg k c ok' size us (.op .squareClose :: r))
    (h : TypeParses cfg true ok type ts (.op .semicolon :: us)) :
    TypeParses cfg b (ok && ok') (.sizedArray type (some size)) (.op .squareOpen :: ts) r := by
  have hstart := hsize.start
  cases us with
  | nil => simp [lookahead, isExprStart, isPrimaryStart, isPrefixStart, isRangeStart] at hstart
  | cons tok us =>
    refine .sizedArray ?_ h fun flags => hsize.expr0 flags rfl fun _ => rfl
    rintro rfl
    simp [isExprStart, isPrimaryStart, isPrefixStart, isRangeStart] at hstart

end Mrustc.Parse
