import Mrustc.Parse.Numbers

/-! # Numbers that reach the end of the input -/

namespace Mrustc.Parse
open Codepoint

/-- How far a number has been read. -/
inductive NumState
  | zero
  | digits (mode : NumMode)
  | suffix
  | dot (mode : NumMode)
  | dots
  | frac
  | fracDot
  | exp
  | expSign
  | expDigits

def NumState.IsInteger : NumState → Prop
  | .zero | .digits _ => True
  | _ => False

def IsFloatDigit (c : ℕ) : Prop := c = cp '_' ∨ isdigit c = true

instance : DecidablePred IsFloatDigit := fun c => inferInstanceAs (Decidable (c = cp '_' ∨ isdigit c = true))

/-- A character of a word, which a string can take. -/
def IsSym (c : ℕ) : Prop := issym c = true ∧ c < 0x200000

instance : DecidablePred IsSym := fun c => inferInstanceAs (Decidable (issym c = true ∧ c < 0x200000))

def suffixNext (c : ℕ) : Option NumState := if IsSym c then some .suffix else none

def digitsNext (mode : NumMode) (c : ℕ) : Option NumState :=
  if c = cp '_' then some (.digits mode)
  else if mode.test c then if xdigitValue c < mode.base then some (.digits mode) else none
  else if c = cp '.' then some (.dot mode)
  else if c = cp 'e' ∨ c = cp 'E' then if mode = .dec then some .exp else none
  else suffixNext c

/-- What a character of a number leads to, if the number goes on behind it. -/
def NumState.next : NumState → ℕ → Option NumState
  | .zero, c =>
    if c = cp '_' then some .zero
    else if c = cp 'x' then some (.digits .hex)
    else if c = cp 'b' then some (.digits .bin)
    else if c = cp 'o' then some (.digits .oct)
    else digitsNext .dec c
  | .digits mode, c => digitsNext mode c
  | .suffix, c => suffixNext c
  | .dot mode, c => if c = cp '.' then some .dots else if isdigit c ∧ mode = .dec then some .frac else none
  | .dots, _ => none
  | .frac, c =>
    if IsFloatDigit c then some .frac
    else if c = cp '.' then some .fracDot
    else if c = cp 'e' ∨ c = cp 'E' then some .exp
    else suffixNext c
  | .fracDot, c => if c = cp '.' then some .dots else none
  | .exp, c =>
    if c = cp '_' then some .exp
    else if c = cp '-' ∨ c = cp '+' then some .expSign
    else if isdigit c then some .expDigits
    else none
  | .expSign, c => if c = cp '_' then some .expSign else if isdigit c then some .expDigits else none
  | .expDigits, c => if IsFloatDigit c then some .expDigits else suffixNext c

/-- Every character belongs to the number, and each state on the way is one to keep. -/
def NumState.Runs (keep : NumState → Prop) : NumState → List ℕ → Prop
  | _, [] => True
  | state, c :: r => ∃ state', state.next c = some state' ∧ keep state' ∧ state'.Runs keep r

def NumState.start (c : ℕ) : NumState := if c = cp '0' then .zero else .digits .dec

/-- A number up to the end of the input. -/
def NumberRuns (keep : NumState → Prop) : List ℕ → Prop
  | [] => False
  | c :: r => isdigit c = true ∧ (NumState.start c).Runs keep r

/-- The scan runs into the end of the input. -/
def Hits {α : Type} (x : Lex α) : Prop := x = .error .endOfFile

section Hits

variable {α β : Type}

@[simp] theorem hits_endOfFile : Hits (.error .endOfFile : Lex α) := rfl

@[simp] theorem hits_ok (a : α) : Hits (.ok a : Lex α) ↔ False := iff_of_false (by simp [Hits]) id

theorem hits_error {e : LexError} : Hits (.error e : Lex α) ↔ e = .endOfFile := by simp [Hits]

theorem hits_bind {x : Lex α} {f : α → Lex β} : Hits (x >>= f) ↔ Hits x ∨ ∃ a, x = .ok a ∧ Hits (f a) := by
  cases x with
  | ok a => simp
  | error e => simp [hits_error]

theorem hits_append {str : List UInt8} {c : ℕ} : ¬ Hits (append str c) := by
  rw [append]
  cases appendCp c with
  | some bytes => simp
  | none => simp [hits_error]

theorem hits_takeSyms {str : List UInt8} {r : List ℕ} : Hits (takeSyms .endOfFile str r) ↔ ∀ c ∈ r, IsSym c := by
  induction r generalizing str with
  | nil => simp [takeSyms]
  | cons c r ih =>
    rw [takeSyms, List.forall_mem_cons]
    by_cases hc : issym c = true
    · rw [if_pos hc]
      by_cases hlt : c < 0x200000
      · rw [append_eq_ok.mpr ⟨hlt, rfl⟩]
        exact ih.trans (and_iff_right ⟨hc, hlt⟩).symm
      · have hgood : ¬ IsSym c := fun h => hlt h.2
        cases happ : append str c with
        | ok str => exact absurd (append_eq_ok.mp happ).1 hlt
        | error e =>
          have he : ¬ Hits (append str c) := hits_append
          rw [happ, hits_error] at he
          exact iff_of_false (fun h => he (hits_error.mp h)) fun h => hgood h.1
    · rw [if_neg hc]
      exact iff_of_false (hits_ok _).mp fun h => hc h.1.1

end Hits

variable {keep : NumState → Prop}

theorem suffix_runs (hkeep : keep .suffix) (r : List ℕ) : NumState.suffix.Runs keep r ↔ ∀ c ∈ r, IsSym c := by
  induction r with
  | nil => simp [NumState.Runs]
  | cons c r ih =>
    rw [NumState.Runs, NumState.next, suffixNext, List.forall_mem_cons, ← ih]
    by_cases hc : IsSym c
    · rw [if_pos hc]
      constructor
      · rintro ⟨state, hstate, -, hrun⟩
        cases hstate
        exact ⟨hc, hrun⟩
      · exact fun h => ⟨_, rfl, hkeep, h.2⟩
    · rw [if_neg hc]
      exact iff_of_false (by simp) fun h => hc h.1

/-- A state that a character does not leave. -/
theorem runs_self {state : NumState} {c : ℕ} {r : List ℕ} (hnext : state.next c = some state) (hkeep : keep state) :
    state.Runs keep (c :: r) ↔ state.Runs keep r := by
  rw [NumState.Runs, hnext]
  constructor
  · rintro ⟨state', hstate, -, hrun⟩
    cases hstate
    exact hrun
  · exact fun h => ⟨state, rfl, hkeep, h⟩

theorem runs_none {state : NumState} {c : ℕ} {r : List ℕ} (hnext : state.next c = none) :
    ¬ state.Runs keep (c :: r) := by
  rw [NumState.Runs, hnext]
  simp

theorem runs_some {state state' : NumState} {c : ℕ} {r : List ℕ} (hnext : state.next c = some state') :
    state.Runs keep (c :: r) ↔ keep state' ∧ state'.Runs keep r := by
  rw [NumState.Runs, hnext]
  constructor
  · rintro ⟨state'', hstate, h⟩
    cases hstate
    exact h
  · exact fun h => ⟨state', rfl, h⟩

section Loops

variable {α : Type} {state : NumState}

theorem getcNum_runs {k : ℕ × List ℕ → Lex α} (hkeep : keep state) (hloop : state.next (cp '_') = some state)
    (hk : ∀ c r, c ≠ cp '_' → (Hits (k (c, r)) ↔ state.Runs keep (c :: r))) (r : List ℕ) :
    Hits (getcNum .endOfFile r >>= k) ↔ state.Runs keep r := by
  induction r with
  | nil => simp [getcNum, NumState.Runs]
  | cons c r ih =>
    rw [getcNum]
    split_ifs with hc
    · rw [hc, runs_self hloop hkeep]
      exact ih
    · exact hk c r hc

theorem floatDigits_runs {k : List UInt8 × ℕ × List ℕ → Lex α} (hkeep : keep state)
    (hloop : ∀ c, IsFloatDigit c → state.next c = some state)
    (hk : ∀ text c r, ¬ IsFloatDigit c → (Hits (k (text, c, r)) ↔ state.Runs keep (c :: r))) (r : List ℕ) :
    Hits (floatDigits .endOfFile r >>= k) ↔ state.Runs keep r := by
  induction r generalizing k with
  | nil => simp [floatDigits, NumState.Runs]
  | cons c r ih =>
    rw [floatDigits]
    split_ifs with hunder hdigit
    · rw [runs_self (hloop c (Or.inl hunder)) hkeep]
      exact ih hk
    · rw [runs_self (hloop c (Or.inr hdigit)) hkeep]
      have hassoc : (floatDigits .endOfFile r >>= fun out => pure (c.toUInt8 :: out.1, out.2.1, out.2.2)) >>= k =
          floatDigits .endOfFile r >>= fun out => k (c.toUInt8 :: out.1, out.2.1, out.2.2) := by
        cases floatDigits .endOfFile r <;> rfl
      exact (iff_of_eq (congrArg Hits hassoc)).trans (ih fun text c r hc => hk _ c r hc)
    · exact hk [] c r (not_or.mpr ⟨hunder, hdigit⟩)

theorem parseDigits_runs {mode : NumMode} {k : BitVec 128 × List ℕ → Lex α} (hkeep : keep (.digits mode))
    (hk : ∀ v c r, c ≠ cp '_' → mode.test c = false →
      (Hits (k (v, c :: r)) ↔ (NumState.digits mode).Runs keep (c :: r))) (v : BitVec 128) (r : List ℕ) :
    Hits (parseDigits .endOfFile mode.test mode.base (mode.base - 1) v r >>= k) ↔
      (NumState.digits mode).Runs keep r := by
  induction r generalizing v with
  | nil => simp [parseDigits, NumState.Runs]
  | cons c r ih =>
    have hnext : (NumState.digits mode).next c = digitsNext mode c := rfl
    rw [parseDigits]
    split_ifs with hunder hdigit hmax
    · rw [digitsNext, if_pos hunder] at hnext
      rw [runs_self hnext hkeep]
      exact ih v
    · have hlt : ¬ xdigitValue c < mode.base := by omega
      rw [digitsNext, if_neg hunder, if_pos hdigit, if_neg hlt] at hnext
      exact iff_of_false (by simp [hits_error]) (runs_none hnext)
    · have hlt : xdigitValue c < mode.base := by
        have : 0 < mode.base := by cases mode <;> decide
        omega
      rw [digitsNext, if_neg hunder, if_pos hdigit, if_pos hlt] at hnext
      rw [runs_self hnext hkeep]
      exact ih _
    · exact hk v c r hunder (by simpa using hdigit)

end Loops

section Floats

theorem frac_loop (c : ℕ) (hc : IsFloatDigit c) : NumState.frac.next c = some .frac := if_pos hc

theorem expDigits_loop (c : ℕ) (hc : IsFloatDigit c) : NumState.expDigits.next c = some .expDigits := if_pos hc

theorem fracDot_next (c : ℕ) : NumState.fracDot.next c = if c = cp '.' then some .dots else none := rfl

theorem suffixNext_runs {α : Type} {c : ℕ} {r : List ℕ} {state : NumState} (hnext : state.next c = suffixNext c)
    {str : List UInt8} {k : List UInt8 × List ℕ → Lex α} (hk : ∀ out, ¬ Hits (k out)) :
    Hits (takeSyms .endOfFile str (c :: r) >>= k) ↔ state.Runs (fun _ => True) (c :: r) := by
  have htake : Hits (takeSyms .endOfFile str (c :: r) >>= k) ↔ ∀ d ∈ c :: r, IsSym d := by
    rw [hits_bind, hits_takeSyms]
    exact or_iff_left fun hout => hout.elim fun out hout => hk out hout.2
  rw [htake, List.forall_mem_cons]
  by_cases hc : IsSym c
  · rw [suffixNext, if_pos hc] at hnext
    rw [runs_some hnext, suffix_runs trivial]
    exact and_congr (iff_of_true hc trivial) Iff.rfl
  · rw [suffixNext, if_neg hc] at hnext
    exact iff_of_false (fun h => hc h.1) (runs_none hnext)

theorem exponent_runs {α : Type} {k : List UInt8 × ℕ × List ℕ → Lex α}
    (hk : ∀ sign c r, Hits (k (sign, c, r)) ↔ isdigit c = true ∧ NumState.expDigits.Runs (fun _ => True) r)
    (r : List ℕ) : Hits (exponentSign .endOfFile r >>= k) ↔ NumState.exp.Runs (fun _ => True) r := by
  have hdigits (state : NumState) (sign : List UInt8) (c : ℕ) (r : List ℕ)
      (hnext : state.next c = if isdigit c then some .expDigits else none) :
      Hits (k (sign, c, r)) ↔ state.Runs (fun _ => True) (c :: r) := by
    rw [hk]
    split_ifs at hnext with hdigit
    · rw [runs_some hnext, and_iff_right hdigit, and_iff_right trivial]
    · exact iff_of_false (fun h => hdigit h.1) (runs_none hnext)
  rw [exponentSign, bind_assoc]
  apply getcNum_runs trivial rfl
  intro c r hunder
  dsimp only
  split_ifs with hsign
  · have hnext : NumState.exp.next c = some .expSign := by
      rw [NumState.next, if_neg hunder, if_pos hsign]
    rw [runs_some hnext, and_iff_right trivial, bind_assoc]
    apply getcNum_runs trivial rfl
    intro c' r' hunder'
    exact hdigits .expSign _ c' r' (by rw [NumState.next, if_neg hunder'])
  · exact hdigits .exp _ c r (by rw [NumState.next, if_neg hunder, if_neg hsign])

theorem floatDigits_scan_runs (val : BitVec 128) (r : List ℕ) :
    Hits (scanFloat.digits .endOfFile val .dec r) ↔ NumState.frac.Runs (fun _ => True) r := by
  rw [scanFloat.digits, if_pos rfl, parseFloat, bind_assoc]
  apply floatDigits_runs trivial frac_loop
  intro text c r hc
  have hnext : NumState.frac.next c = if c = cp '.' then some .fracDot
      else if c = cp 'e' ∨ c = cp 'E' then some .exp else suffixNext c := if_neg hc
  dsimp only
  split_ifs at hnext ⊢ with hdot hexp
  · rw [runs_some hnext, and_iff_right trivial]
    rcases r with _ | ⟨c', r⟩
    · simp [getc, NumState.Runs]
    · have hnext' := fracDot_next c'
      by_cases hdot' : c' = cp '.'
      · rw [if_pos hdot'] at hnext'
        rw [runs_some hnext', and_iff_right trivial]
        rcases r with _ | ⟨c'', r⟩
        · simp [getc, hdot', NumState.Runs]
        · apply iff_of_false _ (runs_none rfl)
          simp only [getc, Lex.bind_ok, if_pos hdot']
          split_ifs <;> simp
      · rw [if_neg hdot'] at hnext'
        apply iff_of_false _ (runs_none hnext')
        simp [getc, hdot']
  · rw [runs_some hnext, and_iff_right trivial, bind_assoc]
    apply exponent_runs
    intro sign first r
    dsimp only
    split_ifs with hdigit
    · rw [and_iff_right hdigit, bind_assoc]
      apply floatDigits_runs trivial expDigits_loop
      intro exponent c' r' hc'
      have hnext' : NumState.expDigits.next c' = suffixNext c' := if_neg hc'
      apply suffixNext_runs hnext'
      intro suffix
      split_ifs
      · simp
      · cases floatSuffix suffix.1 <;> simp [hits_error]
    · exact iff_of_false (by simp [hits_error]) fun h => hdigit h.1
  · apply suffixNext_runs hnext
    intro suffix
    split_ifs
    · simp
    · cases floatSuffix suffix.1 <;> simp [hits_error]

theorem scanFloat_dot_runs (val : BitVec 128) (mode : NumMode) (r : List ℕ) :
    Hits (scanFloat .endOfFile val mode (cp '.') r) ↔ (NumState.dot mode).Runs (fun _ => True) r := by
  rw [scanFloat, if_pos rfl]
  rcases r with _ | ⟨c, r⟩
  · simp [getc, NumState.Runs]
  · have hnext : (NumState.dot mode).next c =
        if c = cp '.' then some .dots else if isdigit c ∧ mode = .dec then some .frac else none := rfl
    simp only [getc, Lex.bind_ok]
    by_cases hdot : c = cp '.'
    · rw [if_pos hdot] at hnext ⊢
      rw [runs_some hnext, and_iff_right trivial]
      rcases r with _ | ⟨c', r⟩
      · simp [NumState.Runs]
      · apply iff_of_false _ (runs_none rfl)
        simp only [Lex.bind_ok]
        split_ifs <;> simp
    · rw [if_neg hdot] at hnext ⊢
      by_cases hdigit : isdigit c = true
      · rw [hdigit, Bool.not_true, if_neg Bool.false_ne_true]
        by_cases hmode : mode = .dec
        · rw [if_pos ⟨hdigit, hmode⟩] at hnext
          rw [runs_some hnext, and_iff_right trivial, hmode, floatDigits_scan_runs,
            runs_self (frac_loop c (Or.inr hdigit)) trivial]
        · rw [if_neg fun h => hmode h.2] at hnext
          rw [scanFloat.digits, if_neg hmode]
          exact iff_of_false (by simp [hits_error]) (runs_none hnext)
      · rw [if_neg fun h => hdigit h.1] at hnext
        apply iff_of_false _ (runs_none hnext)
        simp only [hdigit]
        split_ifs <;> simp_all

theorem scanFloat_exp_runs (val : BitVec 128) (mode : NumMode) {c : ℕ} (hc : c = cp 'e' ∨ c = cp 'E') (r : List ℕ) :
    Hits (scanFloat .endOfFile val mode c r) ↔ mode = .dec ∧ NumState.exp.Runs (fun _ => True) r := by
  have hdot : c ≠ cp '.' := by rcases hc with rfl | rfl <;> decide
  have hdigit : ¬ IsFloatDigit c := by rcases hc with rfl | rfl <;> decide
  rw [scanFloat, if_neg hdot]
  by_cases hmode : mode = .dec
  · have hnext : NumState.frac.next c = some .exp := by
      rw [NumState.next, if_neg hdigit, if_neg hdot, if_pos hc]
    rw [hmode, floatDigits_scan_runs, runs_some hnext, and_iff_right trivial, and_iff_right rfl]
  · rw [scanFloat.digits, if_neg hmode]
    exact iff_of_false (by simp [hits_error]) fun h => hmode h.1

end Floats

section Integers

/-- The character that ends the digits of a number in a mode. -/
theorem digitsNext_end {mode : NumMode} {c : ℕ} (hunder : c ≠ cp '_') (htest : mode.test c = false) :
    (NumState.digits mode).next c = if c = cp '.' then some (.dot mode)
      else if c = cp 'e' ∨ c = cp 'E' then if mode = .dec then some .exp else none else suffixNext c := by
  rw [NumState.next, digitsNext, if_neg hunder, htest, if_neg Bool.false_ne_true]

/-- What `scanNumber` does behind the digits. -/
def afterInt (out : BitVec 128 × NumMode × List ℕ) : Lex Scanned :=
  getc .endOfFile out.2.2 >>= fun next =>
    if next.1 = cp 'e' ∨ next.1 = cp 'E' ∨ next.1 = cp '.' then scanFloat .endOfFile out.1 out.2.1 next.1 next.2
    else if issym next.1 then
      takeSyms .endOfFile [] out.2.2 >>= fun suffix =>
        match integerSuffix suffix.1 with
        | some type => .ok ⟨.integer out.1 type, [], suffix.2⟩
        | none => .error .parseError
    else .ok ⟨.integer out.1 .any, [], out.2.2⟩

theorem scanNumber_eq (r : List ℕ) : scanNumber .endOfFile r = parseInt .endOfFile r >>= afterInt := rfl

theorem afterInt_runs {mode : NumMode} {c : ℕ} (hunder : c ≠ cp '_') (htest : mode.test c = false) (v : BitVec 128)
    (r : List ℕ) : Hits (afterInt (v, mode, c :: r)) ↔ (NumState.digits mode).Runs (fun _ => True) (c :: r) := by
  have hnext := digitsNext_end hunder htest
  simp only [afterInt, getc, Lex.bind_ok]
  by_cases hdot : c = cp '.'
  · rw [if_pos hdot] at hnext
    rw [if_pos (Or.inr (Or.inr hdot)), hdot, scanFloat_dot_runs, ← hdot, runs_some hnext, and_iff_right trivial]
  · rw [if_neg hdot] at hnext
    by_cases hexp : c = cp 'e' ∨ c = cp 'E'
    · rw [if_pos hexp] at hnext
      rw [if_pos (hexp.imp_right Or.inl), scanFloat_exp_runs v mode hexp]
      by_cases hmode : mode = .dec
      · rw [if_pos hmode] at hnext
        rw [runs_some hnext, and_iff_right hmode, and_iff_right trivial]
      · rw [if_neg hmode] at hnext
        exact iff_of_false (fun h => hmode h.1) (runs_none hnext)
    · rw [if_neg hexp] at hnext
      have hfloat : ¬(c = cp 'e' ∨ c = cp 'E' ∨ c = cp '.') := by tauto
      rw [if_neg hfloat]
      by_cases hsym : issym c = true
      · rw [if_pos hsym]
        apply suffixNext_runs hnext
        rintro ⟨suffix, r'⟩
        dsimp only
        cases integerSuffix suffix <;> simp [hits_error]
      · have hgood : ¬ IsSym c := fun h => hsym h.1
        rw [suffixNext, if_neg hgood] at hnext
        rw [if_neg hsym]
        exact iff_of_false (by simp) (runs_none hnext)

theorem runs_append {state : NumState} (hkeep : keep state) {us : List ℕ} (hus : ∀ u ∈ us, state.next u = some state)
    (r : List ℕ) : state.Runs keep (us ++ r) ↔ state.Runs keep r := by
  induction us with
  | nil => rfl
  | cons u us ih =>
    rw [List.forall_mem_cons] at hus
    rw [List.cons_append, runs_self hus.1 hkeep, ih hus.2]

/-- The first character that is no underscore. -/
theorem getcNum_cases (r : List ℕ) :
    (∀ u ∈ r, u = cp '_') ∧ getcNum .endOfFile r = .error .endOfFile ∨ ∃ us c r', r = us ++ c :: r' ∧
      (∀ u ∈ us, u = cp '_') ∧ c ≠ cp '_' ∧ getcNum .endOfFile r = .ok (c, r') := by
  induction r with
  | nil => exact Or.inl ⟨by simp, rfl⟩
  | cons c r ih =>
    rw [getcNum]
    split_ifs with hc
    · rcases ih with ⟨hall, hend⟩ | ⟨us, c', r', rfl, hus, hc', hok⟩
      · exact Or.inl ⟨List.forall_mem_cons.mpr ⟨hc, hall⟩, hend⟩
      · exact Or.inr ⟨c :: us, c', r', rfl, List.forall_mem_cons.mpr ⟨hc, hus⟩, hc', hok⟩
    · exact Or.inr ⟨[], c, r, rfl, by simp, hc, rfl⟩

theorem parseInt_runs {α : Type} {k : BitVec 128 × NumMode × List ℕ → Lex α} (hzero : keep .zero)
    (hkeep : ∀ mode, keep (.digits mode))
    (hk : ∀ v mode c r, c ≠ cp '_' → NumMode.test mode c = false →
      (Hits (k (v, mode, c :: r)) ↔ (NumState.digits mode).Runs keep (c :: r)))
    {c : ℕ} (hc : isdigit c = true) (r : List ℕ) :
    Hits (parseInt .endOfFile (c :: r) >>= k) ↔ (NumState.start c).Runs keep r := by
  have hdigits (mode : NumMode) (v : BitVec 128) (r : List ℕ) :
      Hits ((parseDigits .endOfFile mode.test mode.base (mode.base - 1) v r >>= fun out =>
        .ok (out.1, mode, out.2)) >>= k) ↔ (NumState.digits mode).Runs keep r := by
    rw [bind_assoc]
    exact parseDigits_runs (hkeep mode) (fun v c r hunder htest => hk v mode c r hunder htest) v r
  rw [parseInt, NumState.start]
  simp only [getc, Lex.bind_ok]
  by_cases hc0 : c = cp '0'
  · rw [if_pos hc0, if_pos hc0]
    rcases getcNum_cases r with ⟨hall, hend⟩ | ⟨us, c', r', rfl, hus, hunder, hok⟩
    · have hrun := runs_append hzero (fun u hu => show NumState.zero.next u = _ from if_pos (hall u hu)) []
      rw [List.append_nil] at hrun
      rw [hend, hrun]
      exact iff_of_true rfl trivial
    · have hstart : NumState.zero.Runs keep (us ++ c' :: r') ↔ NumState.zero.Runs keep (c' :: r') :=
        runs_append hzero (fun u hu => if_pos (hus u hu)) _
      have hnext : NumState.zero.next c' = if c' = cp 'x' then some (.digits .hex)
          else if c' = cp 'b' then some (.digits .bin)
          else if c' = cp 'o' then some (.digits .oct) else digitsNext .dec c' := if_neg hunder
      rw [hok, hstart]
      simp only [Lex.bind_ok]
      split_ifs at hnext ⊢
      · rw [runs_some hnext, and_iff_right (hkeep _)]
        exact hdigits .hex 0 r'
      · rw [runs_some hnext, and_iff_right (hkeep _)]
        exact hdigits .bin 0 r'
      · rw [runs_some hnext, and_iff_right (hkeep _)]
        exact hdigits .oct 0 r'
      · have hsame : NumState.zero.Runs keep (c' :: r') ↔ (NumState.digits .dec).Runs keep (c' :: r') := by
          rw [NumState.Runs, NumState.Runs, hnext]
          rfl
        have hunders : (NumState.digits .dec).Runs keep (us ++ c' :: r') ↔ (NumState.digits .dec).Runs keep (c' :: r') :=
          runs_append (hkeep _) (fun u hu => if_pos (hus u hu)) _
        rw [hsame, ← hunders]
        exact hdigits .dec 0 _
  · rw [if_neg hc0, if_neg hc0, if_pos hc]
    exact hdigits .dec _ r

theorem scanNumber_hits {c : ℕ} (hc : isdigit c = true) (r : List ℕ) :
    Hits (scanNumber .endOfFile (c :: r)) ↔ (NumState.start c).Runs (fun _ => True) r := by
  rw [scanNumber_eq]
  exact parseInt_runs trivial (fun _ => trivial) (fun v mode c r hunder htest => afterInt_runs hunder htest v r) hc r

theorem parseInt_hits {c : ℕ} (hc : isdigit c = true) (r : List ℕ) :
    Hits (parseInt .endOfFile (c :: r)) ↔ (NumState.start c).Runs NumState.IsInteger r := by
  have hpure : parseInt .endOfFile (c :: r) = parseInt .endOfFile (c :: r) >>= fun out => .ok out := by
    cases parseInt .endOfFile (c :: r) <;> rfl
  rw [hpure]
  apply parseInt_runs trivial (fun _ => trivial) _ hc r
  intro v mode c r hunder htest
  apply iff_of_false (by simp)
  rintro ⟨state, hnext, hinteger, -⟩
  rw [digitsNext_end hunder htest, suffixNext] at hnext
  split_ifs at hnext <;> cases hnext <;> exact hinteger

end Integers

end Mrustc.Parse
