import Mrustc.MatchRules.Values

/-! # Swapped rules are disjoint

Rules that are swapped match no value both, unless they are for different places, or are a byte string and a slice of
its length, or both are of `f32`s.
-/

namespace Mrustc.MatchRules
open Hir

variable {P : Type} {ordPath : P → P → Ordering} {named : P → Val → Bool} {toFloat : Double → Double}

/-- A number among those of its type; none for what compares with nothing. -/
def Scalar.place : Scalar → Option (ℕ × CoreType × ℤ)
  | .int v t => some (0, t, v)
  | .uint v t => some (1, t, v)
  | .float v t => if v.isNaN then none else some (2, t, v.key)

def Scalar.type : Scalar → CoreType
  | .int _ t | .uint _ t | .float _ t => t

theorem Double.ord_of_number {l r : Double} (hl : l.isNaN = false) (hr : r.isNaN = false) :
    l.ord r = compare l.key r.key := by
  rw [Int.compare_eq_ite_lt]
  simp only [Double.ord, Double.eq, Double.gt, hl, hr]
  grind

theorem Scalar.ord_of_place {c c' : Scalar} {k : ℕ} {t : CoreType} {x y : ℤ} (h : c.place = some (k, t, x))
    (h' : c'.place = some (k, t, y)) : c.ord c' = compare x y := by
  cases c <;> cases c' <;> simp only [place, Option.some.injEq, Prod.mk.injEq, Option.ite_none_left_eq_some] at h h'
  case int.int => simp [Scalar.ord, h, h']
  case uint.uint v _ v' _ =>
    have hv : compare v v' = compare (v : ℤ) v' := by
      simp only [Nat.compare_eq_ite_lt, Int.compare_eq_ite_lt, Nat.cast_lt]
    simp [Scalar.ord, hv, h, h']
  case float.float v _ v' _ => simp [Scalar.ord, Double.ord_of_number, h, h']
  all_goals omega

/-- What is not above a value has a place not above the value's. -/
theorem Scalar.place_of_atLeast {c v : Scalar} (h : c.atLeast toFloat v) (ht : v.type ≠ .f32) :
    ∃ k x y, c.place = some (k, v.type, x) ∧ v.place = some (k, v.type, y) ∧ x ≤ y := by
  cases c <;> cases v <;> simp_all [atLeast, place, type, narrow, Double.eq, Double.gt]
  grind

theorem Scalar.place_of_atMost {c v : Scalar} {isInclusive : Bool} (h : c.atMost toFloat isInclusive v)
    (ht : v.type ≠ .f32) :
    ∃ k x y, c.place = some (k, v.type, x) ∧ v.place = some (k, v.type, y) ∧ y ≤ x ∧ (y = x → isInclusive) := by
  cases c <;> cases v <;> simp_all [atMost, place, type, narrow, Double.eq, Double.gt]
  all_goals grind

theorem Scalar.type_of_atLeast {c v : Scalar} (h : c.atLeast toFloat v) : c.type = v.type := by
  cases c <;> cases v <;> simp_all [atLeast, type]

/-- What has a value between them is in order. -/
theorem Scalar.le_of_between {first last v : Scalar} {isInclusive : Bool} (h : first.atLeast toFloat v)
    (h' : last.atMost toFloat isInclusive v) (ht : v.type ≠ .f32) :
    first.ord last ≠ .gt ∧ (isInclusive = false → first.ord last = .lt) := by
  rcases place_of_atLeast h ht with ⟨k, x, y, hfirst, hv, hxy⟩
  rcases place_of_atMost h' ht with ⟨k', z, y', hlast, hv', hyz, heq⟩
  simp only [hv, Option.some.injEq, Prod.mk.injEq] at hv'
  rw [ord_of_place hfirst (by rw [hlast, ← hv'.1]), Int.compare_eq_ite_lt]
  grind

/-- Two constants below one value are comparable. -/
theorem Scalar.le_total_of_atLeast {c c' v : Scalar} (h : c.atLeast toFloat v) (h' : c'.atLeast toFloat v)
    (ht : v.type ≠ .f32) : c.ord c' ≠ .gt ∨ c'.ord c ≠ .gt := by
  rcases place_of_atLeast h ht with ⟨k, x, y, hc, hv, hxy⟩
  rcases place_of_atLeast h' ht with ⟨k', z, y', hc', hv', hzy⟩
  simp only [hv, Option.some.injEq, Prod.mk.injEq] at hv'
  rw [ord_of_place hc (by rw [hc', ← hv'.1]), ord_of_place hc' (by rw [hc, ← hv'.1]), Int.compare_eq_ite_lt,
    Int.compare_eq_ite_lt]
  grind

/-- A constant of `f32`, that is known only after its rounding. -/
def Constant.isF32 : Constant P → Bool
  | .scalar c => c.type = .f32
  | _ => false

def PatternRule.isF32 : PatternRule P → Bool
  | .value _ c => c.isF32
  | .valueRange _ first _ _ => first.isF32
  | _ => false

/-- A byte string before a slice of its length. -/
def isBytesOfSlice : PatternRule P → PatternRule P → Bool
  | .value _ (.bytes s), .slice _ len _ => s.length = len
  | _, _ => false

/-- Rules that are swapped without regard to what both match. -/
def Misjudged (a b : PatternRule P) : Prop :=
  a.fieldPath ≠ b.fieldPath ∨ isBytesOfSlice a b ∨ a.isF32 ∧ b.isF32

theorem Scalar.ne_f32 {c c' v : Scalar} (h : c.atLeast toFloat v) (h' : c'.atLeast toFloat v)
    (hf : ¬ ((Constant.scalar c : Constant P).isF32 ∧ (Constant.scalar c' : Constant P).isF32)) : v.type ≠ .f32 := by
  intro ht
  apply hf
  simp [Constant.isF32, type_of_atLeast h, type_of_atLeast h', ht]

theorem ordVec_self {α : Type} {ord : α → α → Ordering} (h : ∀ a, ord a a = .eq) (l : List α) :
    ordVec ord l l = .eq := by
  induction l with
  | nil => rfl
  | cons a l ih => simp [ordVec, h, ih]

theorem Val.eq_of_isByte {c c' : UInt8} {v : Val} (h : v.isByte c) (h' : v.isByte c') : c = c' := by
  cases v with
  | scalar v =>
    simp only [Val.isByte, decide_eq_true_eq] at h h'
    rw [h, Scalar.uint.injEq] at h'
    exact UInt8.toNat_inj.mp h'.1
  | _ => cases h

theorem bytes_unique {s s' : List UInt8} {elems : List Val} (hl : elems.length = s.length)
    (hl' : elems.length = s'.length) (h : (List.zip s elems).all fun e => e.2.isByte e.1)
    (h' : (List.zip s' elems).all fun e => e.2.isByte e.1) : s = s' := by
  induction s generalizing s' elems with
  | nil =>
    rw [hl] at hl'
    exact (List.length_eq_zero_iff.mp hl'.symm).symm
  | cons c s ih =>
    rcases elems with _ | ⟨e, elems⟩
    · cases hl
    rcases s' with _ | ⟨c', s'⟩
    · cases hl'
    rw [List.zip_cons_cons, List.all_cons, Bool.and_eq_true] at h h'
    have hc : c = c' := Val.eq_of_isByte h.1 h'.1
    rw [hc, ih (Nat.succ.inj hl) (Nat.succ.inj hl') h.2 h'.2]

/-- Constants that one value equals are equal in the order. -/
theorem Constant.ord_of_matches (ordPath : P → P → Ordering) {c c' : Constant P} {w : Val}
    (h : c.matches named toFloat w)
    (h' : c'.matches named toFloat w) (hconst : ∀ p, c ≠ .const p) (hconst' : ∀ p, c' ≠ .const p)
    (hf : ¬ (c.isF32 ∧ c'.isF32)) : c.ord ordPath c' = .eq := by
  cases c with
  | const p => exact absurd rfl (hconst p)
  | scalar c =>
    cases c' with
    | const p => exact absurd rfl (hconst' p)
    | scalar c' =>
      cases w with
      | scalar v =>
        simp only [Constant.matches, Bool.and_eq_true] at h h'
        have ht : v.type ≠ .f32 := Scalar.ne_f32 h.1 h'.1 hf
        rcases Scalar.place_of_atLeast h.1 ht with ⟨k, x, y, hc, hv, hle⟩
        rcases Scalar.place_of_atMost h.2 ht with ⟨_, _, _, hc₂, hv₂, hge, _⟩
        rcases Scalar.place_of_atLeast h'.1 ht with ⟨_, _, _, hc', hv', hle'⟩
        rcases Scalar.place_of_atMost h'.2 ht with ⟨_, _, _, hc'₂, hv'₂, hge', _⟩
        simp only [hc, hv, hc', Option.some.injEq, Prod.mk.injEq] at hc₂ hv₂ hv' hc'₂ hv'₂
        have hx : (x : ℤ) = y := by omega
        rw [Constant.ord, Scalar.ord_of_place hc (by rw [hc', ← hv'.1])]
        rw [Int.compare_eq_ite_lt]
        grind
      | _ => simp [Constant.matches] at h
    | _ => cases w <;> simp [Constant.matches] at h h'
  | bytes s =>
    cases c' with
    | const p => exact absurd rfl (hconst' p)
    | bytes s' =>
      cases w with
      | seq elems =>
        simp only [Constant.matches, Bool.and_eq_true, decide_eq_true_eq] at h h'
        rw [bytes_unique h.1 h'.1 h.2 h'.2]
        exact ordVec_self (fun a => Std.ReflCmp.compare_self) s'
      | _ => simp [Constant.matches] at h
    | _ => cases w <;> simp [Constant.matches] at h h'
  | staticString s =>
    cases c' with
    | const p => exact absurd rfl (hconst' p)
    | staticString s' =>
      cases w with
      | str t =>
        simp only [Constant.matches, decide_eq_true_eq] at h h'
        rw [h, h']
        exact ordVec_self (fun a => Std.ReflCmp.compare_self) t
      | _ => simp [Constant.matches] at h
    | _ => cases w <;> simp [Constant.matches] at h h'

/-- A constant that has a value in the range is in it. -/
theorem within_of_matches (ordPath : P → P → Ordering) {first last c : Constant P} {w : Val} {isInclusive : Bool}
    (h : rangeMatches toFloat isInclusive first last w) (h' : c.matches named toFloat w) (hconst : ∀ p, c ≠ .const p)
    (hf : ¬ (first.isF32 ∧ c.isF32)) : first.le ordPath c ∧ isWithinRight ordPath c last isInclusive := by
  cases w with
  | scalar v =>
    cases first with
    | scalar first =>
      cases last with
      | scalar last =>
        cases c with
        | scalar c =>
          simp only [rangeMatches, Constant.matches, Bool.and_eq_true] at h h'
          have ht := Scalar.ne_f32 h.1 h'.1 hf
          have hfirst := Scalar.le_of_between h.1 h'.2 ht
          have hlast := Scalar.le_of_between h'.1 h.2 ht
          cases isInclusive <;> simp_all [isWithinRight, Constant.le, Constant.lt, Constant.ord]
        | const p => exact absurd rfl (hconst p)
        | _ => simp [Constant.matches] at h'
      | _ => simp [rangeMatches] at h
    | _ => simp [rangeMatches] at h
  | _ => cases first <;> cases last <;> simp [rangeMatches] at h

/-- The test of two inclusive ranges finds what has a value in both. -/
theorem ranges_meet (ordPath : P → P → Ordering) {first last first' last' : Constant P} {w : Val}
    (h : rangeMatches toFloat true first last w)
    (h' : rangeMatches toFloat true first' last' w) (hf : ¬ (first.isF32 ∧ first'.isF32)) :
    first.le ordPath first' ∧ first'.le ordPath last ∨ first'.le ordPath first ∧ first.le ordPath last' := by
  cases w with
  | scalar v =>
    cases first with
    | scalar first =>
      cases last with
      | scalar last =>
        cases first' with
        | scalar first' =>
          cases last' with
          | scalar last' =>
            simp only [rangeMatches, Bool.and_eq_true] at h h'
            have ht := Scalar.ne_f32 h.1 h'.1 hf
            have hlast := Scalar.le_of_between h'.1 h.2 ht
            have hlast' := Scalar.le_of_between h.1 h'.2 ht
            rcases Scalar.le_total_of_atLeast h.1 h'.1 ht with hle | hle
            · exact .inl ⟨decide_eq_true hle, decide_eq_true hlast.1⟩
            · exact .inr ⟨decide_eq_true hle, decide_eq_true hlast'.1⟩
          | _ => simp [rangeMatches] at h'
        | _ => simp [rangeMatches] at h'
      | _ => simp [rangeMatches] at h
    | _ => simp [rangeMatches] at h
  | _ => cases first <;> cases last <;> simp [rangeMatches] at h

/-- The rules do not overlap and are in the wrong order. -/
theorem swapsRules_eq_true {a b : PatternRule P} (h : swapsRules ordPath a b = .ok true) :
    rulesOverlap ordPath a b = .ok false ∧ ordRuleCompatible ordPath a b = .ok .gt := by
  unfold swapsRules at h
  cases ho : rulesOverlap ordPath a b with
  | error f => simp [ho, Bind.bind, Except.bind] at h
  | ok o =>
    cases o
    · cases hc : ordRuleCompatible ordPath a b with
      | error f => simp [ho, hc, Bind.bind, Except.bind] at h
      | ok o => simp_all [Bind.bind, Except.bind, Pure.pure, Except.pure]
    · simp [ho, Bind.bind, Except.bind, Pure.pure, Except.pure] at h

/-- What a rule asks of the value at its place. -/
def PatternRule.asks (named : P → Val → Bool) (toFloat : Double → Double) : PatternRule P → Val → Bool
  | .variant _ idx _ => Val.isVariant idx
  | .slice _ len _ => Val.isSeq (· = len)
  | .splitSlice _ minLen _ _ _ => Val.isSeq (minLen ≤ ·)
  | .bool _ b => Val.isBool b
  | .value _ c => c.matches named toFloat
  | .valueRange _ first last isInclusive => rangeMatches toFloat isInclusive first last
  | .any _ => fun _ => true

theorem exists_asks {a : PatternRule P} {root : Val} (h : a.matches named toFloat root) (hany : a.isAny = false) :
    ∃ w, root.at a.fieldPath = some w ∧ a.asks named toFloat w := by
  cases a with
  | any p => simp [PatternRule.isAny] at hany
  | _ => simp_all [PatternRule.matches, PatternRule.fieldPath, PatternRule.asks, Option.any_eq_true]

/-- Rules that no wildcard and no named constant lets meet. -/
theorem overlap_guard {a b : PatternRule P} (h : rulesOverlap ordPath a b = .ok false) :
    a.isAny = false ∧ b.isAny = false ∧ isConst a = false ∧ isConst b = false := by
  unfold rulesOverlap at h
  split at h <;> simp_all

theorem ne_const {p : FieldPath} {c : Constant P} (h : isConst (.value p c) = false) (q : P) : c ≠ .const q := by
  rintro rfl
  simp [isConst] at h

/-- The constructor of the values that a rule asks for. -/
def PatternRule.askedIdx : PatternRule P → ℕ
  | .variant _ _ _ => 5
  | .slice _ _ _ | .splitSlice _ _ _ _ _ | .value _ (.bytes _) => 3
  | .bool _ _ => 0
  | .value _ (.scalar _) | .valueRange _ _ _ _ => 1
  | .value _ (.staticString _) => 2
  | .value _ (.const _) | .any _ => 7

theorem ctorIdx_of_asks {a : PatternRule P} {w : Val} (h : a.asks named toFloat w) (hany : a.isAny = false)
    (hconst : isConst a = false) : w.ctorIdx = a.askedIdx := by
  cases a with
  | any p => cases hany
  | value p c =>
    cases c with
    | const q => cases hconst
    | _ => cases w <;> first | rfl | cases h
  | valueRange p first last isInclusive =>
    cases w with
    | scalar v => rfl
    | _ => cases first <;> cases last <;> cases h
  | _ => cases w <;> first | rfl | cases h

/-- Rules of one place that do not overlap for the test ask for different values there. -/
theorem disjoint_asks {a b : PatternRule P} {w : Val} (ho : rulesOverlap ordPath a b = .ok false)
    (hbytes : ¬ isBytesOfSlice a b) (hbytes' : ¬ isBytesOfSlice b a) (hf : ¬ (a.isF32 ∧ b.isF32))
    (ha : a.asks named toFloat w) (hb : b.asks named toFloat w) : False := by
  have ⟨hany, hany', hconst, hconst'⟩ := overlap_guard ho
  have hidx : a.askedIdx = b.askedIdx := (ctorIdx_of_asks ha hany hconst).symm.trans (ctorIdx_of_asks hb hany' hconst')
  simp only [rulesOverlap, hany, hany', hconst, hconst', Bool.or_self, Bool.false_eq_true, if_false] at ho
  cases a with
  | any p => cases hany
  | variant p idx subRules =>
    cases b with
    | variant p' idx' subRules' =>
      cases w with
      | variant i fields =>
        simp only [PatternRule.asks, Val.isVariant, decide_eq_true_eq] at ha hb
        simp [ordRuleCompatible, ha, hb] at ho
      | _ => cases ha
    | value p' c => cases c <;> cases hidx
    | _ => cases hidx
  | slice p len subRules =>
    cases w with
    | seq elems =>
      simp only [PatternRule.asks, Val.isSeq, decide_eq_true_eq] at ha
      cases b with
      | slice p' len' subRules' =>
        simp only [PatternRule.asks, Val.isSeq, decide_eq_true_eq] at hb
        simp [ordRuleCompatible, ← ha, ← hb] at ho
      | splitSlice p' minLen _ leading trailing =>
        simp only [PatternRule.asks, Val.isSeq, decide_eq_true_eq] at hb
        simp [← ha, hb] at ho
      | value p' c =>
        cases c with
        | bytes s =>
          simp only [PatternRule.asks, Constant.matches, Bool.and_eq_true, decide_eq_true_eq] at hb
          exact hbytes' (by simp [isBytesOfSlice, ← ha, hb.1])
        | _ => cases hidx
      | _ => cases hidx
    | _ => cases ha
  | splitSlice p minLen _ leading trailing =>
    cases b with
    | slice p' len subRules =>
      cases w with
      | seq elems =>
        simp only [PatternRule.asks, Val.isSeq, decide_eq_true_eq] at ha hb
        simp [← hb, ha] at ho
      | _ => cases ha
    | any p => cases hany'
    | _ => simp at ho
  | bool p v =>
    cases b with
    | bool p' v' =>
      cases w with
      | bool v'' =>
        simp only [PatternRule.asks, Val.isBool, decide_eq_true_eq] at ha hb
        simp [ordRuleCompatible, ha, hb] at ho
      | _ => cases ha
    | value p' c => cases c <;> cases hidx
    | _ => cases hidx
  | value p c =>
    cases b with
    | any p => cases hany'
    | value p' c' =>
      have heq := Constant.ord_of_matches ordPath ha hb (ne_const hconst) (ne_const hconst') hf
      simp [ordRuleCompatible, heq] at ho
    | valueRange p' first last isInclusive =>
      have hin := within_of_matches ordPath hb ha (ne_const hconst) fun hf' => hf ⟨hf'.2, hf'.1⟩
      cases isInclusive <;> simp_all [isWithinRight]
    | slice p' len subRules =>
      cases c with
      | bytes s =>
        cases w with
        | seq elems =>
          simp only [PatternRule.asks, Constant.matches, Val.isSeq, Bool.and_eq_true, decide_eq_true_eq] at ha hb
          exact hbytes (by simp [isBytesOfSlice, ← hb, ha.1])
        | _ => cases hb
      | _ => cases hidx
    | splitSlice p' minLen _ leading trailing => simp at ho
    | _ => cases c <;> cases hidx
  | valueRange p first last isInclusive =>
    cases b with
    | any p => cases hany'
    | value p' c =>
      have hin := within_of_matches ordPath ha hb (ne_const hconst') hf
      simp_all
    | valueRange p' first' last' isInclusive' =>
      cases isInclusive <;> cases isInclusive' <;> simp at ho
      rcases ranges_meet ordPath ha hb hf with hmeet | hmeet
      · simp_all [isWithinRight]
      · simp_all [isWithinRight]
    | _ => simp at ho

/-- Rules that do not overlap for the test match no value both, the misjudged pairs apart. -/
theorem disjoint_of_overlap {a b : PatternRule P} {root : Val} (ho : rulesOverlap ordPath a b = .ok false)
    (hm : ¬ Misjudged a b) (hm' : ¬ Misjudged b a) (ha : a.matches named toFloat root)
    (hb : b.matches named toFloat root) : False := by
  simp only [Misjudged, not_or, not_not] at hm hm'
  rcases hm with ⟨hp, hbytes, hf⟩
  have hguard := overlap_guard ho
  rcases exists_asks ha hguard.1 with ⟨w, hw, ha⟩
  rcases exists_asks hb hguard.2.1 with ⟨w', hw', hb⟩
  rw [← hp, hw, Option.some.injEq] at hw'
  exact disjoint_asks ho hbytes hm'.2.1 hf ha (hw' ▸ hb)

/-- Rules that the sort swaps match no value both, the misjudged pairs apart; a slice is not moved behind a byte
string. -/
theorem disjoint_of_swaps {a b : PatternRule P} {root : Val} (h : swapsRules ordPath a b = .ok true)
    (hm : ¬ Misjudged a b) (ha : a.matches named toFloat root) (hb : b.matches named toFloat root) : False := by
  have ⟨ho, hc⟩ := swapsRules_eq_true h
  have hbytes : ¬ isBytesOfSlice b a := by
    cases b with
    | value p c =>
      cases a with
      | slice p' len subRules =>
        simp only [ordRuleCompatible, PatternRule.tag, Except.ok.injEq] at hc
        exact absurd hc (by decide)
      | _ => cases c <;> simp [isBytesOfSlice]
    | _ => simp [isBytesOfSlice]
  apply disjoint_of_overlap ho hm _ ha hb
  simp only [Misjudged, not_or] at hm ⊢
  exact ⟨fun hp => hm.1 (Ne.symm hp), hbytes, fun hf => hm.2.2 hf.symm⟩

end Mrustc.MatchRules
