import Mrustc.Comparison.Partial
import Mrustc.MatchRules.Disjoint

/-! # The orders of the rules

The order of the constants and the order of the rules by their heads compare one key after the other. A number that is
none makes them partial, but what is greater is never less, and equality is symmetric and transitive.
-/

namespace Mrustc.MatchRules
open Hir Comparison

section Keys

variable {P : Type} {ordPath : P → P → Ordering}

theorem ordVec_eq_compareLex {α : Type} (ord : α → α → Ordering) (l r : List α) :
    ordVec ord l r = List.compareLex ord l r := by
  induction l generalizing r with
  | nil => cases r <;> rfl
  | cons a l ih =>
    cases r with
    | nil => rfl
    | cons b r => rw [ordVec, List.compareLex_cons_cons, ih]

theorem Double.partial_ord : Partial Double.ord where
  gt_asymm a b := by
    simp only [Double.ord, Double.eq, Double.gt]
    grind
  eq_symm a b := by
    simp only [Double.ord, Double.eq, Double.gt]
    grind
  eq_trans a b c := by
    simp only [Double.ord, Double.eq, Double.gt]
    grind

def Double.zero : Double := ⟨0⟩

namespace Constant

def intKey : Constant P → ℤ
  | .scalar (.int v _) => v
  | _ => 0

def uintKey : Constant P → ℕ
  | .scalar (.uint v _) => v
  | _ => 0

def floatKey : Constant P → Double
  | .scalar (.float v _) => v
  | _ => .zero

def typeKey : Constant P → ℕ
  | .scalar s => s.type.ctorIdx
  | _ => 0

def textKey : Constant P → List UInt8
  | .bytes s | .staticString s => s
  | _ => []

def pathKey : Constant P → List P
  | .const p => [p]
  | _ => []

theorem ord_eq_keys (c c' : Constant P) : c.ord ordPath c' =
    (compare c.tag c'.tag).then ((compare c.intKey c'.intKey).then ((compare c.uintKey c'.uintKey).then
      ((c.floatKey.ord c'.floatKey).then ((compare c.typeKey c'.typeKey).then
        ((List.compareLex compare c.textKey c'.textKey).then (List.compareLex ordPath c.pathKey c'.pathKey)))))) := by
  have hzero : Double.zero.ord .zero = .eq := by decide
  have hnil : List.compareLex (compare : UInt8 → UInt8 → Ordering) [] [] = .eq := rfl
  have hnil' : List.compareLex ordPath [] [] = .eq := rfl
  cases c with
  | scalar s =>
    cases c' with
    | scalar s' =>
      cases s <;> cases s' <;>
        simp [Constant.ord, Scalar.ord, tag, Scalar.tag, intKey, uintKey, floatKey, typeKey, textKey, pathKey, hzero,
          hnil, hnil', Scalar.type] <;> rfl
    | _ => cases s <;> rfl
  | bytes s =>
    cases c' with
    | scalar s' => cases s' <;> rfl
    | bytes s' =>
      simp [Constant.ord, tag, intKey, uintKey, floatKey, typeKey, textKey, pathKey, hzero, hnil', ordVec_eq_compareLex]
    | _ => rfl
  | staticString s =>
    cases c' with
    | scalar s' => cases s' <;> rfl
    | staticString s' =>
      simp [Constant.ord, tag, intKey, uintKey, floatKey, typeKey, textKey, pathKey, hzero, hnil', ordVec_eq_compareLex]
    | _ => rfl
  | const p =>
    cases c' with
    | scalar s' => cases s' <;> rfl
    | const p' =>
      simp [Constant.ord, tag, intKey, uintKey, floatKey, typeKey, textKey, pathKey, hzero, hnil, List.compareLex_cons_cons,
        hnil']
    | _ => rfl

theorem partial_ord (h : Partial ordPath) : Partial (Constant.ord ordPath) := by
  have hkeys : Constant.ord ordPath = _ := funext fun c => funext fun c' => ord_eq_keys c c'
  rw [hkeys]
  have hnat : Partial (compare : ℕ → ℕ → Ordering) := .of_transCmp _
  have hint : Partial (compare : ℤ → ℤ → Ordering) := .of_transCmp _
  have hbyte : Partial (compare : UInt8 → UInt8 → Ordering) := .of_transCmp _
  exact (hnat.comap tag).lex <| (hint.comap intKey).lex <| (hnat.comap uintKey).lex <|
    (Double.partial_ord.comap floatKey).lex <| (hnat.comap typeKey).lex <| (hbyte.list.comap textKey).lex <|
    h.list.comap pathKey

end Constant

namespace PatternRule

def number : PatternRule P → ℕ
  | .variant _ idx _ => idx
  | .slice _ len _ => len
  | _ => 0

def constants : PatternRule P → List (Constant P)
  | .value _ c => [c]
  | .valueRange _ first last _ => [first, last]
  | _ => []

def flag : PatternRule P → Bool
  | .bool _ b => b
  | .valueRange _ _ _ isInclusive => isInclusive
  | _ => false

/-- The order of the rules without any rules inside. -/
def headOrd (ordPath : P → P → Ordering) (a b : PatternRule P) : Ordering :=
  (compare a.tag b.tag).then ((compare a.number b.number).then
    ((List.compareLex (Constant.ord ordPath) a.constants b.constants).then (compare a.flag b.flag)))

def isSplitSlice : PatternRule P → Bool
  | .splitSlice _ _ _ _ _ => true
  | _ => false

theorem partial_headOrd (h : Partial ordPath) : Partial (headOrd ordPath) := by
  have hnat : Partial (compare : ℕ → ℕ → Ordering) := .of_transCmp _
  have hbool : Partial (compare : Bool → Bool → Ordering) := .of_transCmp _
  exact (hnat.comap tag).lex <| (hnat.comap number).lex <| ((Constant.partial_ord h).list.comap constants).lex <|
    hbool.comap flag

end PatternRule

theorem ordRuleCompatible_eq_headOrd {a b : PatternRule P} (h : a.isSplitSlice = false ∨ b.isSplitSlice = false) :
    ordRuleCompatible ordPath a b = .ok (a.headOrd ordPath b) := by
  have hnil : List.compareLex (Constant.ord ordPath) [] [] = .eq := rfl
  cases a <;> cases b <;> first
    | rfl
    | simp_all [ordRuleCompatible, PatternRule.headOrd, PatternRule.tag, PatternRule.number, PatternRule.constants,
        PatternRule.flag, List.compareLex_cons_cons, PatternRule.isSplitSlice, Ordering.then_assoc]

/-- The heads are equal where the rules without those inside are. -/
theorem headOrd_of_compatible {a b : PatternRule P} (h : ordRuleCompatible ordPath a b = .ok .eq) :
    a.headOrd ordPath b = .eq := by
  by_cases hs : a.isSplitSlice = false ∨ b.isSplitSlice = false
  · simpa [ordRuleCompatible_eq_headOrd hs] using h
  · cases a <;> cases b <;> simp [PatternRule.isSplitSlice] at hs
    rfl

/-- Swapped rules differ in their heads. -/
theorem headOrd_of_swaps {a b : PatternRule P} (h : swapsRules ordPath a b = .ok true) :
    a.headOrd ordPath b = .gt := by
  have ⟨ho, hc⟩ := swapsRules_eq_true h
  have ⟨hany, hany', hconst, hconst'⟩ := overlap_guard ho
  by_cases hs : a.isSplitSlice = false ∨ b.isSplitSlice = false
  · simpa [ordRuleCompatible_eq_headOrd hs] using hc
  · cases a <;> cases b <;> simp [PatternRule.isSplitSlice] at hs
    simp [rulesOverlap, hany, hany', hconst, hconst'] at ho

/-- Rules are swapped in one order of them only. -/
theorem swapsRules_asymm (hp : Partial ordPath) {a b : PatternRule P} (h : swapsRules ordPath a b = .ok true) :
    swapsRules ordPath b a ≠ .ok true := by
  intro h'
  have hlt := (PatternRule.partial_headOrd hp).gt_asymm a b (headOrd_of_swaps h)
  rw [headOrd_of_swaps h'] at hlt
  exact absurd hlt (by decide)

/-- Two elements that are or equal a third one. -/
def Joined {α : Type} (equal : α → α → Prop) (a b : α) : Prop := ∃ s, (a = s ∨ equal a s) ∧ (b = s ∨ equal b s)

theorem Joined.symm {α : Type} {equal : α → α → Prop} {a b : α} (h : Joined equal a b) : Joined equal b a := by
  rcases h with ⟨s, ha, hb⟩
  exact ⟨s, hb, ha⟩

theorem Joined.imp {α β : Type} {equal : α → α → Prop} {equal' : β → β → Prop} (f : α → β)
    (hf : ∀ a b, equal a b → equal' (f a) (f b)) {a b : α} (h : Joined equal a b) : Joined equal' (f a) (f b) := by
  rcases h with ⟨s, ha, hb⟩
  exact ⟨f s, ha.imp (congrArg f) (hf a s), hb.imp (congrArg f) (hf b s)⟩

/-- Rules that equal one rule in their heads are not swapped. -/
theorem not_swaps_of_joined (hp : Partial ordPath) {a b : PatternRule P}
    (h : Joined (fun a b => a.headOrd ordPath b = .eq) a b) : swapsRules ordPath a b ≠ .ok true := by
  intro hs
  have hgt := headOrd_of_swaps hs
  have horder := PatternRule.partial_headOrd hp
  rcases h with ⟨s, rfl | ha, rfl | hb⟩
  · exact swapsRules_asymm hp hs hs
  · rw [horder.eq_symm _ _ hb] at hgt
    exact absurd hgt (by decide)
  · rw [ha] at hgt
    exact absurd hgt (by decide)
  · rw [horder.eq_trans _ _ _ ha (horder.eq_symm _ _ hb)] at hgt
    exact absurd hgt (by decide)

end Keys

section Rows

variable {P : Type} {ordPath : P → P → Ordering}

theorem ORD_eq_ok_eq {o : Ordering} {rest : Except Fault Ordering} :
    ORD o rest = .ok .eq ↔ o = .eq ∧ rest = .ok .eq := by
  unfold ORD
  split <;> simp_all

theorem tag_of_ord {a b : PatternRule P} (h : a.ord ordPath b = .ok .eq) : a.tag = b.tag := by
  cases a <;> cases b <;> simp_all [PatternRule.ord, PatternRule.tag]

/-- Equal rules are equal in their heads. -/
theorem headOrd_of_ord {a b : PatternRule P} (h : a.ord ordPath b = .ok .eq) : a.headOrd ordPath b = .eq := by
  have hnil : List.compareLex (Constant.ord ordPath) [] [] = .eq := rfl
  have htag := tag_of_ord h
  cases a <;> cases b <;> first
    | simp [PatternRule.tag] at htag; done
    | simp_all [PatternRule.ord, ORD_eq_ok_eq, PatternRule.headOrd, PatternRule.tag, PatternRule.number,
        PatternRule.constants, PatternRule.flag, List.compareLex_cons_cons, Ordering.then_eq_eq]

/-- Equal rules have equal rules inside. -/
theorem ordAll_innerRules {a b : PatternRule P} (h : a.ord ordPath b = .ok .eq) :
    PatternRule.ordAll ordPath (innerRules a) (innerRules b) = .ok .eq := by
  have htag := tag_of_ord h
  cases a <;> cases b <;> simp [PatternRule.tag] at htag <;> try rfl
  simp only [PatternRule.ord, ORD_eq_ok_eq] at h
  have hall := h.2.2
  split at hall
  · exact hall
  · simp at hall

theorem ord_getD_of_ordAll {l r : List (PatternRule P)} (h : PatternRule.ordAll ordPath l r = .ok .eq) (idx : ℕ) :
    (l.getD idx (.any [])).ord ordPath (r.getD idx (.any [])) = .ok .eq := by
  induction l generalizing r idx with
  | nil =>
    cases r with
    | nil => simp [PatternRule.ord, ordVec]
    | cons b r => simp [PatternRule.ordAll] at h
  | cons a l ih =>
    cases r with
    | nil => simp [PatternRule.ordAll] at h
    | cons b r =>
      simp only [PatternRule.ordAll] at h
      cases hab : a.ord ordPath b with
      | error f => simp [hab, Bind.bind, Except.bind] at h
      | ok o =>
        simp only [hab, Bind.bind, Except.bind, ORD_eq_ok_eq] at h
        cases idx with
        | zero => simpa [h.1] using hab
        | succ idx => simpa using ih h.2 idx

end Rows

end Mrustc.MatchRules
