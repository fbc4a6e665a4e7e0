import Mrustc.Minicargo.Version

/-! # What a comparator accepts

A comparator with missing parts stands for all their completions. The bounds that
it is read into are judged against that: where they accept or reject a
version wrongly.
-/

namespace Mrustc.Minicargo

/-- A version with all its parts. -/
@[ext]
structure Version where
  major : ℕ
  minor : ℕ
  patch : ℕ
  deriving DecidableEq, Repr

namespace Version

def parts (v : Version) : List ℕ := [v.major, v.minor, v.patch]

def package (v : Version) : PackageVersion := .ofPatch v.major v.minor v.patch

/-- Every part is a C++ `unsigned`. -/
structure Fits (v : Version) : Prop where
  major : v.major < 2 ^ 32
  minor : v.minor < 2 ^ 32
  patch : v.patch < 2 ^ 32

/-- The order of versions, lexicographic in the parts. -/
def Lt (v w : Version) : Prop :=
  v.major < w.major ∨ v.major = w.major ∧ (v.minor < w.minor ∨ v.minor = w.minor ∧ v.patch < w.patch)

def Le (v w : Version) : Prop := v = w ∨ v.Lt w

end Version

/-- The parts that are written. -/
inductive Parts
  | major (major : ℕ)
  | minor (major minor : ℕ)
  | patch (major minor patch : ℕ)
  deriving DecidableEq, Repr

def Parts.list : Parts → List ℕ
  | .major a => [a]
  | .minor a b => [a, b]
  | .patch a b c => [a, b, c]

inductive Comparator
  | any
  | wildcard (ty : BoundType) (major : ℕ)
  | given (ty : BoundType) (parts : Parts)
  deriving DecidableEq, Repr

namespace Comparator

/-- The version agrees with what is written. -/
def Completes (written : List ℕ) (v : Version) : Prop := written <+: v.parts

/-- The parts that `^` keeps: those up to the first that is not zero. -/
def leading (written : List ℕ) : List ℕ := written.take ((written.takeWhile (· = 0)).length + 1)

/-- What an operator says of the completions of what is written. -/
def Satisfies (ty : BoundType) (written : List ℕ) (v : Version) : Prop :=
  match ty with
  | .compatible => (∃ w, Completes written w ∧ w.Le v) ∧ Completes (leading written) v
  | .minorCompatible => (∃ w, Completes written w ∧ w.Le v) ∧ Completes (written.take 2) v
  | .greater => ∀ w, Completes written w → w.Lt v
  | .greaterEqual => ∃ w, Completes written w ∧ w.Le v
  | .equal => Completes written v
  | .lessEqual => ∃ w, Completes written w ∧ v.Le w
  | .less => ∀ w, Completes written w → v.Lt w

def Sat : Comparator → Version → Prop
  | .any, _ => True
  | .wildcard ty major, v => Satisfies ty [major] v
  | .given ty parts, v => Satisfies ty parts.list v

/-- The bounds that the comparator is read into. -/
def bounds : Comparator → List Bound
  | .any => [⟨.greaterEqual, .ofMajor 0⟩]
  | .wildcard _ a => [⟨.greaterEqual, .ofMajor a⟩, ⟨.less, .ofMajor (unsignedSucc a)⟩]
  | .given ty (.major a) => [⟨if ty = .minorCompatible then .compatible else ty, .ofMajor a⟩]
  | .given ty (.minor a b) => [⟨ty, .ofMinor a b⟩]
  | .given ty (.patch a b c) => [⟨ty, .ofPatch a b c⟩]

def numbers : Comparator → List ℕ
  | .any => []
  | .wildcard _ a => [a]
  | .given _ parts => parts.list

def Fits (c : Comparator) : Prop := ∀ n ∈ c.numbers, n < 2 ^ 32

/-- The last `unsigned`, whose successor is zero. -/
def last : ℕ := 2 ^ 32 - 1

/-- The versions that the bounds accept against the comparator. -/
def WronglyAccepts : Comparator → Version → Prop
  | .given .greater (.major a), v => v.major = a ∧ 0 < v.minor
  | .given .compatible (.patch a b c), v =>
    v.major = a ∧ v.minor = b ∧ (0 < a ∧ a ≠ last ∧ v.patch < c ∨ a = 0 ∧ b = 0 ∧ c < v.patch)
  | .given .minorCompatible (.patch a b c), v => v.major = a ∧ v.minor = b ∧ 0 < a ∧ b ≠ last ∧ v.patch < c
  | .wildcard .greater a, v => v.major = a ∧ a ≠ last
  | .wildcard .less a, v => v.major = a ∧ a ≠ last
  | _, _ => False

/-- The versions that the bounds reject against the comparator. -/
def WronglyRejects : Comparator → Version → Prop
  | .given .equal (.major a), v => v.major = a ∧ 0 < v.minor
  | .given .lessEqual (.major a), v => v.major = a ∧ 0 < v.minor
  | .given .compatible (.major a), v => v.major = a ∧ (a = 0 ∧ 0 < v.minor ∨ a = last)
  | .given .minorCompatible (.major a), v => v.major = a ∧ (a = 0 ∧ 0 < v.minor ∨ a = last)
  | .given .compatible (.minor a b), v =>
    v.major = a ∧ (a = 0 ∧ v.minor = b ∧ b = last ∨ a = last ∧ b ≤ v.minor)
  | .given .compatible (.patch a b c), v =>
    v.major = a ∧ (a = 0 ∧ v.minor = b ∧ b = last ∧ c ≤ v.patch ∨
      a = last ∧ (b < v.minor ∨ b = v.minor ∧ c ≤ v.patch))
  | .given .minorCompatible (.minor a b), v => v.major = a ∧ v.minor = b ∧ b = last
  | .given .minorCompatible (.patch a b c), v => v.major = a ∧ v.minor = b ∧ b = last ∧ c ≤ v.patch
  | .wildcard .compatible a, v => v.major = a ∧ a = last
  | .wildcard .minorCompatible a, v => v.major = a ∧ a = last
  | .wildcard .equal a, v => v.major = a ∧ a = last
  | .wildcard .greaterEqual a, v => a < v.major ∨ v.major = a ∧ a = last
  | .wildcard .greater a, v => a < v.major
  | .wildcard .less a, v => v.major < a
  | .wildcard .lessEqual a, v => v.major < a ∨ v.major = a ∧ a = last
  | _, _ => False

/-! ## Completions in the order of versions -/

variable {v : Version} {a b c : ℕ}

theorem cons_prefix_iff {x y : ℕ} {xs ys : List ℕ} : x :: xs <+: y :: ys ↔ y = x ∧ xs <+: ys := by
  rw [List.cons_prefix_cons, eq_comm]

theorem completes_major : Completes [a] v ↔ v.major = a :=
  Iff.trans cons_prefix_iff (and_iff_left List.nil_prefix)

theorem completes_minor : Completes [a, b] v ↔ v.major = a ∧ v.minor = b :=
  Iff.trans cons_prefix_iff (and_congr_right' (Iff.trans cons_prefix_iff (and_iff_left List.nil_prefix)))

theorem completes_patch : Completes [a, b, c] v ↔ v = ⟨a, b, c⟩ := by
  have hparts : Completes [a, b, c] v ↔ v.major = a ∧ v.minor = b ∧ v.patch = c :=
    Iff.trans cons_prefix_iff (and_congr_right' (Iff.trans cons_prefix_iff (and_congr_right'
      (Iff.trans cons_prefix_iff (and_iff_left List.nil_prefix)))))
  rw [hparts, Version.ext_iff]

theorem lt_iff {w : Version} : v.Lt w ↔ v.major < w.major ∨
    v.major = w.major ∧ (v.minor < w.minor ∨ v.minor = w.minor ∧ v.patch < w.patch) := Iff.rfl

/-- What is written is below the version, part by part. -/
def Below : Parts → Version → Prop
  | .major a, v => a < v.major
  | .minor a b, v => a < v.major ∨ a = v.major ∧ b < v.minor
  | .patch a b c, v => a < v.major ∨ a = v.major ∧ (b < v.minor ∨ b = v.minor ∧ c < v.patch)

/-- What is written is above the version, part by part. -/
def Above : Parts → Version → Prop
  | .major a, v => v.major < a
  | .minor a b, v => v.major < a ∨ v.major = a ∧ v.minor < b
  | .patch a b c, v => v.major < a ∨ v.major = a ∧ (v.minor < b ∨ v.minor = b ∧ v.patch < c)

theorem below_major : Below (.major a) v ↔ a < v.major := Iff.rfl

theorem below_minor : Below (.minor a b) v ↔ a < v.major ∨ a = v.major ∧ b < v.minor := Iff.rfl

theorem below_patch : Below (.patch a b c) v ↔
    a < v.major ∨ a = v.major ∧ (b < v.minor ∨ b = v.minor ∧ c < v.patch) := Iff.rfl

theorem above_major : Above (.major a) v ↔ v.major < a := Iff.rfl

theorem above_minor : Above (.minor a b) v ↔ v.major < a ∨ v.major = a ∧ v.minor < b := Iff.rfl

theorem above_patch : Above (.patch a b c) v ↔
    v.major < a ∨ v.major = a ∧ (v.minor < b ∨ v.minor = b ∧ v.patch < c) := Iff.rfl

theorem list_major : (Parts.major a).list = [a] := rfl

theorem list_minor : (Parts.minor a b).list = [a, b] := rfl

theorem list_patch : (Parts.patch a b c).list = [a, b, c] := rfl

/-- The completion that takes the missing parts from the version. -/
def complete : Parts → Version → Version
  | .major a, v => ⟨a, v.minor, v.patch⟩
  | .minor a b, v => ⟨a, b, v.patch⟩
  | .patch a b c, _ => ⟨a, b, c⟩

theorem completes_complete (ps : Parts) (v : Version) : Completes ps.list (complete ps v) := by
  cases ps with
  | major a => exact Iff.mpr completes_major rfl
  | minor a b => exact Iff.mpr completes_minor ⟨rfl, rfl⟩
  | patch a b c => exact Iff.mpr completes_patch rfl

theorem complete_lt_iff (ps : Parts) (v : Version) : (complete ps v).Lt v ↔ Below ps v := by
  rw [lt_iff]
  cases ps with
  | major a =>
    show a < v.major ∨ a = v.major ∧ (v.minor < v.minor ∨ v.minor = v.minor ∧ v.patch < v.patch) ↔ a < v.major
    omega
  | minor a b =>
    show a < v.major ∨ a = v.major ∧ (b < v.minor ∨ b = v.minor ∧ v.patch < v.patch) ↔
      a < v.major ∨ a = v.major ∧ b < v.minor
    omega
  | patch a b c => exact Iff.rfl

theorem lt_complete_iff (ps : Parts) (v : Version) : v.Lt (complete ps v) ↔ Above ps v := by
  rw [lt_iff]
  cases ps with
  | major a =>
    show v.major < a ∨ v.major = a ∧ (v.minor < v.minor ∨ v.minor = v.minor ∧ v.patch < v.patch) ↔ v.major < a
    omega
  | minor a b =>
    show v.major < a ∨ v.major = a ∧ (v.minor < b ∨ v.minor = b ∧ v.patch < v.patch) ↔
      v.major < a ∨ v.major = a ∧ v.minor < b
    omega
  | patch a b c => exact Iff.rfl

theorem lt_of_below {ps : Parts} {v w : Version} (hw : Completes ps.list w) (h : Below ps v) : w.Lt v := by
  cases ps with
  | major a =>
    obtain rfl := Iff.mp completes_major hw
    exact .inl h
  | minor a b =>
    obtain ⟨rfl, rfl⟩ := Iff.mp completes_minor hw
    exact h.imp_right fun h => ⟨h.1, .inl h.2⟩
  | patch a b c =>
    obtain rfl := Iff.mp completes_patch hw
    exact h

theorem gt_of_above {ps : Parts} {v w : Version} (hw : Completes ps.list w) (h : Above ps v) : v.Lt w := by
  cases ps with
  | major a =>
    obtain rfl := Iff.mp completes_major hw
    exact .inl h
  | minor a b =>
    obtain ⟨rfl, rfl⟩ := Iff.mp completes_minor hw
    exact h.imp_right fun h => ⟨h.1, .inl h.2⟩
  | patch a b c =>
    obtain rfl := Iff.mp completes_patch hw
    exact h

end Comparator

namespace Version

variable {v w : Version}

theorem Lt.not_le (h : v.Lt w) : ¬ w.Le v := by
  rintro (rfl | h')
  · rw [Comparator.lt_iff] at h
    omega
  · rw [Comparator.lt_iff] at h h'
    omega

theorem le_of_not_lt (h : ¬ v.Lt w) : w.Le v := by
  by_cases heq : w = v
  · exact .inl heq
  · right
    simp only [Comparator.lt_iff, Version.ext_iff] at h heq ⊢
    omega

end Version

namespace Comparator

theorem satisfies_greater (ps : Parts) (v : Version) : Satisfies .greater ps.list v ↔ Below ps v := by
  constructor
  · exact fun h => (complete_lt_iff ps v).mp (h _ (completes_complete ps v))
  · exact fun h w hw => lt_of_below hw h

theorem satisfies_less (ps : Parts) (v : Version) : Satisfies .less ps.list v ↔ Above ps v := by
  constructor
  · exact fun h => (lt_complete_iff ps v).mp (h _ (completes_complete ps v))
  · exact fun h w hw => gt_of_above hw h

theorem satisfies_greaterEqual (ps : Parts) (v : Version) : Satisfies .greaterEqual ps.list v ↔ ¬ Above ps v := by
  constructor
  · rintro ⟨w, hw, hle⟩ h
    exact (gt_of_above hw h).not_le hle
  · exact fun h => ⟨_, completes_complete ps v, Version.le_of_not_lt fun hlt => h ((lt_complete_iff ps v).mp hlt)⟩

theorem satisfies_lessEqual (ps : Parts) (v : Version) : Satisfies .lessEqual ps.list v ↔ ¬ Below ps v := by
  constructor
  · rintro ⟨w, hw, hle⟩ h
    exact (lt_of_below hw h).not_le hle
  · exact fun h => ⟨_, completes_complete ps v, Version.le_of_not_lt fun hlt => h ((complete_lt_iff ps v).mp hlt)⟩

theorem satisfies_compatible (ps : Parts) (v : Version) :
    Satisfies .compatible ps.list v ↔ ¬ Above ps v ∧ Completes (leading ps.list) v :=
  and_congr_left' (satisfies_greaterEqual ps v)

theorem satisfies_minorCompatible (ps : Parts) (v : Version) :
    Satisfies .minorCompatible ps.list v ↔ ¬ Above ps v ∧ Completes (ps.list.take 2) v :=
  and_congr_left' (satisfies_greaterEqual ps v)

theorem satisfies_equal (ps : Parts) (v : Version) : Satisfies .equal ps.list v ↔ Completes ps.list v := Iff.rfl

end Comparator

namespace PackageVersion

theorem package_cmp_neg {v : Version} {x : PackageVersion} : v.package.cmp x < 0 ↔ v.major < x.major ∨
    v.major = x.major ∧ (v.minor < x.minor ∨ v.minor = x.minor ∧ x.patchSet = true ∧ v.patch < x.patch) := by
  have hcmp : v.package.cmp x = if v.major ≠ x.major then if v.major < x.major then -1 else 1
      else if v.minor ≠ x.minor then if v.minor < x.minor then -1 else 1
      else if true ∧ x.patchSet ∧ v.patch ≠ x.patch then if v.patch < x.patch then -1 else 1 else 0 := rfl
  rw [hcmp]
  split_ifs <;> simp_all

theorem package_cmp_pos {v : Version} {x : PackageVersion} : 0 < v.package.cmp x ↔ x.major < v.major ∨
    x.major = v.major ∧ (x.minor < v.minor ∨ x.minor = v.minor ∧ x.patchSet = true ∧ x.patch < v.patch) := by
  have hcmp : v.package.cmp x = if v.major ≠ x.major then if v.major < x.major then -1 else 1
      else if v.minor ≠ x.minor then if v.minor < x.minor then -1 else 1
      else if true ∧ x.patchSet ∧ v.patch ≠ x.patch then if v.patch < x.patch then -1 else 1 else 0 := rfl
  rw [hcmp]
  split_ifs <;> simp_all <;> omega

theorem cmp_ofMinor_neg {v : Version} {a b : ℕ} :
    v.package.cmp (ofMinor a b) < 0 ↔ Comparator.Above (.minor a b) v := by
  rw [package_cmp_neg]
  show v.major < a ∨ v.major = a ∧ (v.minor < b ∨ v.minor = b ∧ false = true ∧ v.patch < 0) ↔
    v.major < a ∨ v.major = a ∧ v.minor < b
  simp

theorem cmp_ofMinor_pos {v : Version} {a b : ℕ} :
    0 < v.package.cmp (ofMinor a b) ↔ Comparator.Below (.minor a b) v := by
  rw [package_cmp_pos]
  show a < v.major ∨ a = v.major ∧ (b < v.minor ∨ b = v.minor ∧ false = true ∧ 0 < v.patch) ↔
    a < v.major ∨ a = v.major ∧ b < v.minor
  simp

theorem cmp_ofPatch_neg {v : Version} {a b c : ℕ} :
    v.package.cmp (ofPatch a b c) < 0 ↔ Comparator.Above (.patch a b c) v := by
  rw [package_cmp_neg]
  show v.major < a ∨ v.major = a ∧ (v.minor < b ∨ v.minor = b ∧ true = true ∧ v.patch < c) ↔
    v.major < a ∨ v.major = a ∧ (v.minor < b ∨ v.minor = b ∧ v.patch < c)
  simp

theorem cmp_ofPatch_pos {v : Version} {a b c : ℕ} :
    0 < v.package.cmp (ofPatch a b c) ↔ Comparator.Below (.patch a b c) v := by
  rw [package_cmp_pos]
  show a < v.major ∨ a = v.major ∧ (b < v.minor ∨ b = v.minor ∧ true = true ∧ c < v.patch) ↔
    a < v.major ∨ a = v.major ∧ (b < v.minor ∨ b = v.minor ∧ c < v.patch)
  simp

theorem ofMajor_eq (a : ℕ) : ofMajor a = ofMinor a 0 := rfl

end PackageVersion

namespace Comparator

variable {v : Version} {a b c : ℕ}

theorem package_eq (v : Version) : v.package = ⟨v.major, v.minor, v.patch, true⟩ := rfl

theorem unsignedSucc_cases {n : ℕ} (h : n < 2 ^ 32) :
    n = last ∧ unsignedSucc n = 0 ∨ n ≠ last ∧ unsignedSucc n = n + 1 := by
  have hsucc : unsignedSucc n = (n + 1) % 2 ^ 32 := rfl
  have hlast : last = 2 ^ 32 - 1 := rfl
  omega

theorem leading_eq (written : List ℕ) :
    leading written = written.take ((written.takeWhile (· = 0)).length + 1) := rfl

theorem completes_leading_major : Completes (leading [a]) v ↔ v.major = a := by
  rw [leading_eq, List.take_of_length_le (by simp), completes_major]

theorem completes_leading_minor : Completes (leading [a, b]) v ↔ v.major = a ∧ (a = 0 → v.minor = b) := by
  rw [leading_eq]
  by_cases h : a = 0
  · simp [h, completes_minor]
  · simp [h, completes_major]

theorem completes_leading_patch :
    Completes (leading [a, b, c]) v ↔ v.major = a ∧ (a = 0 → v.minor = b ∧ (b = 0 → v.patch = c)) := by
  rw [leading_eq]
  by_cases h : a = 0
  · by_cases h' : b = 0
    · simp [h, h', List.take_of_length_le, completes_patch, Version.ext_iff]
    · simp [h, h', completes_minor]
  · simp [h, completes_major]

theorem cmp_eq_zero_iff {v x : PackageVersion} : v.cmp x = 0 ↔ ¬ v.cmp x < 0 ∧ ¬ 0 < v.cmp x := by
  omega

section Bound

variable (x y : PackageVersion)

theorem accepts_greaterEqual : (Bound.mk .greaterEqual x).accepts y = decide (0 ≤ y.cmp x) := rfl

theorem accepts_greater : (Bound.mk .greater x).accepts y = decide (0 < y.cmp x) := rfl

theorem accepts_equal : (Bound.mk .equal x).accepts y = decide (y.cmp x = 0) := rfl

theorem accepts_lessEqual : (Bound.mk .lessEqual x).accepts y = decide (y.cmp x ≤ 0) := rfl

theorem accepts_less : (Bound.mk .less x).accepts y = decide (y.cmp x < 0) := rfl

end Bound

theorem accepts_any (v : Version) : PackageVersionSpec.accepts (bounds .any) v.package = true := by
  delta bounds PackageVersionSpec.accepts
  simp only [accepts_greaterEqual, List.all_cons, List.all_nil, Bool.and_true,
    decide_eq_true_eq, ← not_lt, PackageVersion.ofMajor_eq, PackageVersion.cmp_ofMinor_neg, above_minor]
  omega

theorem accepts_wildcard (ty : BoundType) (a : ℕ) (v : Version) :
    PackageVersionSpec.accepts (bounds (.wildcard ty a)) v.package = true ↔
      ¬ Above (.minor a 0) v ∧ Above (.minor (unsignedSucc a) 0) v := by
  delta bounds PackageVersionSpec.accepts
  simp only [accepts_greaterEqual, accepts_less, List.all_cons, List.all_nil, Bool.and_true,
    Bool.and_eq_true, decide_eq_true_eq, ← not_lt, PackageVersion.ofMajor_eq, PackageVersion.cmp_ofMinor_neg]

theorem accepts_singleton (b : Bound) (v : PackageVersion) : PackageVersionSpec.accepts [b] v = b.accepts v := by
  simp [PackageVersionSpec.accepts]

theorem cmp_prevCompat_ofMinor :
    ¬ v.package.cmp (PackageVersion.ofMinor a b).prevCompat < 0 ↔
      a = 0 ∧ ¬ Above (.minor a b) v ∨ a ≠ 0 ∧ ¬ Above (.patch a b 0) v := by
  have hprev : (PackageVersion.ofMinor a b).prevCompat = if a = 0 then .ofMinor a b else .ofPatch a b 0 := rfl
  rw [hprev]
  by_cases h : a = 0
  · rw [if_pos h, PackageVersion.cmp_ofMinor_neg]
    simp [h]
  · rw [if_neg h, PackageVersion.cmp_ofPatch_neg]
    simp [h]

theorem cmp_prevCompat_ofPatch :
    ¬ v.package.cmp (PackageVersion.ofPatch a b c).prevCompat < 0 ↔
      a = 0 ∧ ¬ Above (.patch a b c) v ∨ a ≠ 0 ∧ ¬ Above (.patch a b 0) v := by
  have hprev : (PackageVersion.ofPatch a b c).prevCompat = if a = 0 then .ofPatch a b c else .ofPatch a b 0 := rfl
  rw [hprev]
  by_cases h : a = 0
  · rw [if_pos h, PackageVersion.cmp_ofPatch_neg]
    simp [h]
  · rw [if_neg h, PackageVersion.cmp_ofPatch_neg]
    simp [h]

theorem cmp_nextBreaking {x : PackageVersion} (a b : ℕ) (ha : x.major = a) (hb : x.minor = b) :
    v.package.cmp x.nextBreaking < 0 ↔
      a = 0 ∧ Above (.minor 0 (unsignedSucc b)) v ∨ a ≠ 0 ∧ Above (.minor (unsignedSucc a) 0) v := by
  rw [PackageVersion.nextBreaking, ha, hb]
  by_cases h : a = 0
  · rw [if_pos h, PackageVersion.cmp_ofMinor_neg]
    simp [h]
  · rw [if_neg h, PackageVersion.cmp_ofMinor_neg]
    simp [h]

theorem accepts_compatible {x : PackageVersion} :
    (Bound.mk .compatible x).accepts v.package = true ↔
      ¬ v.package.cmp x.prevCompat < 0 ∧ v.package.cmp x.nextBreaking < 0 := by
  delta Bound.accepts
  simp only [Bool.and_eq_true, decide_eq_true_eq, not_lt]

theorem accepts_minorCompatible {x : PackageVersion} (a b : ℕ) (ha : x.major = a) (hb : x.minor = b) :
    (Bound.mk .minorCompatible x).accepts v.package = true ↔
      ¬ v.package.cmp x.prevCompat < 0 ∧ Above (.minor a (unsignedSucc b)) v := by
  subst ha hb
  delta Bound.accepts
  simp only [Bool.and_eq_true, decide_eq_true_eq, not_lt]
  exact and_congr_right' PackageVersion.cmp_ofMinor_neg

/-! ## The verdict on one comparator -/

theorem accepts_bounds_wildcard (ty : BoundType) (ha : a < 2 ^ 32) (hv : v.Fits) :
    PackageVersionSpec.accepts (bounds (.wildcard ty a)) v.package = true ↔
      Sat (.wildcard ty a) v ∧ ¬ WronglyRejects (.wildcard ty a) v ∨ WronglyAccepts (.wildcard ty a) v := by
  have hlast : last = 2 ^ 32 - 1 := rfl
  have hsucc := unsignedSucc_cases ha
  have hmaj := hv.major
  rw [accepts_wildcard]
  show _ ↔ Satisfies ty (Parts.major a).list v ∧ _ ∨ _
  delta WronglyRejects WronglyAccepts
  cases ty <;>
    simp only [satisfies_compatible, satisfies_minorCompatible, satisfies_equal, satisfies_greater,
      satisfies_greaterEqual, satisfies_less, satisfies_lessEqual] <;>
    simp only [list_major, completes_leading_major, List.take, completes_major, above_major, above_minor,
      below_major, or_false] <;>
    omega

theorem accepts_bounds_major (ty : BoundType) (ha : a < 2 ^ 32) (hv : v.Fits) :
    PackageVersionSpec.accepts (bounds (.given ty (.major a))) v.package = true ↔
      Sat (.given ty (.major a)) v ∧ ¬ WronglyRejects (.given ty (.major a)) v ∨
        WronglyAccepts (.given ty (.major a)) v := by
  have hlast : last = 2 ^ 32 - 1 := rfl
  have hsucc := unsignedSucc_cases ha
  have hsucc' : unsignedSucc 0 = 1 := rfl
  have hmaj := hv.major
  have hnext := cmp_nextBreaking (v := v) (x := .ofMinor a 0) a 0 rfl rfl
  show PackageVersionSpec.accepts [⟨if ty = .minorCompatible then .compatible else ty, .ofMajor a⟩]
    v.package = true ↔ Satisfies ty (Parts.major a).list v ∧ _ ∨ _
  rw [accepts_singleton, PackageVersion.ofMajor_eq]
  delta WronglyRejects WronglyAccepts
  cases ty <;>
    simp only [satisfies_compatible, satisfies_minorCompatible, satisfies_equal, satisfies_greater,
      satisfies_greaterEqual, satisfies_less, satisfies_lessEqual, reduceCtorEq, if_false, if_true, accepts_compatible,
      cmp_prevCompat_ofMinor, hnext] <;>
    simp only [accepts_greaterEqual, accepts_greater, accepts_equal, accepts_lessEqual, accepts_less,
      decide_eq_true_eq, ← not_lt, cmp_eq_zero_iff, PackageVersion.cmp_ofMinor_neg,
      PackageVersion.cmp_ofMinor_pos, list_major, completes_leading_major, List.take, completes_major, above_major,
      above_minor, above_patch, below_major, below_minor, or_false, not_false_eq_true, and_true] <;>
    omega

theorem accepts_bounds_minor (ty : BoundType) (ha : a < 2 ^ 32) (hb : b < 2 ^ 32) (hv : v.Fits) :
    PackageVersionSpec.accepts (bounds (.given ty (.minor a b))) v.package = true ↔
      Sat (.given ty (.minor a b)) v ∧ ¬ WronglyRejects (.given ty (.minor a b)) v ∨
        WronglyAccepts (.given ty (.minor a b)) v := by
  have hlast : last = 2 ^ 32 - 1 := rfl
  have hsucc := unsignedSucc_cases ha
  have hsucc' := unsignedSucc_cases hb
  have hmaj := hv.major
  have hmin := hv.minor
  have hnext := cmp_nextBreaking (v := v) (x := .ofMinor a b) a b rfl rfl
  have hminor := accepts_minorCompatible (v := v) (x := .ofMinor a b) a b rfl rfl
  show PackageVersionSpec.accepts [⟨ty, .ofMinor a b⟩] v.package = true ↔
    Satisfies ty (Parts.minor a b).list v ∧ _ ∨ _
  rw [accepts_singleton]
  delta WronglyRejects WronglyAccepts
  cases ty with
  | compatible =>
    rw [satisfies_compatible, accepts_compatible, cmp_prevCompat_ofMinor, hnext]
    simp only [list_minor, completes_leading_minor, above_minor, above_patch, or_false]
    by_cases h0 : a = 0
    · simp only [h0, true_and, ne_eq, not_true, false_and, or_false, forall_const]
      rcases hsucc' with ⟨hl, hs⟩ | ⟨hl, hs⟩ <;> rw [hs] <;> omega
    · simp only [h0, false_and, ne_eq, not_false_eq_true, true_and, false_or, false_implies, and_true]
      rcases hsucc with ⟨hl, hs⟩ | ⟨hl, hs⟩ <;> rw [hs] <;> omega
  | minorCompatible =>
    rw [satisfies_minorCompatible, hminor, cmp_prevCompat_ofMinor]
    simp only [list_minor, List.take, completes_minor, above_minor, above_patch, or_false]
    by_cases h0 : a = 0
    · simp only [h0, true_and, ne_eq, not_true, false_and, or_false]
      rcases hsucc' with ⟨hl, hs⟩ | ⟨hl, hs⟩ <;> rw [hs] <;> omega
    · simp only [h0, false_and, ne_eq, not_false_eq_true, true_and, false_or]
      rcases hsucc' with ⟨hl, hs⟩ | ⟨hl, hs⟩ <;> rw [hs] <;> omega
  | _ =>
    simp only [satisfies_equal, satisfies_greater, satisfies_greaterEqual, satisfies_less, satisfies_lessEqual]
    simp only [accepts_greaterEqual, accepts_greater, accepts_equal, accepts_lessEqual, accepts_less,
      decide_eq_true_eq, ← not_lt, cmp_eq_zero_iff, PackageVersion.cmp_ofMinor_neg,
      PackageVersion.cmp_ofMinor_pos, list_minor, completes_minor, above_minor, below_minor,
      or_false, not_false_eq_true, and_true] <;>
    omega

theorem accepts_bounds_patch (ty : BoundType) (ha : a < 2 ^ 32) (hb : b < 2 ^ 32) (hv : v.Fits) :
    PackageVersionSpec.accepts (bounds (.given ty (.patch a b c))) v.package = true ↔
      Sat (.given ty (.patch a b c)) v ∧ ¬ WronglyRejects (.given ty (.patch a b c)) v ∨
        WronglyAccepts (.given ty (.patch a b c)) v := by
  have hlast : last = 2 ^ 32 - 1 := rfl
  have hsucc := unsignedSucc_cases ha
  have hsucc' := unsignedSucc_cases hb
  have hmaj := hv.major
  have hmin := hv.minor
  have hnext := cmp_nextBreaking (v := v) (x := .ofPatch a b c) a b rfl rfl
  have hminor := accepts_minorCompatible (v := v) (x := .ofPatch a b c) a b rfl rfl
  show PackageVersionSpec.accepts [⟨ty, .ofPatch a b c⟩] v.package = true ↔
    Satisfies ty (Parts.patch a b c).list v ∧ _ ∨ _
  rw [accepts_singleton]
  delta WronglyRejects WronglyAccepts
  cases ty with
  | compatible =>
    rw [satisfies_compatible, accepts_compatible, cmp_prevCompat_ofPatch, hnext]
    simp only [list_patch, completes_leading_patch, above_minor, above_patch]
    by_cases h0 : a = 0
    · simp only [h0, true_and, ne_eq, not_true, false_and, or_false, forall_const]
      rcases hsucc' with ⟨hl, hs⟩ | ⟨hl, hs⟩ <;> rw [hs] <;> omega
    · simp only [h0, false_and, ne_eq, not_false_eq_true, true_and, false_or, false_implies, and_true, or_false]
      rcases hsucc with ⟨hl, hs⟩ | ⟨hl, hs⟩ <;> rw [hs] <;> omega
  | minorCompatible =>
    rw [satisfies_minorCompatible, hminor, cmp_prevCompat_ofPatch]
    simp only [list_patch, List.take, completes_minor, above_minor, above_patch]
    by_cases h0 : a = 0
    · simp only [h0, true_and, ne_eq, not_true, false_and, or_false]
      rcases hsucc' with ⟨hl, hs⟩ | ⟨hl, hs⟩ <;> rw [hs] <;> omega
    · simp only [h0, false_and, ne_eq, not_false_eq_true, true_and, false_or]
      rcases hsucc' with ⟨hl, hs⟩ | ⟨hl, hs⟩ <;> rw [hs] <;> omega
  | _ =>
    simp only [satisfies_equal, satisfies_greater, satisfies_greaterEqual, satisfies_less, satisfies_lessEqual]
    simp only [accepts_greaterEqual, accepts_greater, accepts_equal, accepts_lessEqual, accepts_less,
      decide_eq_true_eq, ← not_lt, cmp_eq_zero_iff, PackageVersion.cmp_ofPatch_neg,
      PackageVersion.cmp_ofPatch_pos, list_patch, completes_patch, Version.ext_iff,
      above_patch, below_patch, or_false, not_false_eq_true, and_true] <;>
    omega

/-- The bounds accept what the comparator accepts, apart from what they accept or reject wrongly. -/
theorem accepts_bounds_iff (k : Comparator) (v : Version) (hk : k.Fits) (hv : v.Fits) :
    PackageVersionSpec.accepts k.bounds v.package = true ↔
      k.Sat v ∧ ¬ k.WronglyRejects v ∨ k.WronglyAccepts v := by
  rcases k with _ | ⟨ty, a⟩ | ⟨ty, a | ⟨a, b⟩ | ⟨a, b, c⟩⟩
  · exact ⟨fun _ => .inl ⟨trivial, id⟩, fun _ => accepts_any v⟩
  · exact accepts_bounds_wildcard ty (hk a (by simp [numbers])) hv
  · exact accepts_bounds_major ty (hk a (by simp [numbers, Parts.list])) hv
  · exact accepts_bounds_minor ty (hk a (by simp [numbers, Parts.list])) (hk b (by simp [numbers, Parts.list])) hv
  · exact accepts_bounds_patch ty (hk a (by simp [numbers, Parts.list])) (hk b (by simp [numbers, Parts.list])) hv

/-- What is rejected wrongly satisfies the comparator. -/
theorem sat_of_wronglyRejects {k : Comparator} (h : k.WronglyRejects v) : k.Sat v := by
  have hlast : last = 2 ^ 32 - 1 := rfl
  delta WronglyRejects at h
  rcases k with _ | ⟨ty, a⟩ | ⟨ty, a | ⟨a, b⟩ | ⟨a, b, c⟩⟩
  · trivial
  all_goals
    show Satisfies ty _ v
    try rw [show [a] = (Parts.major a).list from rfl]
    cases ty <;>
      simp only [satisfies_compatible, satisfies_minorCompatible, satisfies_equal, satisfies_greater,
        satisfies_greaterEqual, satisfies_less, satisfies_lessEqual] <;>
      simp only [list_major, list_minor, list_patch, completes_leading_major, completes_leading_minor,
        completes_leading_patch, List.take, completes_major, completes_minor, above_major, above_minor, above_patch,
        below_major] at h ⊢ <;>
      omega

/-- What is accepted wrongly does not. -/
theorem not_sat_of_wronglyAccepts {k : Comparator} (h : k.WronglyAccepts v) : ¬ k.Sat v := by
  delta WronglyAccepts at h
  rcases k with _ | ⟨ty, a⟩ | ⟨ty, a | ⟨a, b⟩ | ⟨a, b, c⟩⟩
  · cases h
  all_goals
    show ¬ Satisfies ty _ v
    try rw [show [a] = (Parts.major a).list from rfl]
    cases ty <;>
      simp only [satisfies_compatible, satisfies_minorCompatible, satisfies_equal, satisfies_greater,
        satisfies_greaterEqual, satisfies_less, satisfies_lessEqual] <;>
      simp only [list_patch, completes_leading_patch, List.take, completes_minor, above_major,
        above_patch, below_major] at h ⊢ <;>
      omega

end Comparator

end Mrustc.Minicargo
