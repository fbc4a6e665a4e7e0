import Mathlib.Data.List.TakeWhile
import Mrustc.Minicargo.Comparators

/-! # The grammar of version requirements

The comparators of a requirement are separated by commas. The parser reads more than
that: numbers as `strtol` reads them, a blank text, a comma or one other character at the end.
-/

namespace Mrustc.Minicargo.PackageVersionSpec

def Blanks (s : List Char) : Prop := ∀ c ∈ s, isblank c = true

/-- The text does not begin with such a character. -/
def NoHead (p : Char → Bool) (s : List Char) : Prop := ∀ c, s.head? = some c → p c = false

/-- Decimal digits of a number, followed by a rest. -/
def Decimal (s : List Char) (n : ℕ) (rest : List Char) : Prop :=
  ∃ ds, s = ds ++ rest ∧ ds ≠ [] ∧ (∀ d ∈ ds, d.isDigit = true) ∧ NoHead Char.isDigit rest ∧ n = digitsValue ds

/-- A number as `strtol` reads it. -/
def Strtol (s : List Char) (n : ℕ) (rest : List Char) : Prop :=
  ∃ white sign t m, s = white ++ (sign ++ t) ∧ (∀ c ∈ white, isspace c = true) ∧
    (sign = [] ∨ sign = ['+'] ∨ sign = ['-']) ∧ Decimal t m rest ∧
    n = unsignedOfLong (if sign = ['-'] then -m else m)

def opTexts : List (BoundType × List Char) :=
  [(.compatible, ['^']), (.minorCompatible, ['~']), (.equal, ['=']), (.greaterEqual, ['>', '=']),
    (.greater, ['>']), (.lessEqual, ['<', '=']), (.less, ['<'])]

/-- An operator and blanks, or nothing. -/
def OpText (ty : BoundType) (o : List Char) : Prop :=
  ty = .compatible ∧ o = [] ∨ ∃ op b, (ty, op) ∈ opTexts ∧ Blanks b ∧ o = op ++ b

def isTag (c : Char) : Bool := !isblank c && c != ','

/-- The version of a comparator, followed by a rest. -/
inductive ReadsVersion (Num : List Char → ℕ → List Char → Prop) (ty : BoundType) :
    List Char → Comparator → List Char → Prop
  | wildcard {s rest : List Char} {a : ℕ} (ha : Num s a ('.' :: '*' :: rest)) :
      ReadsVersion Num ty s (.wildcard ty a) rest
  | major {s rest : List Char} {a : ℕ} (ha : Num s a rest) (hrest : NoHead (· == '.') rest) :
      ReadsVersion Num ty s (.given ty (.major a)) rest
  | minor {s t rest : List Char} {a b : ℕ} (ha : Num s a ('.' :: t)) (hb : Num t b rest)
      (hrest : NoHead (· == '.') rest) : ReadsVersion Num ty s (.given ty (.minor a b)) rest
  | patch {s t u rest : List Char} {a b c : ℕ} (ha : Num s a ('.' :: t)) (hb : Num t b ('.' :: u))
      (hc : Num u c rest) (hrest : NoHead (· == '-') rest) : ReadsVersion Num ty s (.given ty (.patch a b c)) rest
  | tagged {s t u tag rest : List Char} {a b c : ℕ} (ha : Num s a ('.' :: t)) (hb : Num t b ('.' :: u))
      (hc : Num u c ('-' :: (tag ++ rest))) (htag : ∀ d ∈ tag, isTag d = true) (hrest : NoHead isTag rest) :
      ReadsVersion Num ty s (.given ty (.patch a b c)) rest

/-- An operator and a version, followed by a rest. -/
inductive Written (Num : List Char → ℕ → List Char → Prop) : List Char → Comparator → List Char → Prop
  | intro {ty : BoundType} {o s rest : List Char} {k : Comparator} (ho : OpText ty o) (hs : NoHead isblank s)
      (h : ReadsVersion Num ty s k rest) : Written Num (o ++ s) k rest

/-- A comparator, followed by a rest. -/
inductive Reads (Num : List Char → ℕ → List Char → Prop) : List Char → Comparator → List Char → Prop
  | any (rest : List Char) : Reads Num ('*' :: rest) .any rest
  | written {s rest : List Char} {k : Comparator} (h : Written Num s k rest) : Reads Num s k rest

/-- A text of comparators. -/
inductive Requirement : List Char → List Comparator → Prop
  | last {b s rest : List Char} {k : Comparator} (hb : Blanks b) (hk : Reads Decimal s k rest) (hrest : Blanks rest) :
      Requirement (b ++ s) [k]
  | more {b b' s t : List Char} {k : Comparator} {ks : List Comparator} (hb : Blanks b)
      (hk : Reads Decimal s k (b' ++ ',' :: t)) (hb' : Blanks b') (ht : Requirement t ks) :
      Requirement (b ++ s) (k :: ks)

/-- Blanks, and at most one character more, which is no comma. -/
def Tail (rest : List Char) : Prop := ∃ b x, Blanks b ∧ rest = b ++ x ∧ x.length ≤ 1 ∧ ∀ c ∈ x, isTag c = true

/-- The texts that the parser accepts, and the bounds it reads. -/
inductive Loose : List Char → List Bound → Prop
  | blank {b : List Char} (hb : Blanks b) : Loose b []
  | star {b : List Char} (hb : Blanks b) : Loose (b ++ ['*']) (Comparator.bounds .any)
  | last {b s rest : List Char} {k : Comparator} (hb : Blanks b) (hk : Written Strtol s k rest) (hrest : Tail rest) :
      Loose (b ++ s) k.bounds
  | more {b b' s t : List Char} {k : Comparator} {bs : List Bound} (hb : Blanks b)
      (hk : Written Strtol s k (b' ++ ',' :: t)) (hb' : Blanks b') (ht : Loose t bs) : Loose (b ++ s) (k.bounds ++ bs)

/-! ## Numbers -/

theorem isspace_of_isblank {c : Char} (h : isblank c = true) : isspace c = true := by
  rw [isspace, h]
  rfl

theorem not_isspace_of_isDigit {c : Char} (h : c.isDigit = true) : isspace c = false := by
  by_contra hs
  simp only [isspace, isblank, Bool.not_eq_false, Bool.or_eq_true, decide_eq_true_eq] at hs
  rcases hs with ((((hs | hs) | hs) | hs) | hs) | hs <;> · rw [hs] at h; exact absurd h (by decide)

theorem takeWhile_append_noHead {p : Char → Bool} {s rest : List Char} (hs : ∀ c ∈ s, p c = true)
    (hrest : NoHead p rest) : (s ++ rest).takeWhile p = s ∧ (s ++ rest).dropWhile p = rest := by
  rw [List.takeWhile_append_of_pos hs, List.dropWhile_append_of_pos hs]
  rcases rest with _ | ⟨c, rest⟩
  · simp
  · have hc : p c = false := hrest c rfl
    simp [hc]

theorem noHead_dropWhile (p : Char → Bool) (s : List Char) : NoHead p (s.dropWhile p) := by
  intro c hc
  have := List.head?_dropWhile_not p s
  rw [hc] at this
  simpa using this

theorem Decimal.head {s rest : List Char} {n : ℕ} (h : Decimal s n rest) :
    ∃ d t, s = d :: t ∧ d.isDigit = true := by
  rcases h with ⟨ds, rfl, hne, hds, -⟩
  rcases ds with _ | ⟨d, ds⟩
  · exact absurd rfl hne
  · exact ⟨d, ds ++ rest, rfl, hds d List.mem_cons_self⟩

theorem decimal_iff {s rest : List Char} {n : ℕ} : Decimal s n rest ↔
    s.takeWhile Char.isDigit ≠ [] ∧ n = digitsValue (s.takeWhile Char.isDigit) ∧ rest = s.dropWhile Char.isDigit := by
  constructor
  · rintro ⟨ds, rfl, hne, hds, hrest, rfl⟩
    rcases takeWhile_append_noHead hds hrest with ⟨htake, hdrop⟩
    rw [htake, hdrop]
    exact ⟨hne, rfl, rfl⟩
  · rintro ⟨hne, rfl, rfl⟩
    exact ⟨_, (List.takeWhile_append_dropWhile).symm, hne, fun d hd => List.mem_takeWhile_imp hd,
      noHead_dropWhile _ _, rfl⟩

/-- What `parseI` does behind the sign. -/
def parseDigits (negative : Bool) (s : List Char) : Except Error (ℕ × List Char) :=
  if s.takeWhile Char.isDigit = [] then .error .invalidArgument
  else .ok (unsignedOfLong (if negative then -digitsValue (s.takeWhile Char.isDigit)
    else digitsValue (s.takeWhile Char.isDigit)), s.dropWhile Char.isDigit)

theorem parseI_signed {white sign t : List Char} (hwhite : ∀ c ∈ white, isspace c = true)
    (hsign : sign = ['+'] ∨ sign = ['-'] ∨ sign = [] ∧ NoHead isspace t ∧ NoHead (fun c => c == '-' || c == '+') t) :
    parseI (white ++ (sign ++ t)) = parseDigits (decide (sign = ['-'])) t := by
  have hhead : NoHead isspace (sign ++ t) := by
    rcases hsign with rfl | rfl | ⟨rfl, ht, -⟩
    · intro c hc
      obtain rfl := Option.some.inj hc
      rfl
    · intro c hc
      obtain rfl := Option.some.inj hc
      rfl
    · exact ht
  rw [parseI, (takeWhile_append_noHead hwhite hhead).2]
  rcases hsign with rfl | rfl | ⟨rfl, -, ht⟩
  · rfl
  · rfl
  · have hminus : t.head? ≠ some '-' := fun h => by simpa using ht '-' h
    have hplus : t.head? ≠ some '+' := fun h => by simpa using ht '+' h
    simp only [List.nil_append, hminus, hplus, or_self, if_false]
    rfl

theorem parseDigits_eq_ok {negative : Bool} {s rest : List Char} {n : ℕ} :
    parseDigits negative s = .ok (n, rest) ↔
      ∃ m, Decimal s m rest ∧ n = unsignedOfLong (if negative then -m else m) := by
  rw [parseDigits]
  split
  · next h =>
    apply iff_of_false (by simp)
    rintro ⟨m, hm, -⟩
    exact (decimal_iff.mp hm).1 h
  · next h =>
    rw [Except.ok.injEq, Prod.mk.injEq]
    constructor
    · rintro ⟨rfl, rfl⟩
      exact ⟨_, decimal_iff.mpr ⟨h, rfl, rfl⟩, rfl⟩
    · rintro ⟨m, hm, rfl⟩
      rcases decimal_iff.mp hm with ⟨-, rfl, rfl⟩
      exact ⟨rfl, rfl⟩

theorem parseI_eq_ok {s rest : List Char} {n : ℕ} : parseI s = .ok (n, rest) ↔ Strtol s n rest := by
  constructor
  · intro h
    have hs : s = s.takeWhile isspace ++ s.dropWhile isspace := List.takeWhile_append_dropWhile.symm
    have hwhite : ∀ c ∈ s.takeWhile isspace, isspace c = true := fun c hc => List.mem_takeWhile_imp hc
    have hhead := noHead_dropWhile isspace s
    generalize s.takeWhile isspace = white at hs hwhite
    generalize s.dropWhile isspace = t at hs hhead
    subst hs
    have hcases : ∃ sign u, t = sign ++ u ∧ (sign = ['+'] ∨ sign = ['-'] ∨
        sign = [] ∧ NoHead isspace u ∧ NoHead (fun c => c == '-' || c == '+') u) := by
      rcases t with _ | ⟨c, t⟩
      · exact ⟨[], [], rfl, .inr (.inr ⟨rfl, hhead, by simp [NoHead]⟩)⟩
      · by_cases hplus : c = '+'
        · exact ⟨['+'], t, by rw [hplus]; rfl, .inl rfl⟩
        · by_cases hminus : c = '-'
          · exact ⟨['-'], t, by rw [hminus]; rfl, .inr (.inl rfl)⟩
          · exact ⟨[], c :: t, rfl, .inr (.inr ⟨rfl, hhead, by simp [NoHead, hplus, hminus]⟩)⟩
    rcases hcases with ⟨sign, u, rfl, hsign⟩
    rw [parseI_signed hwhite hsign, parseDigits_eq_ok] at h
    rcases h with ⟨m, hm, rfl⟩
    have hsign' : sign = [] ∨ sign = ['+'] ∨ sign = ['-'] := by
      rcases hsign with h | h | ⟨h, -⟩
      · exact .inr (.inl h)
      · exact .inr (.inr h)
      · exact .inl h
    exact ⟨white, sign, u, m, rfl, hwhite, hsign', hm, by simp only [decide_eq_true_eq]⟩
  · rintro ⟨white, sign, t, m, rfl, hwhite, hsign, ht, rfl⟩
    have hsign' : sign = ['+'] ∨ sign = ['-'] ∨
        sign = [] ∧ NoHead isspace t ∧ NoHead (fun c => c == '-' || c == '+') t := by
      rcases ht.head with ⟨d, t', rfl, hd⟩
      rcases hsign with h | h | h
      · right
        right
        apply And.intro h
        constructor
        · intro c hc
          obtain rfl := Option.some.inj hc
          exact not_isspace_of_isDigit hd
        · intro c hc
          obtain rfl := Option.some.inj hc
          by_contra hsign
          simp only [Bool.not_eq_false, Bool.or_eq_true, beq_iff_eq] at hsign
          rcases hsign with hsign | hsign <;> · rw [hsign] at hd; exact absurd hd (by decide)
      · exact .inl h
      · exact .inr (.inl h)
    rw [parseI_signed hwhite hsign', parseDigits_eq_ok]
    exact ⟨m, ht, by simp only [decide_eq_true_eq]⟩

theorem Strtol.of_decimal {s rest : List Char} {n : ℕ} (h : Decimal s n rest) :
    Strtol s (unsignedOfLong n) rest :=
  ⟨[], [], s, n, rfl, by simp, .inl rfl, h, by simp⟩

/-! ## Versions and operators -/

/-- A character that cannot begin a number. -/
def isOp (c : Char) : Bool := c ∈ ['*', '^', '~', '=', '>', '<']

theorem Strtol.head {s rest : List Char} {n : ℕ} (h : Strtol s n rest) :
    ∃ c t, s = c :: t ∧ isOp c = false ∧ rest.length ≤ t.length := by
  rcases h with ⟨white, sign, t, m, rfl, hwhite, hsign, ht, -⟩
  have hlen : rest.length < t.length := by
    rcases ht with ⟨ds, rfl, hne, -⟩
    have := List.length_pos_of_ne_nil hne
    rw [List.length_append]
    omega
  have hspace {c : Char} (hc : isspace c = true) : isOp c = false := by
    simp only [isspace, isblank, Bool.or_eq_true, decide_eq_true_eq] at hc
    rcases hc with ((((hc | hc) | hc) | hc) | hc) | hc <;> · rw [hc]; decide
  have hdigit {c : Char} (hc : c.isDigit = true) : isOp c = false := by
    by_contra hop
    simp only [isOp, Bool.not_eq_false, decide_eq_true_eq, List.mem_cons, List.not_mem_nil, or_false] at hop
    rcases hop with hop | hop | hop | hop | hop | hop <;> · rw [hop] at hc; exact absurd hc (by decide)
  rcases white with _ | ⟨c, white⟩
  · rcases hsign with rfl | rfl | rfl
    · rcases ht.head with ⟨d, t', rfl, hd⟩
      exact ⟨d, t', rfl, hdigit hd, Nat.le_of_lt_succ hlen⟩
    · exact ⟨'+', t, rfl, by decide, hlen.le⟩
    · exact ⟨'-', t, rfl, by decide, hlen.le⟩
  · apply Exists.intro c
    apply Exists.intro (white ++ (sign ++ t))
    apply And.intro rfl
    apply And.intro (hspace (hwhite c List.mem_cons_self))
    simp only [List.length_append]
    omega

theorem skipTag_of_noHead {rest : List Char} (h : NoHead (· == '-') rest) : skipTag rest = rest := by
  rw [skipTag, if_neg]
  exact fun hhead => by simpa using h '-' hhead

theorem skipTag_tag {tag rest : List Char} (htag : ∀ d ∈ tag, isTag d = true) (hrest : NoHead isTag rest) :
    skipTag ('-' :: (tag ++ rest)) = rest := by
  rw [skipTag, if_pos List.head?_cons]
  exact (takeWhile_append_noHead htag hrest).2

theorem readVersion_of_reads {ty : BoundType} {s rest : List Char} {k : Comparator}
    (h : ReadsVersion Strtol ty s k rest) : readVersion ty s = .ok (k.bounds, rest) := by
  have hdot {rest : List Char} (h : NoHead (· == '.') rest) : rest.head? ≠ some '.' :=
    fun hhead => by simpa using h '.' hhead
  have hstar {t u : List Char} {n : ℕ} (ht : Strtol t n u) : t.head? ≠ some '*' := by
    rcases ht.head with ⟨c, t, rfl, hc, -⟩
    rintro hhead
    obtain rfl := Option.some.inj hhead
    exact absurd hc (by decide)
  cases h with
  | wildcard ha =>
    rw [readVersion, parseI_eq_ok.mpr ha]
    rfl
  | major ha hrest =>
    rw [readVersion, parseI_eq_ok.mpr ha]
    simp only [bind, Except.bind, hdot hrest, if_false]
    rfl
  | minor ha hb hrest =>
    rw [readVersion, parseI_eq_ok.mpr ha]
    simp only [bind, Except.bind, List.head?_cons, if_true, List.tail_cons, hstar hb, if_false,
      parseI_eq_ok.mpr hb, hdot hrest]
    rfl
  | patch ha hb hc hrest =>
    rw [readVersion, parseI_eq_ok.mpr ha]
    simp only [bind, Except.bind, List.head?_cons, if_true, List.tail_cons, hstar hb, if_false,
      parseI_eq_ok.mpr hb, parseI_eq_ok.mpr hc, skipTag_of_noHead hrest]
    rfl
  | tagged ha hb hc htag hrest =>
    rw [readVersion, parseI_eq_ok.mpr ha]
    simp only [bind, Except.bind, List.head?_cons, if_true, List.tail_cons, hstar hb, if_false,
      parseI_eq_ok.mpr hb, parseI_eq_ok.mpr hc, skipTag_tag htag hrest]
    rfl

theorem noHead_of_ne {x : Char} {s : List Char} (h : s.head? ≠ some x) : NoHead (· == x) s := by
  intro c hc
  simp only [beq_eq_false_iff_ne]
  rintro rfl
  exact h hc

theorem cons_of_head {x : Char} {s : List Char} (h : s.head? = some x) : s = x :: s.tail :=
  List.eq_cons_of_mem_head? h

/-- What is read behind the patch number. -/
theorem readsVersion_patch {ty : BoundType} {s t u rest : List Char} {a b c : ℕ} (ha : Strtol s a ('.' :: t))
    (hb : Strtol t b ('.' :: u)) (hc : Strtol u c rest) :
    ReadsVersion Strtol ty s (.given ty (.patch a b c)) (skipTag rest) := by
  by_cases h : rest.head? = some '-'
  · have hrest := cons_of_head h
    rw [skipTag, if_pos h]
    have hcut : rest.tail = rest.tail.takeWhile isTag ++ rest.tail.dropWhile isTag :=
      List.takeWhile_append_dropWhile.symm
    rw [hrest, hcut] at hc
    exact .tagged ha hb hc (fun d hd => List.mem_takeWhile_imp hd) (noHead_dropWhile _ _)
  · rw [skipTag, if_neg h]
    exact .patch ha hb hc (noHead_of_ne h)

theorem reads_of_readVersion {ty : BoundType} {s rest : List Char} {bs : List Bound}
    (h : readVersion ty s = .ok (bs, rest)) : ∃ k, ReadsVersion Strtol ty s k rest ∧ bs = k.bounds := by
  rw [readVersion] at h
  cases hs : parseI s with
  | error e =>
    rw [hs] at h
    cases h
  | ok out =>
    rcases out with ⟨a, s₁⟩
    rw [hs] at h
    simp only [bind, Except.bind] at h
    have ha := parseI_eq_ok.mp hs
    by_cases hdot : s₁.head? = some '.'
    · rw [cons_of_head hdot] at ha h
      simp only [List.head?_cons, if_true, List.tail_cons] at h
      by_cases hstar : s₁.tail.head? = some '*'
      · rw [cons_of_head hstar] at ha h
        cases h
        exact ⟨_, .wildcard ha, rfl⟩
      · simp only [hstar, if_false] at h
        cases ht : parseI s₁.tail with
        | error e =>
          rw [ht] at h
          cases h
        | ok out =>
          rcases out with ⟨b, s₂⟩
          rw [ht] at h
          have hb := parseI_eq_ok.mp ht
          by_cases hdot' : s₂.head? = some '.'
          · rw [cons_of_head hdot'] at hb h
            simp only [List.head?_cons, if_true, List.tail_cons] at h
            cases hu : parseI s₂.tail with
            | error e =>
              rw [hu] at h
              cases h
            | ok out =>
              rcases out with ⟨c, s₃⟩
              rw [hu] at h
              cases h
              exact ⟨_, readsVersion_patch ha hb (parseI_eq_ok.mp hu), rfl⟩
          · simp only [hdot', if_false] at h
            cases h
            exact ⟨_, .minor ha hb (noHead_of_ne hdot'), rfl⟩
    · simp only [hdot, if_false] at h
      cases h
      exact ⟨_, .major ha (noHead_of_ne hdot), rfl⟩

/-! ## One comparator -/

theorem skipBlanks_append {b s : List Char} (hb : Blanks b) (hs : NoHead isblank s) : skipBlanks (b ++ s) = s :=
  (takeWhile_append_noHead hb hs).2

theorem blanks_skipBlanks (s : List Char) : ∃ b, Blanks b ∧ s = b ++ skipBlanks s ∧ NoHead isblank (skipBlanks s) :=
  ⟨s.takeWhile isblank, fun _ hc => List.mem_takeWhile_imp hc, List.takeWhile_append_dropWhile.symm,
    noHead_dropWhile _ _⟩

theorem readOp_none {s : List Char} (h : ∀ c, s.head? = some c → isOp c = false) : readOp s = (.compatible, s) := by
  rcases s with _ | ⟨c, s⟩
  · rfl
  · have hc := h c rfl
    simp only [isOp, decide_eq_false_iff_not, List.mem_cons, List.not_mem_nil, or_false, not_or] at hc
    simp [readOp, hc]

theorem readOp_opText {ty : BoundType} {o s : List Char} (ho : OpText ty o) (hs : NoHead isblank s)
    (hop : ∀ c, s.head? = some c → isOp c = false) :
    (readOp (o ++ s)).1 = ty ∧ skipBlanks (readOp (o ++ s)).2 = s ∧ (o ++ s).head? ≠ some '*' := by
  rcases ho with ⟨rfl, rfl⟩ | ⟨op, b, hmem, hb, rfl⟩
  · rw [List.nil_append, readOp_none hop]
    exact ⟨rfl, skipBlanks_append (b := []) (by simp [Blanks]) hs, fun h => absurd (hop _ h) (by decide)⟩
  · have heq : (b ++ s).head? ≠ some '=' := by
      rcases b with _ | ⟨c, b⟩
      · exact fun h => absurd (hop _ h) (by decide)
      · rintro h
        obtain rfl := Option.some.inj h
        exact absurd (hb _ List.mem_cons_self) (by decide)
    have hskip := skipBlanks_append hb hs
    simp only [opTexts, List.mem_cons, Prod.mk.injEq, List.not_mem_nil, or_false] at hmem
    rw [List.append_assoc]
    generalize b ++ s = r at heq hskip ⊢
    rcases hmem with ⟨rfl, rfl⟩ | ⟨rfl, rfl⟩ | ⟨rfl, rfl⟩ | ⟨rfl, rfl⟩ | ⟨rfl, rfl⟩ | ⟨rfl, rfl⟩ | ⟨rfl, rfl⟩ <;>
      simp [readOp, heq, hskip]

theorem opText_append (ty : BoundType) (op : List Char) (h : (ty, op) ∈ opTexts) (r : List Char) :
    ∃ o, OpText ty o ∧ op ++ r = o ++ skipBlanks r := by
  rcases blanks_skipBlanks r with ⟨b, hb, hr, -⟩
  apply Exists.intro (op ++ b)
  apply And.intro (.inr ⟨op, b, h, hb, rfl⟩)
  rw [List.append_assoc, ← hr]

theorem opText_readOp (s : List Char) (hs : NoHead isblank s) :
    ∃ o, OpText (readOp s).1 o ∧ s = o ++ skipBlanks (readOp s).2 := by
  have hnone (s : List Char) (hs : NoHead isblank s) : ∃ o, OpText .compatible o ∧ s = o ++ skipBlanks s :=
    ⟨[], .inl ⟨rfl, rfl⟩, (skipBlanks_append (b := []) (by simp [Blanks]) hs).symm⟩
  rcases s with _ | ⟨c, s⟩
  · exact hnone [] hs
  · rw [readOp]
    split_ifs with h₁ h₂ h₃ h₄ h₅ h₆ h₇
    · exact h₁ ▸ opText_append .compatible ['^'] (by decide) s
    · exact h₂ ▸ opText_append .minorCompatible ['~'] (by decide) s
    · exact h₃ ▸ opText_append .equal ['='] (by decide) s
    · rw [h₄, cons_of_head h₅]
      exact opText_append .greaterEqual ['>', '='] (by decide) s.tail
    · exact h₄ ▸ opText_append .greater ['>'] (by decide) s
    · rw [h₆, cons_of_head h₇]
      exact opText_append .lessEqual ['<', '='] (by decide) s.tail
    · exact h₆ ▸ opText_append .less ['<'] (by decide) s
    · exact hnone (c :: s) hs

theorem ReadsVersion.head {ty : BoundType} {s rest : List Char} {k : Comparator} (h : ReadsVersion Strtol ty s k rest) :
    ∃ c t, s = c :: t ∧ isOp c = false ∧ rest.length ≤ t.length := by
  cases h with
  | wildcard ha =>
    rcases ha.head with ⟨c, t, rfl, hc, hlen⟩
    exact ⟨c, t, rfl, hc, by simp at hlen; omega⟩
  | major ha => exact ha.head
  | minor ha hb =>
    rcases ha.head with ⟨c, t, rfl, hc, hlen⟩
    rcases hb.head with ⟨d, u, rfl, -, hlen'⟩
    exact ⟨c, t, rfl, hc, by simp at hlen; omega⟩
  | patch ha hb hc =>
    rcases ha.head with ⟨c, t, rfl, hc', hlen⟩
    rcases hb.head with ⟨d, u, rfl, -, hlen'⟩
    rcases hc.head with ⟨e, w, rfl, -, hlen''⟩
    exact ⟨c, t, rfl, hc', by simp at hlen hlen'; omega⟩
  | tagged ha hb hc =>
    rcases ha.head with ⟨c, t, rfl, hc', hlen⟩
    rcases hb.head with ⟨d, u, rfl, -, hlen'⟩
    rcases hc.head with ⟨e, w, rfl, -, hlen''⟩
    exact ⟨c, t, rfl, hc', by simp at hlen hlen' hlen''; omega⟩

theorem Written.readBound {s rest : List Char} {k : Comparator} (h : Written Strtol s k rest) :
    PackageVersionSpec.readBound s = .ok (k.bounds, rest) := by
  rcases h with ⟨ho, hs, h⟩
  rename_i ty o s
  rcases h.head with ⟨c, t, rfl, hc, -⟩
  rcases readOp_opText ho hs (fun d hd => Option.some.inj hd ▸ hc) with ⟨hty, hskip, hstar⟩
  rw [PackageVersionSpec.readBound, if_neg hstar]
  simp only [hskip, hty]
  exact readVersion_of_reads h

theorem Written.length_lt {s rest : List Char} {k : Comparator} (h : Written Strtol s k rest) :
    rest.length < s.length := by
  rcases h with ⟨ho, hs, h⟩
  rcases h.head with ⟨c, t, rfl, -, hlen⟩
  rw [List.length_append, List.length_cons]
  omega

/-- A comparator does not begin with a blank. -/
theorem Written.noHead {s rest : List Char} {k : Comparator} (h : Written Strtol s k rest) : NoHead isblank s := by
  rcases h with ⟨ho, hs, h⟩
  rcases ho with ⟨-, rfl⟩ | ⟨op, b, hmem, -, rfl⟩
  · exact hs
  · simp only [opTexts, List.mem_cons, Prod.mk.injEq, List.not_mem_nil, or_false] at hmem
    intro c hc
    rcases hmem with ⟨-, rfl⟩ | ⟨-, rfl⟩ | ⟨-, rfl⟩ | ⟨-, rfl⟩ | ⟨-, rfl⟩ | ⟨-, rfl⟩ | ⟨-, rfl⟩ <;>
      · obtain rfl := Option.some.inj hc
        rfl

theorem written_of_readBound {s rest : List Char} {bs : List Bound} (hs : NoHead isblank s)
    (hstar : s.head? ≠ some '*') (h : readBound s = .ok (bs, rest)) :
    ∃ k, Written Strtol s k rest ∧ bs = k.bounds := by
  rw [PackageVersionSpec.readBound, if_neg hstar] at h
  rcases opText_readOp s hs with ⟨o, ho, hcut⟩
  dsimp only at h
  split at h
  · cases h
  · rcases reads_of_readVersion h with ⟨k, hk, rfl⟩
    rw [hcut]
    exact ⟨k, .intro ho (noHead_dropWhile _ _) hk, rfl⟩

end Mrustc.Minicargo.PackageVersionSpec
