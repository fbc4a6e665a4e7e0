import Mrustc.Minicargo.Requirement

/-! # Which requirements are judged right

A requirement is read as its comparators, unless a `*` has something behind it, and
each comparator with its numbers as `unsigned`s. What is no requirement
is rejected unless it is one of the loose texts.
-/

namespace Mrustc.Minicargo.PackageVersionSpec

/-! ## The loop -/

theorem parseI_ne_unfinished (s : List Char) : parseI s ≠ .error .unfinished := by
  rw [parseI]
  dsimp only
  split_ifs <;> simp

theorem readVersion_ne_unfinished (ty : BoundType) (s : List Char) : readVersion ty s ≠ .error .unfinished := by
  have hbind {α β : Type} {x : Except Error α} {f : α → Except Error β} (hx : x ≠ .error .unfinished)
      (hf : ∀ a, f a ≠ .error .unfinished) : x >>= f ≠ .error .unfinished := by
    cases x with
    | error e => exact fun h => hx (congrArg Except.error (Except.error.inj h))
    | ok a => exact hf a
  rw [readVersion]
  apply hbind (parseI_ne_unfinished s)
  rintro ⟨a, s⟩
  dsimp only
  split_ifs
  · simp [pure, Except.pure]
  · apply hbind (parseI_ne_unfinished _)
    rintro ⟨b, t⟩
    dsimp only
    split_ifs
    · apply hbind (parseI_ne_unfinished _)
      rintro ⟨c, u⟩
      simp [pure, Except.pure]
    · simp [pure, Except.pure]
  · simp [pure, Except.pure]
  · simp [pure, Except.pure]

theorem readBound_ne_unfinished (s : List Char) : readBound s ≠ .error .unfinished := by
  rw [readBound]
  split
  · simp
  · dsimp only
    split
    · simp
    · exact readVersion_ne_unfinished _ _

theorem readBound_star (t : List Char) : readBound ('*' :: t) = .ok (Comparator.bounds .any, '*' :: t) := rfl

/-- A round whose comparator is read. -/
theorem readBounds_succ {b s rest : List Char} {read acc : List Bound} (hb : Blanks b) (hs : NoHead isblank s)
    (hne : s ≠ []) (h : readBound s = .ok (read, rest)) (fuel : ℕ) :
    readBounds acc (fuel + 1) (b ++ s) =
      if (skipBlanks rest).head? = some ',' then readBounds (acc ++ read) fuel (skipBlanks rest).tail
      else if (skipBlanks rest).tail = [] then .ok (acc ++ read) else .error .runtimeError := by
  rw [readBounds]
  simp only [skipBlanks_append hb hs, hne, if_false, h]

theorem noHead_star (t : List Char) : NoHead isblank ('*' :: t) := by
  intro c hc
  obtain rfl := Option.some.inj hc
  rfl

/-- A `*` is accepted at the end of the text only. -/
theorem readBounds_star {b t : List Char} (hb : Blanks b) (acc : List Bound) (fuel : ℕ) :
    readBounds acc (fuel + 1) (b ++ '*' :: t) =
      if t = [] then .ok (acc ++ Comparator.bounds .any) else .error .runtimeError := by
  have hskip : skipBlanks ('*' :: t) = '*' :: t := skipBlanks_append (b := []) (by simp [Blanks]) (noHead_star t)
  rw [readBounds_succ hb (noHead_star t) (by simp) (readBound_star t), hskip]
  rfl

theorem Written.ne_nil {s rest : List Char} {k : Comparator} (h : Written Strtol s k rest) : s ≠ [] :=
  List.ne_nil_of_length_pos (Nat.zero_lt_of_lt h.length_lt)

theorem readBounds_of_loose {s : List Char} {bs : List Bound} (h : Loose s bs) (acc : List Bound) (fuel : ℕ)
    (hf : s.length < fuel) : readBounds acc fuel s = .ok (acc ++ bs) := by
  induction h generalizing acc fuel with
  | @blank b hb =>
    cases fuel with
    | zero => omega
    | succ fuel =>
      have hskip : skipBlanks b = [] := by simpa using skipBlanks_append hb (s := []) (by simp [NoHead])
      rw [readBounds]
      simp [hskip]
  | star hb =>
    cases fuel with
    | zero => omega
    | succ fuel => rw [readBounds_star hb, if_pos rfl]
  | last hb hk hrest =>
    cases fuel with
    | zero => omega
    | succ fuel =>
      rcases hrest with ⟨b', x, hb', rfl, hlen, hx⟩
      have hhead : NoHead isblank x := fun c hc => by
        have := hx c (List.mem_of_mem_head? hc)
        simp only [isTag, Bool.and_eq_true, Bool.not_eq_true'] at this
        exact this.1
      have hcomma : x.head? ≠ some ',' := fun hc => absurd (hx ',' (List.mem_of_mem_head? hc)) (by decide)
      rw [readBounds_succ hb hk.noHead hk.ne_nil hk.readBound, skipBlanks_append hb' hhead, if_neg hcomma, if_pos]
      rw [← List.length_eq_zero_iff, List.length_tail]
      omega
  | @more b b' s t k bs hb hk hb' _ ih =>
    cases fuel with
    | zero => omega
    | succ fuel =>
      have hhead : NoHead isblank (',' :: t) := fun c hc => by
        obtain rfl := Option.some.inj hc
        rfl
      rw [readBounds_succ hb hk.noHead hk.ne_nil hk.readBound, skipBlanks_append hb' hhead, if_pos List.head?_cons,
        List.tail_cons, ih, List.append_assoc]
      have hlt := hk.length_lt
      simp only [List.length_append, List.length_cons] at hlt hf
      omega

/-- What a round reads: nothing, a `*`, a comparator, or an error. -/
theorem round_cases (s : List Char) :
    ∃ b t, Blanks b ∧ s = b ++ t ∧ NoHead isblank t ∧
      (t = [] ∨ (∃ u, t = '*' :: u) ∨ t ≠ [] ∧ ((∃ e, readBound t = .error e) ∨
        ∃ k rest, Written Strtol t k rest)) := by
  rcases blanks_skipBlanks s with ⟨b, hb, hs, hhead⟩
  refine ⟨b, skipBlanks s, hb, hs, hhead, ?_⟩
  generalize skipBlanks s = t at hhead ⊢
  by_cases hne : t = []
  · exact .inl hne
  · right
    by_cases hstar : t.head? = some '*'
    · exact .inl ⟨t.tail, cons_of_head hstar⟩
    · right
      apply And.intro hne
      cases h : readBound t with
      | error e => exact .inl ⟨e, rfl⟩
      | ok out =>
        rcases written_of_readBound hhead hstar h with ⟨k, hk, -⟩
        exact .inr ⟨k, out.2, hk⟩

/-- A round in which nothing can be read fails. -/
theorem readBounds_error {b t : List Char} {e : Error} (hb : Blanks b) (ht : NoHead isblank t) (hne : t ≠ [])
    (h : readBound t = .error e) (acc : List Bound) (fuel : ℕ) :
    readBounds acc (fuel + 1) (b ++ t) = .error e := by
  rw [readBounds]
  simp only [skipBlanks_append hb ht, hne, if_false, h]

/-- The loop ends in the texts it accepts, or in an error. -/
theorem loose_or_error (s : List Char) (acc : List Bound) (fuel : ℕ) (hf : s.length < fuel) :
    (∃ bs, Loose s bs) ∨ ∃ e, e ≠ .unfinished ∧ readBounds acc fuel s = .error e := by
  induction fuel generalizing s acc with
  | zero => omega
  | succ fuel ih =>
    rcases round_cases s with ⟨b, t, hb, rfl, ht, rfl | ⟨u, rfl⟩ | ⟨hne, ⟨e, he⟩ | ⟨k, rest, hk⟩⟩⟩
    · left
      rw [List.append_nil]
      exact ⟨[], .blank hb⟩
    · rw [readBounds_star hb]
      by_cases hu : u = []
      · rw [hu]
        exact .inl ⟨_, .star hb⟩
      · right
        exact ⟨.runtimeError, by simp, if_neg hu⟩
    · right
      exact ⟨e, fun h => readBound_ne_unfinished t (h ▸ he), readBounds_error hb ht hne he acc fuel⟩
    · rcases blanks_skipBlanks rest with ⟨b', hb', hrest, hhead⟩
      rw [readBounds_succ hb ht hne hk.readBound]
      generalize skipBlanks rest = r at hrest hhead
      subst hrest
      by_cases hcomma : r.head? = some ','
      · have hr := cons_of_head hcomma
        have hlt := hk.length_lt
        rw [hr] at hk hlt
        simp only [List.length_append, List.length_cons] at hlt hf
        rw [if_pos hcomma]
        rcases ih r.tail (acc ++ k.bounds) (by omega) with ⟨bs, hbs⟩ | he
        · exact .inl ⟨_, .more hb hk hb' hbs⟩
        · exact .inr he
      · rw [if_neg hcomma]
        by_cases htail : r.tail = []
        · left
          refine ⟨_, .last hb hk ⟨b', r, hb', rfl, ?_, ?_⟩⟩
          · have := congrArg List.length htail
            rw [List.length_tail, List.length_nil] at this
            omega
          · intro c hc
            rcases r with _ | ⟨d, r⟩
            · cases hc
            · obtain rfl : r = [] := htail
              obtain rfl := List.mem_singleton.mp hc
              have hblank : isblank c = false := hhead c rfl
              have hne : c ≠ ',' := fun h => hcomma (h ▸ rfl)
              simp [isTag, hblank, hne]
        · exact .inr ⟨.runtimeError, by simp, if_neg htail⟩

theorem fromString_of_loose {s : List Char} {bs : List Bound} (h : Loose s bs) : fromString s = .ok bs :=
  readBounds_of_loose h [] _ (Nat.lt_succ_self _)

/-! ## Requirements -/

end PackageVersionSpec

/-- The parts as `unsigned`s. -/
def Parts.unsigned : Parts → Parts
  | .major a => .major (PackageVersionSpec.unsignedOfLong a)
  | .minor a b => .minor (PackageVersionSpec.unsignedOfLong a) (PackageVersionSpec.unsignedOfLong b)
  | .patch a b c => .patch (PackageVersionSpec.unsignedOfLong a) (PackageVersionSpec.unsignedOfLong b)
      (PackageVersionSpec.unsignedOfLong c)

namespace Comparator

/-- The comparator with its numbers as `unsigned`s. -/
def unsigned : Comparator → Comparator
  | .any => .any
  | .wildcard ty a => .wildcard ty (PackageVersionSpec.unsignedOfLong a)
  | .given ty parts => .given ty parts.unsigned

theorem unsignedOfLong_lt (n : ℤ) : PackageVersionSpec.unsignedOfLong n < 2 ^ 32 := by
  rw [PackageVersionSpec.unsignedOfLong]
  omega

theorem unsignedOfLong_eq {n : ℕ} (h : n < 2 ^ 32) : PackageVersionSpec.unsignedOfLong n = n := by
  rw [PackageVersionSpec.unsignedOfLong]
  omega

theorem fits_unsigned (k : Comparator) : k.unsigned.Fits := by
  rcases k with _ | ⟨ty, a⟩ | ⟨ty, a | ⟨a, b⟩ | ⟨a, b, c⟩⟩ <;>
    simp only [Fits, unsigned, numbers, Parts.unsigned, Parts.list, List.forall_mem_cons, unsignedOfLong_lt,
      true_and, List.not_mem_nil, false_implies, implies_true]

theorem unsigned_eq {k : Comparator} (h : k.Fits) : k.unsigned = k := by
  rcases k with _ | ⟨ty, a⟩ | ⟨ty, a | ⟨a, b⟩ | ⟨a, b, c⟩⟩
  · rfl
  all_goals simp only [Fits, numbers, Parts.list, List.forall_mem_cons] at h
  · rw [unsigned, unsignedOfLong_eq h.1]
  · rw [unsigned, Parts.unsigned, unsignedOfLong_eq h.1]
  · rw [unsigned, Parts.unsigned, unsignedOfLong_eq h.1, unsignedOfLong_eq h.2.1]
  · rw [unsigned, Parts.unsigned, unsignedOfLong_eq h.1, unsignedOfLong_eq h.2.1, unsignedOfLong_eq h.2.2.1]

/-- The versions that satisfy the comparator and are rejected. -/
def MissedBy (k : Comparator) (v : Version) : Prop :=
  k.Sat v ∧ (k.unsigned.WronglyRejects v ∨ ¬ k.unsigned.Sat v ∧ ¬ k.unsigned.WronglyAccepts v)

/-- The versions that do not satisfy the comparator and are accepted. -/
def SlipsBy (k : Comparator) (v : Version) : Prop :=
  ¬ k.Sat v ∧ (k.unsigned.WronglyAccepts v ∨ k.unsigned.Sat v ∧ ¬ k.unsigned.WronglyRejects v)

theorem missedBy_iff {k : Comparator} (h : k.Fits) (v : Version) : k.MissedBy v ↔ k.WronglyRejects v := by
  rw [MissedBy, unsigned_eq h]
  constructor
  · rintro ⟨hs, hr | ⟨hn, -⟩⟩
    · exact hr
    · exact absurd hs hn
  · exact fun hr => ⟨sat_of_wronglyRejects hr, .inl hr⟩

theorem slipsBy_iff {k : Comparator} (h : k.Fits) (v : Version) : k.SlipsBy v ↔ k.WronglyAccepts v := by
  rw [SlipsBy, unsigned_eq h]
  constructor
  · rintro ⟨hs, ha | ⟨hn, -⟩⟩
    · exact ha
    · exact absurd hn hs
  · exact fun ha => ⟨not_sat_of_wronglyAccepts ha, .inl ha⟩

theorem accepts_unsigned (k : Comparator) (v : Version) (hv : v.Fits) :
    PackageVersionSpec.accepts k.unsigned.bounds v.package = true ↔ k.Sat v ∧ ¬ k.MissedBy v ∨ k.SlipsBy v := by
  rw [accepts_bounds_iff k.unsigned v k.fits_unsigned hv, MissedBy, SlipsBy]
  have h₁ := @sat_of_wronglyRejects v k.unsigned
  have h₂ := @not_sat_of_wronglyAccepts v k.unsigned
  tauto

/-- All comparators are judged together as they should be: where the version satisfies all of them none misses it,
and where it does not, it is one of those that fail, or that miss it, that does not let it slip by. -/
structure Judged (ks : List Comparator) (v : Version) : Prop where
  sat (h : ∀ k ∈ ks, k.Sat v) : ∀ k ∈ ks, ¬ k.MissedBy v
  unsat (h : ¬ ∀ k ∈ ks, k.Sat v) : ∃ k ∈ ks, (¬ k.Sat v ∨ k.MissedBy v) ∧ ¬ k.SlipsBy v

theorem accepts_flatMap (ks : List Comparator) (v : PackageVersion) :
    PackageVersionSpec.accepts (ks.flatMap fun k => k.unsigned.bounds) v = true ↔
      ∀ k ∈ ks, PackageVersionSpec.accepts k.unsigned.bounds v = true := by
  simp only [PackageVersionSpec.accepts, List.all_eq_true, List.mem_flatMap]
  constructor
  · exact fun h k hk b hb => h b ⟨k, hk, hb⟩
  · rintro h b ⟨k, hk, hb⟩
    exact h k hk b hb

theorem accepts_iff_judged (ks : List Comparator) (v : Version) (hv : v.Fits) :
    (PackageVersionSpec.accepts (ks.flatMap fun k => k.unsigned.bounds) v.package = true ↔ ∀ k ∈ ks, k.Sat v) ↔
      Judged ks v := by
  simp only [accepts_flatMap, accepts_unsigned _ v hv]
  constructor
  · intro h
    constructor
    · intro hs k hk
      rcases h.mpr hs k hk with hgood | hslip
      · exact hgood.2
      · exact absurd (hs k hk) hslip.1
    · intro hs
      have := mt h.mp hs
      push Not at this
      rcases this with ⟨k, hk, hbad, hslip⟩
      exact ⟨k, hk, by tauto, hslip⟩
  · intro h
    constructor
    · intro hall
      by_contra hs
      rcases h.unsat hs with ⟨k, hk, hbad, hslip⟩
      rcases hall k hk with hgood | hgood
      · tauto
      · exact hslip hgood
    · exact fun hs k hk => .inl ⟨hs k hk, h.sat hs k hk⟩

end Comparator

namespace PackageVersionSpec

theorem ReadsVersion.unsigned {ty : BoundType} {s rest : List Char} {k : Comparator}
    (h : ReadsVersion Decimal ty s k rest) : ReadsVersion Strtol ty s k.unsigned rest := by
  cases h with
  | wildcard ha => exact .wildcard (.of_decimal ha)
  | major ha hrest => exact .major (.of_decimal ha) hrest
  | minor ha hb hrest => exact .minor (.of_decimal ha) (.of_decimal hb) hrest
  | patch ha hb hc hrest => exact .patch (.of_decimal ha) (.of_decimal hb) (.of_decimal hc) hrest
  | tagged ha hb hc htag hrest =>
    exact .tagged (.of_decimal ha) (.of_decimal hb) (.of_decimal hc) htag hrest

theorem Written.unsigned {s rest : List Char} {k : Comparator} (h : Written Decimal s k rest) :
    Written Strtol s k.unsigned rest := by
  rcases h with ⟨ho, hs, h⟩
  exact .intro ho hs h.unsigned

theorem Written.ne_any {s rest : List Char} {k : Comparator} (h : Written Decimal s k rest) : k ≠ .any := by
  rcases h with ⟨-, -, h⟩
  cases h <;> simp

theorem Decimal.suffix {s rest : List Char} {n : ℕ} (h : Decimal s n rest) : rest <:+ s := by
  rcases h with ⟨ds, rfl, -⟩
  exact List.suffix_append ds rest

theorem Written.suffix {s rest : List Char} {k : Comparator} (h : Written Decimal s k rest) : rest <:+ s := by
  rcases h with ⟨-, -, h⟩
  refine List.IsSuffix.trans ?_ (List.suffix_append _ _)
  cases h with
  | wildcard ha => exact ((List.suffix_cons _ _).trans (List.suffix_cons _ _)).trans ha.suffix
  | major ha => exact ha.suffix
  | minor ha hb => exact (hb.suffix.trans (List.suffix_cons _ _)).trans ha.suffix
  | patch ha hb hc =>
    exact ((hc.suffix.trans (List.suffix_cons _ _)).trans hb.suffix).trans ((List.suffix_cons _ _).trans ha.suffix)
  | tagged ha hb hc =>
    have hrest := ((List.suffix_append _ _).trans (List.suffix_cons _ _)).trans hc.suffix
    exact ((hrest.trans (List.suffix_cons _ _)).trans hb.suffix).trans ((List.suffix_cons _ _).trans ha.suffix)

/-- A `*` on its own ends the text. -/
structure StarsLast (ks : List Comparator) (s : List Char) : Prop where
  last : .any ∉ ks.dropLast
  ends (h : ks.getLast? = some .any) : s.getLast? = some '*'

theorem Requirement.ne_nil {s : List Char} {ks : List Comparator} (h : Requirement s ks) : s ≠ [] ∧ ks ≠ [] := by
  have hreads {s rest : List Char} {k : Comparator} (h : Reads Decimal s k rest) : s ≠ [] := by
    cases h with
    | any => simp
    | written h => exact h.unsigned.ne_nil
  cases h with
  | last hb hk => exact ⟨by simp [hreads hk], by simp⟩
  | more hb hk => exact ⟨by simp [hreads hk], by simp⟩

theorem starsLast_cons {k : Comparator} {ks : List Comparator} {s t : List Char} (hk : k ≠ .any) (hks : ks ≠ [])
    (ht : t ≠ []) (hsuf : t <:+ s) : StarsLast (k :: ks) s ↔ StarsLast ks t := by
  have hlast : (k :: ks).getLast? = ks.getLast? := by
    rcases ks with _ | ⟨l, ks⟩
    · exact absurd rfl hks
    · rw [List.getLast?_cons_cons]
  have hend : s.getLast? = t.getLast? := by
    rcases hsuf with ⟨p, rfl⟩
    exact List.getLast?_append_of_ne_nil p ht
  have hmem : Comparator.any ∈ (k :: ks).dropLast ↔ Comparator.any ∈ ks.dropLast := by
    rw [List.dropLast_cons_of_ne_nil hks, List.mem_cons, or_iff_right (Ne.symm hk)]
  constructor
  · exact fun h => ⟨fun hm => h.last (hmem.mpr hm), fun hl => hend ▸ h.ends (hlast.trans hl)⟩
  · exact fun h => ⟨fun hm => h.last (hmem.mp hm), fun hl => hend.trans (h.ends (hlast.symm.trans hl))⟩

theorem loose_of_requirement {s : List Char} {ks : List Comparator} (h : Requirement s ks) (hs : StarsLast ks s) :
    Loose s (ks.flatMap fun k => k.unsigned.bounds) := by
  induction h with
  | @last b s rest k hb hk hrest =>
    rw [List.flatMap_singleton]
    cases hk with
    | any =>
      have hend := hs.ends rfl
      rcases rest.eq_nil_or_concat with rfl | ⟨r, c, rfl⟩
      · exact .star hb
      · simp only [List.concat_eq_append] at hrest hend
        rw [← List.cons_append, ← List.append_assoc, List.getLast?_concat] at hend
        obtain rfl := Option.some.inj hend
        exact absurd (hrest '*' (by simp)) (by decide)
    | written hk =>
      exact .last hb hk.unsigned ⟨rest, [], hrest, (List.append_nil rest).symm, by simp, by simp⟩
  | @more b b' s t k ks hb hk hb' ht ih =>
    rw [List.flatMap_cons]
    cases hk with
    | any =>
      rcases ks with _ | ⟨l, ks⟩
      · exact absurd rfl ht.ne_nil.2
      · exact absurd List.mem_cons_self hs.last
    | written hk =>
      have hsuf : t <:+ b ++ s :=
        (((List.suffix_cons _ _).trans (List.suffix_append _ _)).trans hk.suffix).trans (List.suffix_append _ _)
      exact .more hb hk.unsigned hb' (ih ((starsLast_cons hk.ne_any ht.ne_nil.2 ht.ne_nil.1 hsuf).mp hs))

/-- A `*` with something behind it makes the requirement fail. -/
theorem error_of_requirement {s : List Char} {ks : List Comparator} (h : Requirement s ks) (hs : ¬ StarsLast ks s)
    (acc : List Bound) (fuel : ℕ) (hf : s.length < fuel) : readBounds acc fuel s = .error .runtimeError := by
  induction h generalizing acc fuel with
  | @last b s rest k hb hk hrest =>
    cases fuel with
    | zero => omega
    | succ fuel =>
      cases hk with
      | any =>
        rw [readBounds_star hb, if_neg]
        rintro rfl
        exact hs ⟨by simp, fun _ => by simp⟩
      | written hk => exact absurd ⟨by simp, fun h => absurd (by simpa using h) hk.ne_any⟩ hs
  | @more b b' s t k ks hb hk hb' ht ih =>
    cases fuel with
    | zero => omega
    | succ fuel =>
      cases hk with
      | any => rw [readBounds_star hb, if_neg (by simp)]
      | written hk =>
        have hsuf : t <:+ b ++ s :=
          (((List.suffix_cons _ _).trans (List.suffix_append _ _)).trans hk.suffix).trans (List.suffix_append _ _)
        have hk' := hk.unsigned
        have hhead : NoHead isblank (',' :: t) := fun c hc => by
          obtain rfl := Option.some.inj hc
          rfl
        have hlt := hk'.length_lt
        rw [readBounds_succ hb hk'.noHead hk'.ne_nil hk'.readBound, skipBlanks_append hb' hhead,
          if_pos List.head?_cons, List.tail_cons]
        apply ih fun h => hs ((starsLast_cons hk.ne_any ht.ne_nil.2 ht.ne_nil.1 hsuf).mpr h)
        simp only [List.length_append, List.length_cons] at hlt hf
        omega

/-- The text is judged right on a version: its comparators are read and the version is accepted if it satisfies all of
them, and what is no requirement is rejected. -/
structure Right (s : List Char) (v : Version) : Prop where
  accepts (ks : List Comparator) (h : Requirement s ks) :
    ∃ bs, fromString s = .ok bs ∧ (accepts bs v.package = true ↔ ∀ k ∈ ks, k.Sat v)
  rejects (h : ∀ ks, ¬ Requirement s ks) : ∃ e, fromString s = .error e

/-- The condition on the text and the version. -/
structure Regular (s : List Char) (v : Version) : Prop where
  comparators (ks : List Comparator) (h : Requirement s ks) : StarsLast ks s ∧ Comparator.Judged ks v
  strict (h : ∀ ks, ¬ Requirement s ks) : ¬ ∃ bs, Loose s bs

theorem right_iff_regular (s : List Char) (v : Version) (hv : v.Fits) : Right s v ↔ Regular s v := by
  constructor
  · intro h
    constructor
    · intro ks hks
      rcases h.accepts ks hks with ⟨bs, hbs, haccepts⟩
      by_cases hstar : StarsLast ks s
      · apply And.intro hstar
        have heq := fromString_of_loose (loose_of_requirement hks hstar)
        rw [hbs] at heq
        rw [Except.ok.inj heq] at haccepts
        exact (Comparator.accepts_iff_judged ks v hv).mp haccepts
      · rw [fromString, error_of_requirement hks hstar [] _ (Nat.lt_succ_self _)] at hbs
        cases hbs
    · rintro hno ⟨bs, hbs⟩
      rcases h.rejects hno with ⟨e, he⟩
      rw [fromString_of_loose hbs] at he
      cases he
  · intro h
    constructor
    · intro ks hks
      rcases h.comparators ks hks with ⟨hstar, hjudged⟩
      exact ⟨_, fromString_of_loose (loose_of_requirement hks hstar),
        (Comparator.accepts_iff_judged ks v hv).mpr hjudged⟩
    · intro hno
      rcases loose_or_error s [] _ (Nat.lt_succ_self _) with hloose | ⟨e, -, he⟩
      · exact absurd hloose (h.strict hno)
      · exact ⟨e, he⟩

theorem fromString_finishes (s : List Char) : fromString s ≠ .error .unfinished := by
  rcases loose_or_error s [] _ (Nat.lt_succ_self _) with ⟨bs, hbs⟩ | ⟨e, hne, he⟩
  · rw [fromString_of_loose hbs]
    simp
  · rw [fromString, he]
    exact fun h => hne (Except.error.inj h)

end PackageVersionSpec

/-! ## The greatest entry -/

theorem Version.Lt.trans {u v w : Version} (h : u.Lt v) (h' : v.Lt w) : u.Lt w := by
  simp only [Version.Lt] at *
  omega

theorem cmp_package_pos {v w : Version} : 0 < v.package.cmp w.package ↔ w.Lt v := PackageVersion.cmp_ofPatch_pos

/-- `best` is a greatest entry that is accepted and not blacklisted, if there is one. -/
structure Greatest (bounds : List Bound) (entries : List Entry) (best : Option Entry) : Prop where
  none (h : best = .none) : ∀ e ∈ entries, PackageVersionSpec.accepts bounds e.version = true → e.blacklisted = true
  some (b : Entry) (h : best = .some b) : b ∈ entries ∧ PackageVersionSpec.accepts bounds b.version = true ∧
    b.blacklisted = false ∧ ∀ e ∈ entries, PackageVersionSpec.accepts bounds e.version = true →
      e.blacklisted = false → e.version.cmp b.version ≤ 0

/-- Every version has all its parts. -/
def AllFull (entries : List Entry) : Prop := ∀ e ∈ entries, ∃ v : Version, e.version = v.package

theorem greatest_findBest (bounds : List Bound) (entries : List Entry) (hfull : AllFull entries) :
    Greatest bounds entries (findBest bounds entries) := by
  induction entries using List.reverseRecOn with
  | nil => exact ⟨by simp, by simp [findBest]⟩
  | append_singleton entries entry ih =>
    have ih := ih fun e he => hfull e (List.mem_append_left _ he)
    have hstep : findBest bounds (entries ++ [entry]) =
        if PackageVersionSpec.accepts bounds entry.version ∧ ¬entry.blacklisted ∧
          ((findBest bounds entries).all fun best => decide (0 < entry.version.cmp best.version)) then .some entry
        else findBest bounds entries := by
      rw [findBest, List.foldl_append]
      rfl
    rw [hstep]
    generalize findBest bounds entries = best at ih
    rcases hfull entry (by simp) with ⟨v, hv⟩
    split_ifs with hbetter
    · apply Greatest.mk (by simp)
      rintro b ⟨rfl⟩
      apply And.intro (by simp)
      apply And.intro hbetter.1
      apply And.intro (by simpa using hbetter.2.1)
      intro e he haccepts hblack
      rcases List.mem_append.mp he with he | he
      · rcases hfull e (List.mem_append_left _ he) with ⟨w, hw⟩
        cases best with
        | none => exact absurd (ih.none rfl e he haccepts) (by simp [hblack])
        | some b =>
          rcases ih.some b rfl with ⟨hb, -, -, hbest⟩
          rcases hfull b (List.mem_append_left _ hb) with ⟨u, hu⟩
          have hlt : u.Lt v := cmp_package_pos.mp (by simpa [hv, hu] using hbetter.2.2)
          have hle := hbest e he haccepts hblack
          rw [hw, hv]
          rw [hw, hu] at hle
          exact not_lt.mp fun h => not_lt.mpr hle (cmp_package_pos.mpr (hlt.trans (cmp_package_pos.mp h)))
      · obtain rfl := List.mem_singleton.mp he
        rw [hv]
        exact not_lt.mp fun h => by simpa [Version.Lt] using cmp_package_pos.mp h
    · constructor
      · rintro rfl e he haccepts
        rcases List.mem_append.mp he with he | he
        · exact ih.none rfl e he haccepts
        · obtain rfl := List.mem_singleton.mp he
          by_contra hblack
          exact hbetter ⟨haccepts, hblack, rfl⟩
      · rintro b rfl
        rcases ih.some b rfl with ⟨hb, hacc, hbl, hbest⟩
        apply And.intro (List.mem_append_left _ hb)
        apply And.intro hacc
        apply And.intro hbl
        intro e he haccepts hblack
        rcases List.mem_append.mp he with he | he
        · exact hbest e he haccepts hblack
        · obtain rfl := List.mem_singleton.mp he
          apply not_lt.mp
          intro h
          exact hbetter ⟨haccepts, by simp [hblack], by simpa using h⟩

namespace PackageVersionSpec

/-- A requirement is judged right on a version exactly if the text and the version are regular; reading it always
ends, and of the entries of one name a greatest one that is accepted is found. -/
theorem requirement_right_iff (s : List Char) (v : Version) (hv : v.Fits) (bounds : List Bound)
    (entries : List Entry) (hfull : AllFull entries) :
    (Right s v ↔ Regular s v) ∧ fromString s ≠ .error .unfinished ∧
      Greatest bounds entries (findBest bounds entries) :=
  ⟨right_iff_regular s v hv, fromString_finishes s, greatest_findBest bounds entries hfull⟩

theorem written_not_star {s rest : List Char} {k : Comparator} (h : Written Decimal s k rest) :
    s.head? ≠ some '*' := by
  rcases h with ⟨ho, hs, h⟩
  rcases h.unsigned.head with ⟨c, t, rfl, hc, -⟩
  exact (readOp_opText ho hs fun d hd => Option.some.inj hd ▸ hc).2.2

/-- The only comparator of `*` is the one that every version satisfies. -/
theorem requirement_star {ks : List Comparator} (h : Requirement ['*'] ks) : ks = [.any] := by
  have hcut {b s : List Char} (hb : Blanks b) (h : ['*'] = b ++ s) (hs : s ≠ []) : b = [] ∧ s = ['*'] := by
    rcases b with _ | ⟨c, b⟩
    · exact ⟨rfl, h.symm⟩
    · have hc : '*' = c := (List.cons.inj h).1
      exact absurd (hb c List.mem_cons_self) (by rw [← hc]; decide)
  have hreads {s rest : List Char} {k : Comparator} (h : Reads Decimal s k rest) : s ≠ [] := by
    cases h with
    | any => simp
    | written h => exact h.unsigned.ne_nil
  generalize hs : ['*'] = text at h
  cases h with
  | last hb hk hrest =>
    rcases hcut hb hs (hreads hk) with ⟨rfl, rfl⟩
    cases hk with
    | any => rfl
    | written hk => exact absurd rfl (written_not_star hk)
  | more hb hk hb' ht =>
    rcases hcut hb hs (hreads hk) with ⟨rfl, rfl⟩
    generalize hrest : _ ++ ',' :: _ = rest at hk
    cases hk with
    | any => simp at hrest
    | written hk => exact absurd rfl (written_not_star hk)

theorem requirement_right_star :
    Right "*".toList ⟨1, 2, 3⟩ ∧
      Greatest [] [⟨.ofPatch 1 2 3, false⟩, ⟨.ofPatch 1 10 0, false⟩] (some ⟨.ofPatch 1 10 0, false⟩) := by
  have hfull : AllFull [⟨.ofPatch 1 2 3, false⟩, ⟨.ofPatch 1 10 0, false⟩] := by
    intro e he
    simp only [List.mem_cons, List.not_mem_nil, or_false] at he
    rcases he with rfl | rfl
    · exact ⟨⟨1, 2, 3⟩, rfl⟩
    · exact ⟨⟨1, 10, 0⟩, rfl⟩
  have h := requirement_right_iff "*".toList ⟨1, 2, 3⟩ ⟨by decide, by decide, by decide⟩ []
    [⟨.ofPatch 1 2 3, false⟩, ⟨.ofPatch 1 10 0, false⟩] hfull
  refine ⟨h.1.mpr ⟨?_, ?_⟩, h.2.2⟩
  · intro ks hks
    obtain rfl := requirement_star hks
    constructor
    · exact ⟨by simp, fun _ => rfl⟩
    · constructor
      · simp [Comparator.missedBy_iff (k := .any) (by simp [Comparator.Fits, Comparator.numbers]),
          Comparator.WronglyRejects]
      · exact fun hs => absurd (by simp [Comparator.Sat]) hs
  · exact fun hno => absurd (.last (b := []) (by simp [Blanks]) (.any []) (by simp [Blanks])) (hno [.any])

/-- `=1` rejects 1.2.0, `>1` accepts 1.1.0, `^1.2.3` accepts 1.2.0, and a stray character at the end is not seen. -/
theorem requirement_wrong :
    ¬ Right "=1".toList ⟨1, 2, 0⟩ ∧
      (fromString ">1".toList).map (accepts · (.ofPatch 1 1 0)) = .ok true ∧
      (fromString "^1.2.3".toList).map (accepts · (.ofPatch 1 2 0)) = .ok true ∧
      (fromString "1x".toList).map (accepts · (.ofPatch 1 0 0)) = .ok true := by
  refine ⟨fun h => ?_, by decide, by decide, by decide⟩
  have hone : ReadsVersion Decimal .equal ['1'] (.given .equal (.major 1)) [] :=
    .major ⟨['1'], rfl, by simp, fun d hd => List.mem_singleton.mp hd ▸ rfl, by simp [NoHead], rfl⟩
      (by simp [NoHead])
  have hop : OpText .equal ['='] := .inr ⟨['='], [], by decide, by simp [Blanks], rfl⟩
  have hblank : NoHead isblank ['1'] := by simp [NoHead, isblank]
  have hreq : Requirement "=1".toList [.given .equal (.major 1)] :=
    .last (b := []) (by simp [Blanks]) (.written (.intro hop hblank hone)) (by simp [Blanks])
  rcases h.accepts _ hreq with ⟨bs, hbs, haccepts⟩
  have hread : fromString "=1".toList = .ok [⟨.equal, .ofMajor 1⟩] := by decide
  rw [hread] at hbs
  obtain rfl := Except.ok.inj hbs
  have hsat : ∀ k ∈ [Comparator.given .equal (.major 1)], k.Sat ⟨1, 2, 0⟩ := by
    intro k hk
    obtain rfl := List.mem_singleton.mp hk
    exact Comparator.completes_major.mpr rfl
  exact absurd (haccepts.mpr hsat) (by decide)

end PackageVersionSpec

end Mrustc.Minicargo
