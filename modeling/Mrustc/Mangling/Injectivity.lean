import Mrustc.Mangling.Names

/-! # Unique decodability of mangled paths and types

Two paths with one symbol are the same path, provided that no trait object in them has more
than ten markers. The number of markers and the number of components of the first marker are
written next to each other, so with eleven markers two readings of one text exist.
-/

namespace Mrustc.Mangling
open Hir Codec Emitter

variable {log26 : ℕ → ℕ}

theorem agree_fmtNames : ∀ (ss ts : List RcString), (∀ s ∈ ss, ValidName s) →
    (∀ t ∈ ts, ValidName t) → ss.length = ts.length →
    Agree (fmtNames log26 ss) (fmtNames log26 ts) (ss = ts)
  | [], [], _, _, _ => (agree_write []).imp fun _ => rfl
  | s :: ss, t :: ts, hs, ht, hl => by
    have hn : Agree (fmtName log26 s) (fmtName log26 t) (s = t) :=
      agree_fmtName (hs s List.mem_cons_self) (ht t List.mem_cons_self)
    refine (hn.seq fun _ => agree_fmtNames ss ts (fun x hx => hs x (List.mem_cons_of_mem s hx))
      (fun x hx => ht x (List.mem_cons_of_mem t hx)) (Nat.succ.inj hl)).imp ?_
    rintro ⟨rfl, rfl⟩
    rfl

theorem agree_fmtSimplePath {p q : SimplePath} (hp : p.Every ValidName) (hq : q.Every ValidName) :
    Agree (fmtSimplePath log26 p) (fmtSimplePath log26 q) (p = q) := by
  refine (agree_number_seq (fun _ => leads_write_seq (by decide) _)
    (fun _ => leads_write_seq (by decide) _) fun hl => Agree.write_seq ['c']
    ((agree_fmtName hp.1 hq.1).seq fun _ => agree_fmtNames _ _ hp.2 hq.2 hl)).imp ?_
  rintro ⟨-, h1, h2⟩
  cases p
  cases q
  exact congrArg₂ SimplePath.mk h1 h2

theorem digitChar_injective : ∀ i < 16, ∀ j < 16, Nat.digitChar i = Nat.digitChar j → i = j := by
  decide

theorem hexByte_injective {b b' : UInt8} (h : hexByte b = hexByte b') : b = b' := by
  have hb := b.toNat_lt
  have hb' := b'.toNat_lt
  simp only [hexByte, List.cons.injEq, and_true] at h
  have h1 := digitChar_injective _ (by omega) _ (by omega) h.1
  have h2 := digitChar_injective _ (by omega) _ (by omega) h.2
  exact UInt8.toNat_inj.mp (by omega)

theorem hexBytes_split : ∀ (bs bs' : List UInt8) {r r' : List Char}, bs.length = bs'.length →
    bs.flatMap hexByte ++ r = bs'.flatMap hexByte ++ r' → bs = bs' ∧ r = r'
  | [], [], r, r', _, h => ⟨rfl, h⟩
  | b :: bs, b' :: bs', r, r', hl, h => by
    simp only [List.flatMap_cons, List.append_assoc] at h
    obtain ⟨hb, h⟩ := List.append_inj h rfl
    obtain ⟨rfl, hr⟩ := hexBytes_split bs bs' (Nat.succ.inj hl) h
    exact ⟨by rw [hexByte_injective hb], hr⟩

theorem agree_fmtValue : ∀ v w : ConstGeneric, Agree (fmtValue v) (fmtValue w) (v = w)
  | .evaluated bs [], .evaluated bs' [] => by
    have hex : bs.length = bs'.length → Agree (σ := List RcString) (write (bs.flatMap hexByte))
        (write (bs'.flatMap hexByte)) (bs = bs') := by
      rintro hl c o₁ c₁ o₂ c₂ r₁ r₂ ⟨⟩ ⟨⟩ he
      obtain ⟨hb, hr⟩ := hexBytes_split bs bs' hl he
      exact ⟨hb, rfl, hr⟩
    refine (Agree.write_seq ['V'] (agree_number_seq (fun _ => leads_write_seq (by decide) _)
      (fun _ => leads_write_seq (by decide) _) fun hl => Agree.write_seq ['_'] (hex hl))).imp ?_
    rintro ⟨-, rfl⟩
    rfl
  | .evaluated _ (_ :: _), _ => agree_abort_left
  | .infer _, _ => agree_abort_left
  | .unevaluated, _ => agree_abort_left
  | .generic _, _ => agree_abort_left
  | .evaluated _ [], .evaluated _ (_ :: _) => agree_abort_right
  | .evaluated _ [], .infer _ => agree_abort_right
  | .evaluated _ [], .unevaluated => agree_abort_right
  | .evaluated _ [], .generic _ => agree_abort_right

theorem agree_fmtValues : ∀ vs ws : List ConstGeneric, vs.length = ws.length →
    Agree (fmtValues vs) (fmtValues ws) (vs = ws)
  | [], [], _ => (agree_write []).imp fun _ => rfl
  | v :: vs, w :: ws, hl => by
    refine ((agree_fmtValue v w).seq fun _ => agree_fmtValues vs ws (Nat.succ.inj hl)).imp ?_
    rintro ⟨rfl, rfl⟩
    rfl

theorem leads_valueCount (n : ℕ) :
    Leads (σ := List RcString)
      (if 0 < n then (write ['v']).seq <| (number n).seq (write ['g']) else write ['g'])
      (fun x => x = if 0 < n then 'v' else 'g') := by
  split
  · exact leads_write_seq (by rfl) _
  · exact leads_write [] rfl

theorem agree_fmtParamCounts (m n m' n' : ℕ) :
    Agree (fmtParamCounts m n) (fmtParamCounts m' n') (m = m' ∧ n = n') := by
  have hlead : ∀ n : ℕ, ∀ x : Char, (x = if 0 < n then 'v' else 'g') → x.isDigit = false := by
    rintro n x rfl
    split <;> rfl
  refine agree_number_seq (fun _ => (leads_valueCount n).mono (hlead n))
    (fun _ => (leads_valueCount n').mono (hlead n')) fun _ => ?_
  by_cases hn : 0 < n <;> by_cases hn' : 0 < n'
  · rw [if_pos hn, if_pos hn']
    have hg : Leads (σ := List RcString) (write ['g']) (fun x => x.isDigit = false) :=
      leads_write [] (by decide)
    exact (Agree.write_seq ['v'] (agree_number_seq (fun _ => hg) (fun _ => hg)
      fun _ => agree_write ['g'])).imp And.left
  · exact Agree.of_leads (leads_valueCount n) (leads_valueCount n') (by simp [hn, hn'])
  · exact Agree.of_leads (leads_valueCount n) (leads_valueCount n') (by simp [hn, hn'])
  · rw [if_neg hn, if_neg hn']
    exact (agree_write ['g']).imp fun _ => by omega

theorem leads_fmtAbi_seq (abi : RcString) {a : Mangler} (ha : Leads a (fun x => x.isDigit = true)) :
    Leads ((fmtAbi abi).seq a)
      (fun x => if abi = ['R', 'u', 's', 't'] then x.isDigit = true else x = 'e') := by
  unfold fmtAbi
  split
  · rw [write_nil_seq]
    exact ha
  · rw [Emitter.seq_assoc]
    exact leads_write_seq (by rfl) _

theorem agree_fmtAbi_seq {abi abi' : RcString} {a b : Mangler} {P : Prop}
    (habi : ValidName abi) (habi' : ValidName abi') (ha : Leads a (fun x => x.isDigit = true))
    (hb : Leads b (fun x => x.isDigit = true)) (h : Agree a b P) :
    Agree ((fmtAbi abi).seq a) ((fmtAbi abi').seq b) (abi = abi' ∧ P) := by
  have hla := leads_fmtAbi_seq abi ha
  have hlb := leads_fmtAbi_seq abi' hb
  have he : ¬ 'e'.isDigit = true := by decide
  by_cases hr : abi = ['R', 'u', 's', 't'] <;> by_cases hr' : abi' = ['R', 'u', 's', 't']
  · rw [fmtAbi, fmtAbi, if_pos hr, if_pos hr', write_nil_seq, write_nil_seq]
    exact h.imp fun hP => ⟨hr.trans hr'.symm, hP⟩
  · exact Agree.of_leads hla hlb fun x hx hx' => by simp_all
  · exact Agree.of_leads hla hlb fun x hx hx' => by simp_all
  · rw [fmtAbi, fmtAbi, if_neg hr, if_neg hr', Emitter.seq_assoc, Emitter.seq_assoc]
    exact Agree.write_seq ['e'] ((agree_fmtRawName habi habi').seq fun _ => h)

/-- The argument count behind the header starts with a digit, so each optional part shows. -/
theorem agree_fmtFnHeader_seq {u u' : Bool} {abi abi' : RcString} {a b : Mangler} {P : Prop}
    (habi : ValidName abi) (habi' : ValidName abi') (ha : Leads a (fun x => x.isDigit = true))
    (hb : Leads b (fun x => x.isDigit = true)) (h : Agree a b P) :
    Agree ((fmtFnHeader u abi).seq a) ((fmtFnHeader u' abi').seq b)
      (u = u' ∧ abi = abi' ∧ P) := by
  have hu : ∀ (abi : RcString) (x : Char),
      (if abi = ['R', 'u', 's', 't'] then x.isDigit = true else x = 'e') → x ≠ 'u' := by
    rintro abi x hx rfl
    split at hx <;> exact absurd hx (by decide)
  rw [fmtFnHeader, fmtFnHeader, Emitter.seq_assoc, Emitter.seq_assoc]
  exact agree_flag_seq ((leads_fmtAbi_seq abi ha).mono (hu abi))
    ((leads_fmtAbi_seq abi' hb).mono (hu abi')) fun _ => agree_fmtAbi_seq habi habi' ha hb h

/-- The primitive behind a letter. -/
def toCoreType : Char → CoreType
  | 'a' => .u8 | 'b' => .i8 | 'c' => .u16 | 'd' => .i16 | 'e' => .u32 | 'f' => .i32
  | 'g' => .u64 | 'h' => .i64 | 'i' => .u128 | 'j' => .i128
  | 'n' => .f32 | 'o' => .f64
  | 'u' => .usize | 'v' => .isize | 'w' => .bool | 'x' => .char | _ => .str

theorem toCoreType_fmtCoreType (ct : CoreType) : toCoreType (fmtCoreType ct) = ct := by
  cases ct <;> rfl

theorem fmtCoreType_ne_z (ct : CoreType) : fmtCoreType ct ≠ 'z' := by
  cases ct <;> decide

theorem fmtBorrowType_injective {b b' : BorrowType} (h : fmtBorrowType b = fmtBorrowType b') :
    b = b' := by
  cases b <;> cases b' <;> simp_all [fmtBorrowType]

theorem fmtBorrowType_length {x : Char} (b b' : BorrowType) :
    (x :: fmtBorrowType b).length = (x :: fmtBorrowType b').length := by
  cases b <;> cases b' <;> rfl

/-- The first symbol of a mangled type. -/
def typeTag : TypeRef → Char
  | .tuple _ => 'T'
  | .slice _ => 'S'
  | .array _ _ => 'A'
  | .path _ => 'G'
  | .traitObject _ _ _ => 'D'
  | .namedFunction _ => 'f'
  | .function _ _ _ _ _ => 'F'
  | .borrow _ _ => 'B'
  | .pointer _ _ => 'P'
  | _ => 'C'

theorem typeTag_not_isDigit (t : TypeRef) : (typeTag t).isDigit = false := by
  cases t <;> rfl

theorem leads_abort {σ β : Type*} {p : β → Prop} : Leads (σ := σ) abort p := by
  rintro c o c' ⟨⟩

theorem leads_fmtType (t : TypeRef) : Leads (fmtType log26 t) (· = typeTag t) := by
  cases t with
  | array inner size =>
    cases size with
    | unevaluated value => exact leads_abort
    | known size => exact leads_write_seq (by rfl) _
  | path p =>
    cases p with
    | generic g => exact leads_write_seq (by rfl) _
    | ufcsInherent type item params => exact leads_abort
    | ufcsKnown type trait item params => exact leads_abort
    | ufcsUnknown type item params => exact leads_abort
  | infer index => exact leads_abort
  | generic binding => exact leads_abort
  | erasedType => exact leads_abort
  | closure => exact leads_abort
  | generator => exact leads_abort
  | borrow type inner => exact (leads_write _ (by rfl)).seq _
  | pointer type inner => exact (leads_write _ (by rfl)).seq _
  | primitive ct => exact leads_write _ (by rfl)
  | diverge => exact leads_write _ (by rfl)
  | _ => exact leads_write_seq (by rfl) _

theorem agree_of_typeTag {t u : TypeRef} {P : Prop} (h : typeTag t ≠ typeTag u) :
    Agree (fmtType log26 t) (fmtType log26 u) P :=
  Agree.of_leads (leads_fmtType t) (leads_fmtType u) fun _ hx hx' => h (hx ▸ hx')

theorem leads_fmtTypes {ts : List TypeRef} (hts : ts.length ≠ 0) :
    Leads (fmtTypes log26 ts) (fun x => x.isDigit = false) := by
  cases ts with
  | nil => exact absurd rfl hts
  | cons t ts =>
    exact ((leads_fmtType t).seq _).mono fun x hx => hx ▸ typeTag_not_isDigit t

theorem leads_fmtAtyTypes {bs : List AtyEqual} (hbs : bs.length ≠ 0) :
    Leads (fmtAtyTypes log26 bs) (fun x => x.isDigit = false) := by
  rcases bs with _ | ⟨⟨name, source, t⟩, bs⟩
  · exact absurd rfl hbs
  · exact ((leads_fmtType t).seq _).mono fun x hx => hx ▸ typeTag_not_isDigit t

/-- The text of the first marker: a number of components, and a `c`. -/
theorem fmtGenericPaths_head {ms : List GenericPath} (hms : ms.length ≠ 0)
    {c c' : List RcString} {o : List Char} (h : fmtGenericPaths log26 ms c = some (o, c')) :
    ∃ k text, o = Nat.toDigits 10 k ++ 'c' :: text := by
  rcases ms with _ | ⟨⟨⟨crate, comps⟩, params⟩, ms⟩
  · exact absurd rfl hms
  · obtain ⟨s, d, t, hs, -, rfl⟩ := seq_eq_some.mp h
    obtain ⟨s', d', t', hs', -, rfl⟩ := seq_eq_some.mp hs
    obtain ⟨s₁, d₁, t₁, h₁, h₂, rfl⟩ := seq_eq_some.mp hs'
    obtain ⟨s₂, d₂, t₂, h₃, -, rfl⟩ := seq_eq_some.mp h₂
    cases h₁
    cases h₃
    exact ⟨comps.length, t₂ ++ t' ++ t, by simp⟩

/-- Ten markers at most: the digits of their number end where those of the components start. -/
theorem markerCount_split {m n : ℕ} (hm : m ≤ 10) (hn : n ≤ 10) {r r' : List Char}
    (hr : m ≠ 0 → ∃ k text, r = Nat.toDigits 10 k ++ 'c' :: text)
    (hr' : n ≠ 0 → ∃ k text, r' = Nat.toDigits 10 k ++ 'c' :: text)
    (h : Nat.toDigits 10 m ++ r = Nat.toDigits 10 n ++ r') : m = n ∧ r = r' := by
  -- After `1`, a count of zero components shows `0c`, and a number of markers `0` and a digit
  have hten : ∀ {n r r'}, n < 10 → (∃ k text, r = Nat.toDigits 10 k ++ 'c' :: text) →
      (n ≠ 0 → ∃ k text, r' = Nat.toDigits 10 k ++ 'c' :: text) →
      Nat.toDigits 10 10 ++ r ≠ Nat.toDigits 10 n ++ r' := by
    rintro n r r' hn ⟨k, text, rfl⟩ hr' h
    rw [Nat.toDigits_of_lt_base hn] at h
    simp only [show Nat.toDigits 10 10 = ['1', '0'] from rfl, List.cons_append, List.nil_append,
      List.cons.injEq] at h
    have hn1 : n ≠ 0 := by
      rintro rfl
      exact absurd h.1 (by decide)
    obtain ⟨k', text', rfl⟩ := hr' hn1
    obtain ⟨x, xs, hx, hd⟩ := toDigits_head (n := k)
    obtain ⟨y, ys, hy, -⟩ := toDigits_head (n := k')
    rw [hy, List.cons_append, List.cons.injEq] at h
    obtain rfl := toDigits_head_ne_zero k' ys (by rw [hy, h.2.1])
    obtain ⟨-, rfl⟩ : y = '0' ∧ ys = [] := by simpa [Nat.toDigits_zero] using hy.symm
    have hc := h.2.2
    rw [hx, List.nil_append, List.cons_append, List.cons.injEq] at hc
    exact absurd (hc.1 ▸ hd) (by decide)
  rcases Nat.lt_or_eq_of_le hm with hm | rfl
  · rcases Nat.lt_or_eq_of_le hn with hn | rfl
    · rw [Nat.toDigits_of_lt_base hm, Nat.toDigits_of_lt_base hn] at h
      simp only [List.cons_append, List.nil_append, List.cons.injEq] at h
      exact ⟨digitChar_injective m (by omega) n (by omega) h.1, h.2⟩
    · exact absurd h.symm (hten hm (hr' (by decide)) hr)
  · rcases Nat.lt_or_eq_of_le hn with hn | rfl
    · exact absurd h (hten hn (hr (by decide)) hr')
    · exact ⟨rfl, List.append_cancel_left h⟩

theorem agree_markers {ms ns : List GenericPath} {P : Prop} (hm : ms.length ≤ 10)
    (hn : ns.length ≤ 10) (h : ms.length = ns.length →
      Agree (fmtGenericPaths log26 ms) (fmtGenericPaths log26 ns) P) :
    Agree ((number ms.length).seq (fmtGenericPaths log26 ms))
      ((number ns.length).seq (fmtGenericPaths log26 ns)) P := by
  intro c o₁ c₁ o₂ c₂ r₁ r₂ h₁ h₂ he
  obtain ⟨s, d, t, hs, ht, rfl⟩ := seq_eq_some.mp h₁
  obtain ⟨s', d', t', hs', ht', rfl⟩ := seq_eq_some.mp h₂
  cases hs
  cases hs'
  rw [List.append_assoc, List.append_assoc] at he
  have hhead : ∀ {ms c c' o} (r : List Char), fmtGenericPaths log26 ms c = some (o, c') →
      ms.length ≠ 0 → ∃ k text, o ++ r = Nat.toDigits 10 k ++ 'c' :: text := by
    intro ms c c' o r ho hms
    obtain ⟨k, text, rfl⟩ := fmtGenericPaths_head hms ho
    exact ⟨k, text ++ r, by simp⟩
  obtain ⟨hl, he'⟩ := markerCount_split hm hn (hhead r₁ ht) (hhead r₂ ht') he
  exact h hl ht ht' he'

section Markers

variable {markers : ℕ → Prop} (hmarkers : ∀ n, markers n → n ≤ 10)
include hmarkers

set_option linter.unusedSectionVars false

mutual

theorem agree_fmtType : ∀ t u : TypeRef, t.Every ValidName markers →
    u.Every ValidName markers → Agree (fmtType log26 t) (fmtType log26 u) (t.key = u.key)
  | .infer _, _, _, _ => agree_abort_left
  | .generic _, _, _, _ => agree_abort_left
  | .erasedType, _, _, _ => agree_abort_left
  | .closure, _, _, _ => agree_abort_left
  | .generator, _, _, _ => agree_abort_left
  | .tuple ts, u, ht, hu => by
    cases u with
    | tuple us =>
      refine (Agree.write_seq ['T'] (agree_number_seq leads_fmtTypes leads_fmtTypes fun hl =>
        agree_fmtTypes ts us ht hu hl)).imp ?_
      rintro ⟨-, h⟩
      rw [TypeRef.key, TypeRef.key, h]
    | _ => exact agree_of_typeTag (by simp [typeTag])
  | .slice t, u, ht, hu => by
    cases u with
    | slice u =>
      refine (Agree.write_seq ['S'] (agree_fmtType t u ht hu)).imp fun h => ?_
      rw [TypeRef.key, TypeRef.key, h]
    | _ => exact agree_of_typeTag (by simp [typeTag])
  | .array _ (.unevaluated _), _, _, _ => agree_abort_left
  | .array t (.known size), u, ht, hu => by
    cases u with
    | array u size' =>
      cases size' with
      | unevaluated value => exact agree_abort_right
      | known size' =>
        have hlead : ∀ t, Leads (fmtType log26 t) (fun x => x.isDigit = false) := fun t =>
          (leads_fmtType t).mono fun x hx => hx ▸ typeTag_not_isDigit t
        refine (Agree.write_seq ['A'] (agree_number_seq (fun _ => hlead t) (fun _ => hlead u)
          fun _ => agree_fmtType t u ht hu)).imp ?_
        rintro ⟨hs, h⟩
        rw [TypeRef.key, TypeRef.key, h, UInt64.toNat_inj.mp hs]
    | _ => exact agree_of_typeTag (by simp [typeTag])
  | .path (.ufcsInherent _ _ _), _, _, _ => agree_abort_left
  | .path (.ufcsKnown _ _ _ _), _, _, _ => agree_abort_left
  | .path (.ufcsUnknown _ _ _), _, _, _ => agree_abort_left
  | .path (.generic g), u, ht, hu => by
    cases u with
    | path p =>
      cases p with
      | generic g' =>
        refine (Agree.write_seq ['G'] (agree_fmtGenericPath g g' ht hu)).imp fun h => ?_
        rw [TypeRef.key, TypeRef.key, Path.key, Path.key, h]
      | _ => exact agree_abort_right
    | _ => exact agree_of_typeTag (by simp [typeTag])
  | .traitObject g bs ms, u, ht, hu => by
    cases u with
    | traitObject g' bs' ms' =>
      obtain ⟨hg, hbs, hm, hms⟩ := ht
      obtain ⟨hg', hbs', hm', hms'⟩ := hu
      refine (Agree.write_seq ['D'] ((agree_fmtGenericPath g g' hg hg').seq fun _ =>
        agree_number_seq (fun hl => (leads_fmtAtyTypes hl).seq _)
          (fun hl => (leads_fmtAtyTypes hl).seq _) fun hl =>
            (agree_fmtAtyTypes bs bs' hbs hbs' hl).seq fun _ =>
              agree_markers (hmarkers _ hm) (hmarkers _ hm') fun hl => agree_fmtGenericPaths ms ms' hms hms' hl)).imp ?_
      rintro ⟨h₁, -, h₂, h₃⟩
      rw [TypeRef.key, TypeRef.key, h₁, h₂, h₃]
    | _ => exact agree_of_typeTag (by simp [typeTag])
  | .namedFunction p, u, ht, hu => by
    cases u with
    | namedFunction q =>
      refine (Agree.write_seq ['f'] (agree_fmtPath p q ht hu)).imp fun h => ?_
      rw [TypeRef.key, TypeRef.key, h]
    | _ => exact agree_of_typeTag (by simp [typeTag])
  | .function un v abi ts t, u, ht, hu => by
    cases u with
    | function un' v' abi' ts' t' =>
      obtain ⟨habi, hts, ht⟩ := ht
      obtain ⟨habi', hts', ht'⟩ := hu
      have hlead : ∀ ts t, Leads ((fmtTypes log26 ts).seq (fmtType log26 t))
          (fun x => x.isDigit = false) := by
        intro ts t
        cases ts with
        | nil =>
          rw [fmtTypes, write_nil_seq]
          exact (leads_fmtType t).mono fun x hx => hx ▸ typeTag_not_isDigit t
        | cons s ts => exact (leads_fmtTypes (by simp)).seq _
      refine (Agree.write_seq ['F'] (agree_fmtFnHeader_seq habi habi'
        ((leads_number _).seq _) ((leads_number _).seq _)
        (agree_number_seq (fun _ => hlead ts t) (fun _ => hlead ts' t') fun hl =>
          (agree_fmtTypes ts ts' hts hts' hl).seq fun _ => agree_fmtType t t' ht ht'))).imp ?_
      rintro ⟨rfl, rfl, -, h₁, h₂⟩
      rw [TypeRef.key, TypeRef.key, h₁, h₂]
    | _ => exact agree_of_typeTag (by simp [typeTag])
  | .borrow b t, u, ht, hu => by
    cases u with
    | borrow b' u =>
      refine ((agree_write_of_length (fmtBorrowType_length b b')).seq fun _ =>
        agree_fmtType t u ht hu).imp ?_
      rintro ⟨hb, h⟩
      rw [TypeRef.key, TypeRef.key, h, fmtBorrowType_injective (List.tail_eq_of_cons_eq hb)]
    | _ => exact agree_of_typeTag (by simp [typeTag])
  | .pointer b t, u, ht, hu => by
    cases u with
    | pointer b' u =>
      refine ((agree_write_of_length (fmtBorrowType_length b b')).seq fun _ =>
        agree_fmtType t u ht hu).imp ?_
      rintro ⟨hb, h⟩
      rw [TypeRef.key, TypeRef.key, h, fmtBorrowType_injective (List.tail_eq_of_cons_eq hb)]
    | _ => exact agree_of_typeTag (by simp [typeTag])
  | .primitive ct, u, ht, hu => by
    cases u with
    | primitive ct' =>
      refine (agree_write_of_length (by rfl)).imp fun h => ?_
      rw [← toCoreType_fmtCoreType ct, List.head_eq_of_cons_eq (List.tail_eq_of_cons_eq h),
        toCoreType_fmtCoreType]
    | diverge =>
      refine (agree_write_of_length (by rfl)).imp fun h => ?_
      exact absurd (List.head_eq_of_cons_eq (List.tail_eq_of_cons_eq h)) (fmtCoreType_ne_z ct)
    | _ => first | exact agree_abort_right | exact agree_of_typeTag (by simp [typeTag])
  | .diverge, u, ht, hu => by
    cases u with
    | primitive ct' =>
      refine (agree_write_of_length (by rfl)).imp fun h => ?_
      exact absurd (List.head_eq_of_cons_eq (List.tail_eq_of_cons_eq h)).symm (fmtCoreType_ne_z ct')
    | diverge => exact (agree_write ['C', 'z']).imp fun _ => rfl
    | _ => first | exact agree_abort_right | exact agree_of_typeTag (by simp [typeTag])
termination_by structural t => t

theorem agree_fmtTypes : ∀ ts us : List TypeRef, TypesEvery ValidName markers ts →
    TypesEvery ValidName markers us → ts.length = us.length →
    Agree (fmtTypes log26 ts) (fmtTypes log26 us) (typeKeys ts = typeKeys us)
  | [], [], _, _, _ => (agree_write []).imp fun _ => rfl
  | t :: ts, u :: us, hts, hus, hl => by
    refine ((agree_fmtType t u hts.1 hus.1).seq fun _ =>
      agree_fmtTypes ts us hts.2 hus.2 (Nat.succ.inj hl)).imp ?_
    rintro ⟨h₁, h₂⟩
    rw [typeKeys, typeKeys, h₁, h₂]
termination_by structural t => t

theorem agree_fmtAtyTypes : ∀ bs cs : List AtyEqual, AtysEvery ValidName markers bs →
    AtysEvery ValidName markers cs → bs.length = cs.length →
    Agree (fmtAtyTypes log26 bs) (fmtAtyTypes log26 cs) (atyKeys bs = atyKeys cs)
  | [], [], _, _, _ => (agree_write []).imp fun _ => rfl
  | .mk n s t :: bs, .mk n' s' u :: cs, hbs, hcs, hl => by
    refine ((agree_fmtType t u hbs.1 hcs.1).seq fun _ =>
      agree_fmtAtyTypes bs cs hbs.2 hcs.2 (Nat.succ.inj hl)).imp ?_
    rintro ⟨h₁, h₂⟩
    rw [atyKeys, atyKeys, AtyEqual.key, AtyEqual.key, h₁, h₂]
termination_by structural t => t

theorem agree_fmtPathParams : ∀ p q : PathParams, p.Every ValidName markers →
    q.Every ValidName markers →
    Agree (fmtPathParams log26 p) (fmtPathParams log26 q) (p.key = q.key)
  | .mk ts vs, .mk us ws, hp, hq => by
    refine ((agree_fmtParamCounts _ _ _ _).seq fun hl => (agree_fmtTypes ts us hp hq hl.1).seq
      fun _ => agree_fmtValues vs ws hl.2).imp ?_
    rintro ⟨-, h, rfl⟩
    rw [PathParams.key, PathParams.key, h]
termination_by structural t => t

theorem agree_fmtGenericPath : ∀ g g' : GenericPath, g.Every ValidName markers →
    g'.Every ValidName markers →
    Agree (fmtGenericPath log26 g) (fmtGenericPath log26 g') (g.key = g'.key)
  | .mk p pp, .mk p' pp', hg, hg' => by
    refine ((agree_fmtSimplePath hg.1 hg'.1).seq fun _ =>
      agree_fmtPathParams pp pp' hg.2 hg'.2).imp ?_
    rintro ⟨rfl, h⟩
    rw [GenericPath.key, GenericPath.key, h]
termination_by structural t => t

theorem agree_fmtGenericPaths : ∀ gs hs : List GenericPath,
    GenericPathsEvery ValidName markers gs → GenericPathsEvery ValidName markers hs →
    gs.length = hs.length → Agree (fmtGenericPaths log26 gs) (fmtGenericPaths log26 hs)
      (genericPathKeys gs = genericPathKeys hs)
  | [], [], _, _, _ => (agree_write []).imp fun _ => rfl
  | g :: gs, h :: hs, hg, hh, hl => by
    refine ((agree_fmtGenericPath g h hg.1 hh.1).seq fun _ =>
      agree_fmtGenericPaths gs hs hg.2 hh.2 (Nat.succ.inj hl)).imp ?_
    rintro ⟨h₁, h₂⟩
    rw [genericPathKeys, genericPathKeys, h₁, h₂]
termination_by structural t => t

theorem agree_fmtPath : ∀ p q : Path, p.Every ValidName markers →
    q.Every ValidName markers → Agree (fmtPath log26 p) (fmtPath log26 q) (p.key = q.key)
  | .generic g, .generic g', hp, hq => by
    refine (Agree.write_seq ['G'] (agree_fmtGenericPath g g' hp hq)).imp fun h => ?_
    rw [Path.key, Path.key, h]
  | .ufcsInherent t n pp, .ufcsInherent t' n' pp', hp, hq => by
    refine (Agree.write_seq ['I'] ((agree_fmtType t t' hp.1 hq.1).seq fun _ =>
      (agree_fmtName hp.2.1 hq.2.1).seq fun _ =>
        agree_fmtPathParams pp pp' hp.2.2 hq.2.2)).imp ?_
    rintro ⟨h₁, rfl, h₂⟩
    rw [Path.key, Path.key, h₁, h₂]
  | .ufcsKnown t g n pp, .ufcsKnown t' g' n' pp', hp, hq => by
    refine (Agree.write_seq ['Q'] ((agree_fmtType t t' hp.1 hq.1).seq fun _ =>
      (agree_fmtGenericPath g g' hp.2.1 hq.2.1).seq fun _ =>
        (agree_fmtName hp.2.2.1 hq.2.2.1).seq fun _ =>
          agree_fmtPathParams pp pp' hp.2.2.2 hq.2.2.2)).imp ?_
    rintro ⟨h₁, h₂, rfl, h₃⟩
    rw [Path.key, Path.key, h₁, h₂, h₃]
  | .ufcsUnknown _ _ _, _, _, _ => agree_abort_left
  | .generic _, .ufcsUnknown _ _ _, _, _ => agree_abort_right
  | .ufcsInherent _ _ _, .ufcsUnknown _ _ _, _, _ => agree_abort_right
  | .ufcsKnown _ _ _ _, .ufcsUnknown _ _ _, _, _ => agree_abort_right
  | .generic _, .ufcsInherent _ _ _, _, _ => agree_write_seq_of_ne (by decide)
  | .generic _, .ufcsKnown _ _ _ _, _, _ => agree_write_seq_of_ne (by decide)
  | .ufcsInherent _ _ _, .generic _, _, _ => agree_write_seq_of_ne (by decide)
  | .ufcsInherent _ _ _, .ufcsKnown _ _ _ _, _, _ => agree_write_seq_of_ne (by decide)
  | .ufcsKnown _ _ _ _, .generic _, _, _ => agree_write_seq_of_ne (by decide)
  | .ufcsKnown _ _ _ _, .ufcsInherent _ _ _, _, _ => agree_write_seq_of_ne (by decide)
termination_by structural t => t

end

end Markers

theorem symbol_eq_some {tag s : List Char} {m : Mangler} (h : symbol tag m = some s) :
    ∃ o c, m [] = some (o, c) ∧ s = tag ++ o := by
  obtain ⟨⟨o, c⟩, hm, rfl⟩ := Option.map_eq_some_iff.mp h
  exact ⟨o, c, hm, rfl⟩

theorem symbol_agree {tag s : List Char} {m m' : Mangler} {P : Prop} (h : Agree m m' P)
    (hm : symbol tag m = some s) (hm' : symbol tag m' = some s) : P := by
  obtain ⟨o, c, ho, rfl⟩ := symbol_eq_some hm
  obtain ⟨o', c', ho', he⟩ := symbol_eq_some hm'
  obtain rfl := List.append_cancel_left he
  exact h.of_eq ho ho'

end Mrustc.Mangling
