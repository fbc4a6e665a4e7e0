import Mrustc.Mangling.Injectivity

/-! # Injectivity of symbols

Symbols are injective on the paths and types whose trait objects have at most `n` markers
exactly when `n` is at most ten.
-/

namespace Mrustc.Mangling
open Hir Codec Emitter

section Injective

variable (log26 : ℕ → ℕ) (markers : ℕ → Prop)

/-- Paths with valid names and one symbol are the same path. -/
def ManglePathInjective : Prop :=
  ∀ p q : Path, p.Every ValidName markers → q.Every ValidName markers → ∀ s,
    transManglePath log26 p = some s → transManglePath log26 q = some s → p.Same q

/-- Types with valid names and one symbol are the same type. -/
def MangleTypeRefInjective : Prop :=
  ∀ t u : TypeRef, t.Every ValidName markers → u.Every ValidName markers → ∀ s,
    transMangleTypeRef log26 t = some s → transMangleTypeRef log26 u = some s → t.Same u

end Injective

theorem validName_iff {s : RcString} : ValidName s ↔
    (s.all fun c => c.isAlphanum || c == '_' || c == '#') = true ∧ s.count '#' ≤ 1 ∧
      ¬ ['#', '_'] <+: s := by
  constructor
  · intro h
    exact ⟨by simpa [or_assoc] using h.chars, h.oneHash, h.noHashUnderscore⟩
  · intro h
    exact ⟨by simpa [or_assoc] using h.1, h.2.1, h.2.2⟩

instance (s : RcString) : Decidable (ValidName s) := decidable_of_iff' _ validName_iff

/-- The trait `crate::comp<types>`. -/
def marker (crate comp : Char) (types : List TypeRef) : GenericPath :=
  .mk ⟨[crate], [[comp]]⟩ (.mk types [])

def arrayOfSlices (size : UInt64) (ct : CoreType) : TypeRef :=
  .array (.slice (.primitive ct)) (.known size)

/-- Ten type parameters, whose text is that of a plain name and nine names with a hash. -/
def nameLikeTypes : List TypeRef :=
  .pointer .unique (.pointer .unique (.pointer .unique (.slice (.primitive .u8)))) ::
    [.u8, .i8, .u16, .i16, .u32, .i32, .u64, .i64].map (arrayOfSlices 3) ++
      [arrayOfSlices 81 .u128]

def elevenMarkers : TypeRef :=
  .traitObject (marker 'x' 'y' []) [] (marker 'a' 'b' nameLikeTypes ::
    [('c', 'd'), ('e', 'f'), ('g', 'h'), ('i', 'j'), ('k', 'l'), ('m', 'n'), ('o', 'p'),
      ('q', 'r'), ('s', 't'), ('u', 'v')].map fun m => marker m.1 m.2 [])

def elevenComponents : List RcString :=
  ["b", "gPuPuPuSCa", "#SCa", "#SCb", "#SCc", "#SCd", "#SCe", "#SCf", "#SCg", "#SCh",
    "#SCi1c1c1d0g1c1e1f0g1c1g1h0g1c1i1j0g1c1k1l0g1c1m1n0g1c1o1p0g1c1q1r0g1c1s1t0g1c1u1v"].map
      String.toList

theorem elevenComponents_eq : elevenComponents =
    [['b'], ['g', 'P', 'u', 'P', 'u', 'P', 'u', 'S', 'C', 'a'], ['#', 'S', 'C', 'a'], ['#', 'S', 'C', 'b'], ['#',
      'S', 'C', 'c'], ['#', 'S', 'C', 'd'], ['#', 'S', 'C', 'e'], ['#', 'S', 'C', 'f'], ['#', 'S', 'C', 'g'], ['#',
      'S', 'C', 'h'], ['#', 'S', 'C', 'i', '1', 'c', '1', 'c', '1', 'd', '0', 'g', '1', 'c', '1', 'e', '1', 'f',
      '0', 'g', '1', 'c', '1', 'g', '1', 'h', '0', 'g', '1', 'c', '1', 'i', '1', 'j', '0', 'g', '1', 'c', '1', 'k',
      '1', 'l', '0', 'g', '1', 'c', '1', 'm', '1', 'n', '0', 'g', '1', 'c', '1', 'o', '1', 'p', '0', 'g', '1', 'c',
      '1', 'q', '1', 'r', '0', 'g', '1', 'c', '1', 's', '1', 't', '0', 'g', '1', 'c', '1', 'u', '1', 'v']] := by
  iterate 11 refine congrArg₂ List.cons String.toList_ofList ?_
  rfl

def oneMarker : TypeRef :=
  .traitObject (marker 'x' 'y' []) [] [.mk ⟨['a'], elevenComponents⟩ (.mk [] [])]

theorem genericPathsEvery_of_forall {name : RcString → Prop} :
    ∀ {gs : List GenericPath}, (∀ g ∈ gs, g.Every name markers) → GenericPathsEvery name markers gs
  | [], _ => trivial
  | g :: _, h => ⟨h g List.mem_cons_self,
      genericPathsEvery_of_forall fun g' hg' => h g' (List.mem_cons_of_mem g hg')⟩

theorem marker_every {crate comp : Char} {types : List TypeRef}
    (hcrate : ValidName [crate]) (hcomp : ValidName [comp])
    (htypes : TypesEvery ValidName markers types) :
    (marker crate comp types).Every ValidName markers :=
  ⟨⟨hcrate, fun _ hc => List.mem_singleton.mp hc ▸ hcomp⟩, htypes⟩

theorem elevenMarkers_every (h : markers 11) : elevenMarkers.Every ValidName markers := by
  have hpairs : ∀ m ∈ [('c', 'd'), ('e', 'f'), ('g', 'h'), ('i', 'j'), ('k', 'l'), ('m', 'n'),
      ('o', 'p'), ('q', 'r'), ('s', 't'), ('u', 'v')], ValidName [m.1] ∧ ValidName [m.2] := by
    decide
  refine ⟨marker_every (by decide) (by decide) trivial, trivial, h,
    marker_every (by decide) (by decide) ?_, genericPathsEvery_of_forall fun g hg => ?_⟩
  · simp [nameLikeTypes, arrayOfSlices, TypesEvery, TypeRef.Every]
  · obtain ⟨m, hm, rfl⟩ := List.mem_map.mp hg
    exact marker_every (hpairs m hm).1 (hpairs m hm).2 trivial

theorem genericPath_every {crate : RcString} {comps : List RcString} (hcrate : ValidName crate)
    (hcomps : ∀ c ∈ comps, ValidName c) :
    (GenericPath.mk ⟨crate, comps⟩ (.mk [] [])).Every ValidName markers := ⟨⟨hcrate, hcomps⟩, trivial⟩

theorem oneMarker_every (h : markers 1) : oneMarker.Every ValidName markers := by
  have hcomps : ∀ c ∈ elevenComponents, ValidName c := by
    rw [elevenComponents_eq]
    decide +kernel
  exact ⟨marker_every (by decide) (by decide) trivial, trivial, h,
    genericPath_every (by decide) hcomps, trivial⟩

theorem elevenMarkers_not_same : ¬ elevenMarkers.Same oneMarker := by
  intro h
  rw [TypeRef.Same, elevenMarkers, oneMarker, TypeRef.key, TypeRef.key] at h
  injection h with _ _ hmarkers
  have hlength := congrArg List.length hmarkers
  simp [genericPathKeys] at hlength

/-- The common text of the two types. -/
def collidingText : List Char :=
  ("D1c1x1y0g0111c1a1b10gPuPuPuSCaA3SCaA3SCbA3SCcA3SCdA3SCeA3SCfA3SCgA3SChA81SCi1c1c1d0g1c1e1f0g" ++
    "1c1g1h0g1c1i1j0g1c1k1l0g1c1m1n0g1c1o1p0g1c1q1r0g1c1s1t0g1c1u1v0g").toList

theorem toList_first : "D1c1x1y0g0111c1a1b10gPuPuPuSCaA3SCaA3SCbA3SCcA3SCdA3SCeA3SCfA3SCgA3SChA81SCi1c1c1d0g1c1e1f0g".toList =
    ['D', '1', 'c', '1', 'x', '1', 'y', '0', 'g', '0', '1', '1', '1', 'c', '1', 'a', '1', 'b', '1', '0', 'g', 'P',
      'u', 'P', 'u', 'P', 'u', 'S', 'C', 'a', 'A', '3', 'S', 'C', 'a', 'A', '3', 'S', 'C', 'b', 'A', '3', 'S', 'C',
      'c', 'A', '3', 'S', 'C', 'd', 'A', '3', 'S', 'C', 'e', 'A', '3', 'S', 'C', 'f', 'A', '3', 'S', 'C', 'g', 'A',
      '3', 'S', 'C', 'h', 'A', '8', '1', 'S', 'C', 'i', '1', 'c', '1', 'c', '1', 'd', '0', 'g', '1', 'c', '1', 'e',
      '1', 'f', '0', 'g'] :=
  String.toList_ofList

theorem toList_second : "1c1g1h0g1c1i1j0g1c1k1l0g1c1m1n0g1c1o1p0g1c1q1r0g1c1s1t0g1c1u1v0g".toList =
    ['1', 'c', '1', 'g', '1', 'h', '0', 'g', '1', 'c', '1', 'i', '1', 'j', '0', 'g', '1', 'c', '1', 'k', '1', 'l',
      '0', 'g', '1', 'c', '1', 'm', '1', 'n', '0', 'g', '1', 'c', '1', 'o', '1', 'p', '0', 'g', '1', 'c', '1', 'q',
      '1', 'r', '0', 'g', '1', 'c', '1', 's', '1', 't', '0', 'g', '1', 'c', '1', 'u', '1', 'v', '0', 'g'] :=
  String.toList_ofList

theorem collidingText_eq : collidingText =
    ['D', '1', 'c', '1', 'x', '1', 'y', '0', 'g', '0', '1', '1', '1', 'c', '1', 'a', '1', 'b', '1', '0', 'g', 'P',
      'u', 'P', 'u', 'P', 'u', 'S', 'C', 'a', 'A', '3', 'S', 'C', 'a', 'A', '3', 'S', 'C', 'b', 'A', '3', 'S', 'C',
      'c', 'A', '3', 'S', 'C', 'd', 'A', '3', 'S', 'C', 'e', 'A', '3', 'S', 'C', 'f', 'A', '3', 'S', 'C', 'g', 'A',
      '3', 'S', 'C', 'h', 'A', '8', '1', 'S', 'C', 'i', '1', 'c', '1', 'c', '1', 'd', '0', 'g', '1', 'c', '1', 'e',
      '1', 'f', '0', 'g'] ++
      ['1', 'c', '1', 'g', '1', 'h', '0', 'g', '1', 'c', '1', 'i', '1', 'j', '0', 'g', '1', 'c', '1', 'k', '1',
        'l', '0', 'g', '1', 'c', '1', 'm', '1', 'n', '0', 'g', '1', 'c', '1', 'o', '1', 'p', '0', 'g', '1', 'c',
        '1', 'q', '1', 'r', '0', 'g', '1', 'c', '1', 's', '1', 't', '0', 'g', '1', 'c', '1', 'u', '1', 'v', '0',
        'g'] := by
  unfold collidingText
  exact String.toList_append.trans (congrArg₂ HAppend.hAppend toList_first toList_second)

theorem toList_names : "xyabcdefghijklmnopqrstuv".toList =
    ['x', 'y', 'a', 'b', 'c', 'd', 'e', 'f', 'g', 'h', 'i', 'j', 'k', 'l', 'm', 'n', 'o', 'p', 'q', 'r', 's', 't',
      'u', 'v'] :=
  String.toList_ofList

theorem seq_eq {σ β : Type} {a b : Emitter σ β} {c c' c'' : σ} {s t : List β} (ha : a c = some (s, c'))
    (hb : b c' = some (t, c'')) : a.seq b c = some (s ++ t, c'') := by
  simp only [seq, ha, hb]

/-- New names are written in full and added to the cache. -/
theorem fmtNames_new {names : List RcString} {texts : List (List Char)} {c : List RcString}
    (hraw : names.map fmtRawName = texts.map some) (hnew : (c ++ names).Nodup) :
    fmtNames log26 names c = some (texts.flatten, c ++ names) := by
  induction names generalizing c texts with
  | nil =>
    cases texts with
    | nil => exact congrArg (fun c => some ([], c)) (List.append_nil c).symm
    | cons _ _ => cases hraw
  | cons name names ih =>
    cases texts with
    | nil => cases hraw
    | cons text texts =>
      rw [List.map_cons, List.map_cons] at hraw
      injection hraw with hname hnames
      have hnot : name ∉ c := fun hc => (List.nodup_append.mp hnew).2.2 _ hc _ List.mem_cons_self rfl
      have hhead : fmtName log26 name c = some (text, c ++ [name]) := by
        simp only [fmtName, List.idxOf?_eq_none_iff.mpr hnot, hname, Option.map_some]
      rw [List.append_cons] at hnew ⊢
      exact seq_eq hhead (ih hnames hnew)

theorem fmtGenericPath_new {crate : RcString} {comps : List RcString} {types : List TypeRef}
    {texts : List (List Char)} {c c' : List RcString} {o : List Char}
    (hraw : (crate :: comps).map fmtRawName = texts.map some) (hnew : (c ++ crate :: comps).Nodup)
    (htypes : fmtTypes log26 types (c ++ crate :: comps) = some (o, c')) :
    fmtGenericPath log26 (.mk ⟨crate, comps⟩ (.mk types [])) c =
      some (Nat.toDigits 10 comps.length ++ 'c' :: texts.flatten ++
        (Nat.toDigits 10 types.length ++ 'g' :: o), c') := by
  have hparams : fmtPathParams log26 (.mk types []) (c ++ crate :: comps) =
      some (Nat.toDigits 10 types.length ++ ['g'] ++ (o ++ []), c') := by
    rw [fmtPathParams]
    exact seq_eq (seq_eq rfl rfl) (seq_eq htypes rfl)
  have hpath : fmtSimplePath log26 ⟨crate, comps⟩ c =
      some (Nat.toDigits 10 comps.length ++ (['c'] ++ texts.flatten), c ++ crate :: comps) :=
    seq_eq rfl (seq_eq rfl (fmtNames_new hraw hnew))
  have hall := seq_eq hpath hparams
  rw [List.append_nil, List.append_assoc (Nat.toDigits 10 types.length)] at hall
  exact hall

theorem fmtTypes_nil {c : List RcString} : fmtTypes log26 [] c = some ([], c) := rfl

/-- The names of plain markers. -/
def markerNames (ms : List (Char × Char)) : List RcString := ms.flatMap fun m => [[m.1], [m.2]]

theorem fmtGenericPaths_markers {ms : List (Char × Char)} {c : List RcString}
    (hraw : ∀ m ∈ ms, fmtRawName [m.1] = some ['1', m.1] ∧ fmtRawName [m.2] = some ['1', m.2])
    (hnew : (c ++ markerNames ms).Nodup) :
    fmtGenericPaths log26 (ms.map fun m => marker m.1 m.2 []) c =
      some (ms.flatMap fun m => ['1', 'c', '1', m.1, '1', m.2, '0', 'g'], c ++ markerNames ms) := by
  induction ms generalizing c with
  | nil => exact congrArg (fun c => some ([], c)) (List.append_nil c).symm
  | cons m ms ih =>
    have hm := hraw m List.mem_cons_self
    have hsplit : c ++ markerNames (m :: ms) = c ++ [[m.1], [m.2]] ++ markerNames ms := by
      simp [markerNames]
    rw [hsplit] at hnew ⊢
    have hhead : fmtGenericPath log26 (marker m.1 m.2 []) c =
        some (['1', 'c', '1', m.1, '1', m.2, '0', 'g'], c ++ [[m.1], [m.2]]) := by
      have htexts : [[m.1], [m.2]].map fmtRawName = [['1', m.1], ['1', m.2]].map some := by
        simp [hm.1, hm.2]
      rw [marker, fmtGenericPath_new htexts (List.nodup_append.mp hnew).1 fmtTypes_nil]
      simp [show Nat.toDigits 10 1 = ['1'] from rfl]
    exact seq_eq hhead (ih (fun m' hm' => hraw m' (List.mem_cons_of_mem _ hm')) hnew)

theorem fmtType_arrayOfSlices (size : UInt64) (ct : CoreType) (c : List RcString) :
    fmtType log26 (arrayOfSlices size ct) c =
      some ('A' :: Nat.toDigits 10 size.toNat ++ ['S', 'C', fmtCoreType ct], c) := by
  have h : fmtType log26 (arrayOfSlices size ct) c =
      some (['A'] ++ (Nat.toDigits 10 size.toNat ++ (['S'] ++ ['C', fmtCoreType ct])), c) :=
    seq_eq rfl (seq_eq rfl (seq_eq rfl rfl))
  exact h

theorem fmtTypes_arrays (cts : List CoreType) (types : List TypeRef) {c c' : List RcString} {o : List Char}
    (h : fmtTypes log26 types c = some (o, c')) :
    fmtTypes log26 (cts.map (arrayOfSlices 3) ++ types) c =
      some (cts.flatMap (fun ct => ['A', '3', 'S', 'C', fmtCoreType ct]) ++ o, c') := by
  induction cts with
  | nil => exact h
  | cons ct cts ih =>
    apply (seq_eq (fmtType_arrayOfSlices 3 ct c) ih).trans
    rw [List.flatMap_cons, List.append_assoc]
    rfl

theorem fmtTypes_nameLikeTypes (c : List RcString) : fmtTypes log26 nameLikeTypes c =
    some (['P', 'u', 'P', 'u', 'P', 'u', 'S', 'C', 'a', 'A', '3', 'S', 'C', 'a', 'A', '3', 'S', 'C', 'b', 'A', '3', 'S',
      'C', 'c', 'A', '3', 'S', 'C', 'd', 'A', '3', 'S', 'C', 'e', 'A', '3', 'S', 'C', 'f', 'A', '3', 'S', 'C', 'g',
      'A', '3', 'S', 'C', 'h', 'A', '8', '1', 'S', 'C', 'i'], c) := by
  have hpointer : fmtType log26
      (.pointer .unique (.pointer .unique (.pointer .unique (.slice (.primitive .u8))))) c =
        some (['P', 'u', 'P', 'u', 'P', 'u', 'S', 'C', 'a'], c) := by
    rfl
  have hlast : fmtTypes log26 [arrayOfSlices 81 .u128] c = some (_, c) :=
    seq_eq (fmtType_arrayOfSlices 81 .u128 c) fmtTypes_nil
  exact seq_eq hpointer (fmtTypes_arrays _ _ hlast)

/-- The names of the ten markers without arguments. -/
def lastMarkers : List (Char × Char) :=
  [('c', 'd'), ('e', 'f'), ('g', 'h'), ('i', 'j'), ('k', 'l'), ('m', 'n'), ('o', 'p'), ('q', 'r'), ('s', 't'),
    ('u', 'v')]

/-- The text of a path of two one-letter names. -/
theorem fmtRawName_xy : [['x'], ['y']].map fmtRawName = [['1', 'x'], ['1', 'y']].map some := rfl

theorem fmtType_elevenMarkers : fmtType log26 elevenMarkers [] =
    some (collidingText, "xyabcdefghijklmnopqrstuv".toList.map fun x => [x]) := by
  have hfirst : fmtGenericPath log26 (marker 'x' 'y' []) [] = some (_, [['x'], ['y']]) :=
    fmtGenericPath_new fmtRawName_xy (by decide +kernel) fmtTypes_nil
  have hab : [['a'], ['b']].map fmtRawName = [['1', 'a'], ['1', 'b']].map some := rfl
  have hsecond : fmtGenericPath log26 (marker 'a' 'b' nameLikeTypes) [['x'], ['y']] =
      some (_, [['x'], ['y'], ['a'], ['b']]) :=
    fmtGenericPath_new hab (by decide +kernel) (fmtTypes_nameLikeTypes _)
  have hraw : ∀ m ∈ lastMarkers, fmtRawName [m.1] = some ['1', m.1] ∧ fmtRawName [m.2] = some ['1', m.2] := by
    decide +kernel
  have hnew : ([['x'], ['y'], ['a'], ['b']] ++ markerNames lastMarkers).Nodup := by decide +kernel
  have hrest : fmtGenericPaths log26 _ _ = some (_, _) := fmtGenericPaths_markers hraw hnew
  rw [collidingText_eq, toList_names]
  refine (seq_eq rfl (seq_eq hfirst (seq_eq rfl (seq_eq rfl (seq_eq rfl (seq_eq hsecond hrest)))))).trans ?_
  decide +kernel

theorem fmtType_oneMarker : fmtType log26 oneMarker [] =
    some (collidingText, ['x'] :: ['y'] :: ['a'] :: elevenComponents) := by
  have hfirst : fmtGenericPath log26 (marker 'x' 'y' []) [] = some (_, [['x'], ['y']]) :=
    fmtGenericPath_new fmtRawName_xy (by decide +kernel) fmtTypes_nil
  have hnames : (['a'] :: elevenComponents).map fmtRawName =
      ((['a'] :: elevenComponents).map fun name => (fmtRawName name).getD []).map some := by
    rw [elevenComponents_eq]
    decide +kernel
  have hsecond : fmtGenericPath log26 (.mk ⟨['a'], elevenComponents⟩ (.mk [] [])) [['x'], ['y']] =
      some (_, [['x'], ['y']] ++ ['a'] :: elevenComponents) :=
    fmtGenericPath_new hnames (by rw [elevenComponents_eq]; decide +kernel) fmtTypes_nil
  refine (seq_eq rfl (seq_eq hfirst (seq_eq rfl (seq_eq rfl (seq_eq rfl (seq_eq hsecond rfl)))))).trans ?_
  rw [collidingText_eq, elevenComponents_eq]
  decide +kernel

/-- The item `z` of an inherent implementation. -/
def inherentItem (t : TypeRef) : Path := .ufcsInherent t ['z'] (.mk [] [])

theorem fmtPath_inherentItem {t : TypeRef} {o : List Char} {c : List RcString}
    (ht : fmtType log26 t [] = some (o, c)) (hz : c.idxOf? ['z'] = none) :
    fmtPath log26 (inherentItem t) [] = some ('I' :: o ++ "1z0g".toList, c ++ [['z']]) := by
  have hname : fmtName log26 ['z'] c = some (['1', 'z'], c ++ [['z']]) := by
    rw [fmtName, hz]
    rfl
  simp only [inherentItem, fmtPath, seq, write, ht, hname]
  rfl

theorem transMangleTypeRef_eq {t : TypeRef} {o : List Char} {c : List RcString}
    (ht : fmtType log26 t [] = some (o, c)) :
    transMangleTypeRef log26 t = some (['Z', 'R', 'T'] ++ o) := by
  rw [transMangleTypeRef, symbol, ht, Option.map_some]

theorem transManglePath_eq {p : Path} {o : List Char} {c : List RcString}
    (hp : fmtPath log26 p [] = some (o, c)) :
    transManglePath log26 p = some (['Z', 'R'] ++ o) := by
  rw [transManglePath, symbol, hp, Option.map_some]

theorem transMangleTypeRef_injective_iff (log26 : ℕ → ℕ) (n : ℕ) :
    MangleTypeRefInjective log26 (· ≤ n) ↔ n ≤ 10 := by
  constructor
  · intro h
    by_contra hn
    have := h _ _ (elevenMarkers_every (by omega)) (oneMarker_every (by omega)) _
      (transMangleTypeRef_eq fmtType_elevenMarkers) (transMangleTypeRef_eq fmtType_oneMarker)
    exact elevenMarkers_not_same this
  · intro hn t u ht hu s hs hs'
    exact symbol_agree (agree_fmtType (fun m hm => hm.trans hn) t u ht hu) hs hs'

theorem transManglePath_injective_iff (log26 : ℕ → ℕ) (n : ℕ) :
    ManglePathInjective log26 (· ≤ n) ↔ n ≤ 10 := by
  constructor
  · intro h
    by_contra hn
    have := h (inherentItem elevenMarkers) (inherentItem oneMarker)
      ⟨elevenMarkers_every (by omega), by decide, trivial⟩
      ⟨oneMarker_every (by omega), by decide, trivial⟩ _
      (transManglePath_eq (fmtPath_inherentItem fmtType_elevenMarkers (by rw [toList_names]; rfl)))
      (transManglePath_eq (fmtPath_inherentItem fmtType_oneMarker (by rw [elevenComponents_eq]; rfl)))
    refine elevenMarkers_not_same ?_
    injection this
  · intro hn p q hp hq s hs hs'
    exact symbol_agree (agree_fmtPath (fun m hm => hm.trans hn) p q hp hq) hs hs'

/-- Symbols name one path or type each, up to ten markers in a trait object and no further. -/
theorem symbols_injective_iff (log26 : ℕ → ℕ) (n : ℕ) :
    (ManglePathInjective log26 (· ≤ n) ↔ n ≤ 10) ∧
      (MangleTypeRefInjective log26 (· ≤ n) ↔ n ≤ 10) :=
  ⟨transManglePath_injective_iff log26 n, transMangleTypeRef_injective_iff log26 n⟩

/-- Two types with valid names share a symbol. -/
theorem symbols_collide :
    elevenMarkers.Every ValidName (fun _ => True) ∧ oneMarker.Every ValidName (fun _ => True) ∧
      transMangleTypeRef (Nat.log 26) elevenMarkers = some (['Z', 'R', 'T'] ++ collidingText) ∧
      transMangleTypeRef (Nat.log 26) oneMarker = some (['Z', 'R', 'T'] ++ collidingText) ∧
      ¬ elevenMarkers.Same oneMarker :=
  ⟨elevenMarkers_every trivial, oneMarker_every trivial, transMangleTypeRef_eq fmtType_elevenMarkers,
    transMangleTypeRef_eq fmtType_oneMarker, elevenMarkers_not_same⟩

end Mrustc.Mangling
