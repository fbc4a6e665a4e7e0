import Mrustc.Parse.Lex
import Mrustc.PrefixTable.Longest

/-! # The longest symbol -/

namespace Mrustc.Parse
open PrefixTable

def word (entry : List Char × SymType) : List ℕ := entry.1.map cp

theorem tokenmap_table : Table (tokenmap.map word) := by
  have hsorted : (tokenmap.map word).Pairwise (· < ·) := by decide +kernel
  have hclosed : (tokenmap.map word).all
      (fun w => w ≠ [] ∧ w.inits.all fun p => p = [] ∨ p ∈ tokenmap.map word) = true := by decide +kernel
  have hall (w : List ℕ) (hw : w ∈ tokenmap.map word) := of_decide_eq_true (List.all_eq_true.mp hclosed w hw)
  refine ⟨hsorted, fun w hw => (hall w hw).1, fun w hw p hp hne => ?_⟩
  have h := List.all_eq_true.mp (hall w hw).2 p ((List.mem_inits p w).mpr hp)
  exact (of_decide_eq_true h).resolve_left hne

/-- The first entry for a word that the text begins with and that no longer one of the table is. -/
def LongestSymbol (input : List ℕ) (best : Option SymType) (rest : List ℕ) : Prop :=
  match best with
  | none => rest = input ∧ ∀ entry ∈ tokenmap, ¬ word entry <+: input
  | some type => ∃ chars, (chars, type) ∈ tokenmap ∧ input = chars.map cp ++ rest ∧
      ∀ entry ∈ tokenmap, word entry <+: input → entry.1.length ≤ chars.length

variable {stop : LexError}

/-- The characters that are matched, and that there are no more. -/
theorem matchChars_eq_ok {chars left : List Char} {input rest : List ℕ}
    (h : matchChars stop chars input = .ok (left, rest)) : ∃ matched, chars = matched ++ left ∧
      input = matched.map cp ++ rest ∧ ∀ c ∈ left.head?, rest.head? ≠ some (cp c) := by
  induction chars generalizing input with
  | nil =>
    cases input <;>
    · cases h
      exact ⟨[], rfl, rfl, by simp⟩
  | cons c cs ih =>
    cases input with
    | nil =>
      cases h
      exact ⟨[], rfl, rfl, by simp⟩
    | cons ch input =>
      rw [matchChars] at h
      split_ifs at h with hch hend
      · rcases ih h with ⟨matched, rfl, rfl, hleft⟩
        exact ⟨c :: matched, rfl, by rw [hch]; rfl, hleft⟩
      · cases h
        exact ⟨[], rfl, rfl, by simpa using hch⟩

theorem matchChars_endOfFile (chars : List Char) (input : List ℕ) :
    ∃ out, matchChars .endOfFile chars input = .ok out := by
  induction chars generalizing input with
  | nil => cases input <;> exact ⟨_, rfl⟩
  | cons c cs ih =>
    cases input with
    | nil => exact ⟨_, rfl⟩
    | cons ch input =>
      rw [matchChars]
      split_ifs with hch hend
      · exact absurd rfl hend.2
      · exact ih input
      · exact ⟨_, rfl⟩

/-- The match that a pass holds: the type of the last entry whose word was found. -/
def BestOf (before : List (List Char × SymType)) (found : List ℕ) (best : Option SymType) : Prop :=
  match best with
  | none => found = []
  | some type => ∃ chars, (chars, type) ∈ before ∧ chars.map cp = found

theorem headD_lt {input : List ℕ} {n : ℕ} (h : input.headD 0 < n) : ∀ a ∈ input.head?, a < n := by
  cases input with
  | nil => simp
  | cons a input => simpa using h

theorem BestOf.mono {before before' : List (List Char × SymType)} {found : List ℕ} {best : Option SymType}
    (h : BestOf before found best) (hsub : ∀ e ∈ before, e ∈ before') : BestOf before' found best := by
  cases best with
  | none => exact h
  | some type =>
    rcases h with ⟨chars, hmem, heq⟩
    exact ⟨chars, hsub _ hmem, heq⟩

/-- The word of an entry that extends the match. -/
theorem word_eq {chars : List Char} {type : SymType} {found : List ℕ} (h : found <+: word (chars, type)) :
    word (chars, type) = found ++ (chars.drop found.length).map cp := by
  rcases h with ⟨s, hs⟩
  have : (chars.drop found.length).map cp = s := by
    rw [List.map_drop, show chars.map cp = found ++ s from hs.symm, List.drop_left]
  rw [this, hs]

theorem searchSymbol_longest {before after : List (List Char × SymType)} {found input rest : List ℕ}
    {best best' : Option SymType} (hs : Searched (before.map word) (after.map word) (found ++ input) found)
    (hbest : BestOf before found best)
    (h : searchSymbol stop after found.length best input = .ok (best', rest)) :
    ∃ found', found ++ input = found' ++ rest ∧ BestOf (before ++ after) found' best' ∧
      Longest ((before ++ after).map word) (found ++ input) found' := by
  induction after generalizing before found input best with
  | nil =>
    cases h
    rw [List.append_nil]
    exact ⟨found, rfl, hbest, hs.longest⟩
  | cons entry after ih =>
    rcases entry with ⟨chars, type⟩
    have hlen : (word (chars, type)).length = chars.length := List.length_map cp
    rw [searchSymbol] at h
    split_ifs at h with hstop
    · cases h
      have hlongest : Longest ((before ++ (chars, type) :: after).map word) (found ++ rest) found := by
        rw [List.map_append]
        by_cases hshort : chars.length ≤ found.length
        · exact hs.stop_short (hlen ▸ hshort)
        · have hword := word_eq (hs.extends_of_length_lt (hlen ▸ not_le.mp hshort))
          rw [List.drop_eq_getElem_cons (not_le.mp hshort)] at hword
          apply hs.stop_behind hword rfl
          apply headD_lt
          simpa [List.getElem?_eq_getElem (not_le.mp hshort)] using hstop.resolve_left hshort
      exact ⟨found, rfl, hbest.mono fun e he => List.mem_append_left _ he, hlongest⟩
    · rw [not_or, not_le] at hstop
      have hext := hs.extends_of_length_lt (hlen ▸ hstop.1)
      have hword := word_eq hext
      have happ : before ++ (chars, type) :: after = (before ++ [(chars, type)]) ++ after := by simp
      cases hmatch : matchChars stop (chars.drop found.length) input with
      | error e =>
        rw [hmatch] at h
        cases h
      | ok out =>
        rcases out with ⟨left, input'⟩
        rcases matchChars_eq_ok hmatch with ⟨matched, hdrop, rfl, hleft⟩
        rw [hmatch] at h
        dsimp only at h
        rw [hdrop, List.map_append] at hword
        rw [happ]
        by_cases hnil : left = []
        · rw [hnil, List.map_nil, List.append_nil] at hword
          have hfound : found ++ (matched.map cp ++ input') = word (chars, type) ++ input' := by
            rw [hword, List.append_assoc]
          have hpre : word (chars, type) <+: found ++ (matched.map cp ++ input') := hfound ▸ List.prefix_append _ _
          have htake := hs.take hext hpre
          rw [hfound] at htake ⊢
          have hfresh : BestOf (before ++ [(chars, type)]) (word (chars, type)) (some type) := ⟨chars, by simp, rfl⟩
          apply ih (by rw [List.map_append]; exact htake) hfresh
          rw [if_pos hnil, hnil, List.length_nil, Nat.sub_zero] at h
          rw [hlen]
          exact h
        · have hshort := hs.length_le_of_prefix (p := found ++ matched.map cp)
            (by rw [hword, ← List.append_assoc]; exact List.prefix_append _ _) (by simpa [hword] using hnil)
            (by rw [← List.append_assoc]; exact List.prefix_append _ _)
          have hmatched : matched = [] := by
            rw [List.length_append, List.length_map] at hshort
            exact List.length_eq_zero_iff.mp (by omega)
          subst hmatched
          have hskip := hs.skip hext fun hp => by
            rw [hword, List.map_nil, List.nil_append, List.nil_append, List.prefix_append_right_inj] at hp
            rcases List.exists_cons_of_ne_nil hnil with ⟨c, cs, rfl⟩
            rcases hp with ⟨t, rfl⟩
            exact hleft c rfl rfl
          have hofs : chars.length - left.length = found.length := by
            have := congrArg List.length hdrop
            rw [List.length_drop, List.nil_append] at this
            omega
          rw [if_neg hnil, hofs] at h
          apply ih (by rw [List.map_append]; exact hskip) (hbest.mono fun e he => List.mem_append_left _ he) h

/-- `getSymbol` returns the longest entry that the input begins with, and consumes its characters. -/
theorem getSymbol_longest {input rest : List ℕ} {best : Option SymType}
    (h : getSymbol stop input = .ok (best, rest)) : LongestSymbol input best rest := by
  have hsearch : searchSymbol stop tokenmap 0 none input = .ok (best, rest) := by
    cases input with
    | nil => cases h
    | cons ch input => exact h
  have hstart : Searched (([] : List (List Char × SymType)).map word) (tokenmap.map word) ([] ++ input) [] :=
    searched_nil tokenmap_table
  have hnone : BestOf [] [] none := rfl
  rcases searchSymbol_longest hstart hnone hsearch with ⟨found, heq, hbest, hlongest⟩
  rw [List.nil_append] at heq hbest hlongest
  have hle (entry : List Char × SymType) (hmem : entry ∈ tokenmap) (hp : word entry <+: input) :
      word entry <+: found := hlongest.longest _ (List.mem_map_of_mem hmem) hp
  cases best with
  | none =>
    rw [show found = [] from hbest] at heq hle
    refine ⟨heq.symm, fun entry hmem hp => ?_⟩
    exact Table.ne_nil tokenmap_table _ (List.mem_map_of_mem hmem) (List.prefix_nil.mp (hle entry hmem hp))
  | some type =>
    rcases hbest with ⟨chars, hmem, rfl⟩
    refine ⟨chars, hmem, heq, fun entry hmem hp => ?_⟩
    simpa [word] using (hle entry hmem hp).length_le

theorem searchSymbol_endOfFile (entries : List (List Char × SymType)) (ofs : ℕ) (best : Option SymType)
    (input : List ℕ) : ∃ out, searchSymbol .endOfFile entries ofs best input = .ok out := by
  induction entries generalizing ofs best input with
  | nil => exact ⟨_, rfl⟩
  | cons entry entries ih =>
    rw [searchSymbol]
    split_ifs
    · exact ⟨_, rfl⟩
    · rcases matchChars_endOfFile (entry.1.drop ofs) input with ⟨out, hout⟩
      rw [hout]
      exact ih _ _ _

theorem getSymbol_endOfFile {input : List ℕ} (h : input ≠ []) : ∃ out, getSymbol .endOfFile input = .ok out := by
  rcases List.exists_cons_of_ne_nil h with ⟨ch, input, rfl⟩
  exact searchSymbol_endOfFile tokenmap 0 none (ch :: input)

theorem eq_of_word_eq {entry entry' : List Char × SymType} (h : entry ∈ tokenmap) (h' : entry' ∈ tokenmap)
    (heq : word entry = word entry') : entry = entry' :=
  List.inj_on_of_nodup_map ((Table.sorted tokenmap_table).imp ne_of_lt) h h' heq

/-- The symbol of an entry, where no longer one fits. -/
theorem getSymbol_eq_some {chars : List Char} {type : SymType} (hmem : (chars, type) ∈ tokenmap) {rest : List ℕ}
    (hlong : ∀ entry ∈ tokenmap, word entry <+: chars.map cp ++ rest → entry.1.length ≤ chars.length) :
    getSymbol .endOfFile (chars.map cp ++ rest) = .ok (some type, rest) := by
  have hne : chars.map cp ++ rest ≠ [] := by
    have := Table.ne_nil tokenmap_table _ (List.mem_map_of_mem hmem)
    simpa [word] using fun h => absurd h (by simpa [word] using this)
  rcases getSymbol_endOfFile hne with ⟨⟨best, rest'⟩, hout⟩
  have h := getSymbol_longest hout
  rw [hout]
  cases best with
  | none => exact absurd (List.prefix_append _ _) (h.2 _ hmem)
  | some type' =>
    rcases h with ⟨chars', hmem', heq, hlongest⟩
    have hle := hlong _ hmem' (heq ▸ List.prefix_append _ _)
    have hge : chars.length ≤ chars'.length := hlongest _ hmem (List.prefix_append _ _)
    rcases List.append_inj heq (by simpa using le_antisymm hge hle) with ⟨hchars, rfl⟩
    rw [show type' = type from congrArg Prod.snd (eq_of_word_eq hmem' hmem hchars.symm)]

end Mrustc.Parse
