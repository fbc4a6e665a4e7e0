import Mathlib.Data.List.Lex
import Mathlib.Order.Basic
import Mathlib.Tactic

/-! # Longest match in a sorted table of words

One pass over a table finds the longest word that a text begins with, where the table is sorted and holds every prefix
of its words. The pass keeps the longest match so far.
-/

namespace Mrustc.PrefixTable

variable {α : Type*} [LinearOrder α]

theorem append_lt_append {x y : List α} (h : x < y) (hne : ¬ x <+: y) (z z' : List α) : x ++ z < y ++ z' := by
  induction x generalizing y with
  | nil => exact absurd List.nil_prefix hne
  | cons a x ih =>
    cases y with
    | nil => exact absurd h (List.not_lt_nil _)
    | cons b y =>
      rw [List.cons_append, List.cons_append, List.cons_lt_cons_iff]
      rcases List.cons_lt_cons_iff.mp h with hlt | ⟨rfl, hlt⟩
      · exact Or.inl hlt
      · exact Or.inr ⟨rfl, ih hlt fun hp => hne (List.cons_prefix_cons.mpr ⟨rfl, hp⟩)⟩

theorem lt_of_prefix {p w : List α} (hp : p <+: w) (hne : p ≠ w) : p < w := by
  rcases hp with ⟨s, rfl⟩
  have hs : s ≠ [] := fun h => hne (by rw [h, List.append_nil])
  rcases List.exists_cons_of_ne_nil hs with ⟨a, s', rfl⟩
  have h : p ++ [] < p ++ a :: s' := List.append_left_lt (List.nil_lt_cons a s')
  rwa [List.append_nil] at h

theorem lt_take {x y : List α} (h : x < y) (hne : ¬ x <+: y) (hlen : x.length < y.length) : x < y.take x.length := by
  have hxlen : (y.take x.length).length = x.length := List.length_take_of_le hlen.le
  by_contra hle
  rcases (not_lt.mp hle).eq_or_lt with heq | hlt
  · exact hne (heq ▸ List.take_prefix _ y)
  · have hnp : ¬ y.take x.length <+: x := fun hp => hlt.ne (hp.eq_of_length hxlen)
    have := append_lt_append hlt hnp (y.drop x.length) []
    rw [List.take_append_drop, List.append_nil] at this
    exact this.not_gt h

/-- A table of words: sorted, without the empty word, and with every other prefix of its words. -/
structure Table (words : List (List α)) : Prop where
  sorted : words.Pairwise (· < ·)
  ne_nil : ∀ w ∈ words, w ≠ []
  closed : ∀ w ∈ words, ∀ p, p <+: w → p ≠ [] → p ∈ words

/-- The longest word that a text begins with; the empty word where there is none. -/
structure Longest (words : List (List α)) (text found : List α) : Prop where
  mem : found = [] ∨ found ∈ words
  isPrefix : found <+: text
  longest : ∀ w ∈ words, w <+: text → w <+: found

/-- The pass over a table behind the words `before`, with the longest match `found` so far. -/
structure Searched (before after : List (List α)) (text found : List α) : Prop where
  table : Table (before ++ after)
  seen : Longest before text found
  extends_found : ∀ w ∈ before, found < w → found <+: w

variable {before after : List (List α)} {text found w : List α}

theorem searched_nil {words : List (List α)} (h : Table words) : Searched [] words text [] :=
  ⟨h, ⟨Or.inl rfl, List.nil_prefix, by simp⟩, by simp⟩

namespace Searched

theorem longest (h : Searched before [] text found) : Longest before text found := h.seen

theorem lt_head (h : Searched before (w :: after) text found) : found < w := by
  have hw : w ≠ [] := h.table.ne_nil w (by simp)
  rcases h.seen.mem with rfl | hmem
  · exact lt_of_prefix List.nil_prefix hw.symm
  · exact (List.pairwise_append.mp h.table.sorted).2.2 found hmem w List.mem_cons_self

theorem lt_after (h : Searched before (w :: after) text found) {v : List α} (hv : v ∈ after) : w < v :=
  List.rel_of_pairwise_cons (List.pairwise_append.mp h.table.sorted).2.1 hv

theorem mem_before {p : List α} (h : Searched before (w :: after) text found) (hp : p <+: w) (hne : p ≠ [])
    (hw : p ≠ w) : p ∈ before := by
  have hmem := h.table.closed w (by simp) p hp hne
  have hlt := lt_of_prefix hp hw
  rcases List.mem_append.mp hmem with hmem | hmem
  · exact hmem
  · rcases List.mem_cons.mp hmem with rfl | hmem
    · exact absurd rfl hw
    · exact absurd (h.lt_after hmem) hlt.not_gt

/-- A longer word extends the match: the pass would have ended at the prefix of another one. -/
theorem extends_of_length_lt (h : Searched before (w :: after) text found) (hlen : found.length < w.length) :
    found <+: w := by
  by_contra hne
  have hplen : (w.take found.length).length = found.length := List.length_take_of_le hlen.le
  have hp : w.take found.length <+: w := List.take_prefix _ w
  have hnil : w.take found.length ≠ [] := by
    intro hnil
    rw [hnil, List.length_nil] at hplen
    exact hne (List.length_eq_zero_iff.mp hplen.symm ▸ List.nil_prefix)
  have hmem := h.mem_before hp hnil fun heq => by
    rw [heq] at hplen
    omega
  have hlt := lt_take h.lt_head hne hlen
  exact hlt.ne ((h.extends_found _ hmem hlt).eq_of_length hplen.symm)

/-- A prefix of the next word that the text begins with is no longer than the match. -/
theorem length_le_of_prefix {p : List α} (h : Searched before (w :: after) text found) (hp : p <+: w) (hw : p ≠ w)
    (htext : p <+: text) : p.length ≤ found.length := by
  by_cases hne : p = []
  · rw [hne]
    exact Nat.zero_le _
  · exact (h.seen.longest p (h.mem_before hp hne hw) htext).length_le

theorem skip (h : Searched before (w :: after) text found) (hext : found <+: w) (hw : ¬ w <+: text) :
    Searched (before ++ [w]) after text found := by
  refine ⟨?_, ⟨?_, h.seen.isPrefix, ?_⟩, ?_⟩
  · rw [List.append_assoc]
    exact h.table
  · exact h.seen.mem.imp_right (List.mem_append_left _)
  · intro v hv hvt
    rcases List.mem_append.mp hv with hv | hv
    · exact h.seen.longest v hv hvt
    · exact absurd (List.mem_singleton.mp hv ▸ hvt) hw
  · intro v hv hlt
    rcases List.mem_append.mp hv with hv | hv
    · exact h.extends_found v hv hlt
    · exact List.mem_singleton.mp hv ▸ hext

theorem take (h : Searched before (w :: after) text found) (hext : found <+: w) (hw : w <+: text) :
    Searched (before ++ [w]) after text w := by
  refine ⟨?_, ⟨Or.inr (by simp), hw, ?_⟩, ?_⟩
  · rw [List.append_assoc]
    exact h.table
  · intro v hv hvt
    rcases List.mem_append.mp hv with hv | hv
    · exact (h.seen.longest v hv hvt).trans hext
    · exact List.mem_singleton.mp hv ▸ List.prefix_rfl
  · intro v hv hlt
    rcases List.mem_append.mp hv with hv | hv
    · have hvw := (List.pairwise_append.mp h.table.sorted).2.2 v hv w List.mem_cons_self
      exact absurd hvw hlt.not_gt
    · exact absurd (List.mem_singleton.mp hv ▸ hlt) (lt_irrefl w)

/-- Where no word from the next one on extends the match, it is the longest. -/
theorem stop (h : Searched before (w :: after) text found)
    (hafter : ∀ v, w ≤ v → found <+: v → v <+: text → v = found) : Longest (before ++ w :: after) text found := by
  refine ⟨h.seen.mem.imp_right (List.mem_append_left _), h.seen.isPrefix, ?_⟩
  intro v hv hvt
  rcases List.mem_append.mp hv with hv | hv
  · exact h.seen.longest v hv hvt
  · have hwv : w ≤ v := by
      rcases List.mem_cons.mp hv with rfl | hv
      · exact le_rfl
      · exact (h.lt_after hv).le
    rcases List.prefix_or_prefix_of_prefix hvt h.seen.isPrefix with hp | hp
    · exact hp
    · exact (hafter v hwv hp hvt) ▸ List.prefix_rfl

/-- The pass ends at a word that is no longer than the match. -/
theorem stop_short (h : Searched before (w :: after) text found) (hlen : w.length ≤ found.length) :
    Longest (before ++ w :: after) text found := by
  have hne : ¬ found <+: w := fun hp => h.lt_head.ne (hp.eq_of_length_le hlen)
  apply h.stop
  rintro v hwv ⟨s, rfl⟩ -
  have := append_lt_append h.lt_head hne s []
  rw [List.append_nil] at this
  exact absurd this hwv.not_gt

/-- The pass ends at a word whose next character is behind that of the text. -/
theorem stop_behind (h : Searched before (w :: after) text found) {c : α} {cs rest : List α}
    (hw : w = found ++ c :: cs) (htext : text = found ++ rest) (hrest : ∀ a ∈ rest.head?, a < c) :
    Longest (before ++ w :: after) text found := by
  apply h.stop
  rintro v hwv ⟨s, rfl⟩ hvt
  cases s with
  | nil => exact List.append_nil found
  | cons a s =>
    rw [htext, List.prefix_append_right_inj] at hvt
    rcases hvt with ⟨t, rfl⟩
    have hlt : found ++ a :: s < found ++ c :: cs :=
      List.append_left_lt (List.cons_lt_cons_iff.mpr (Or.inl (hrest a rfl)))
    exact absurd (hw ▸ hlt) hwv.not_gt

end Searched

end Mrustc.PrefixTable
