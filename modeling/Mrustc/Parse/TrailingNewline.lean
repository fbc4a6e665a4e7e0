import Mrustc.Parse.CutTokensLost
import Mrustc.Parse.RoundTrip
import Mrustc.Parse.Stringify

/-! # The newline at the end of a source text -/

namespace Mrustc.Parse
open Codepoint

/-- A token in front of the end of the file is read. -/
def Lexer.Step (lex lex' : Lexer) : Prop := ∃ t, lex.getTokenInt = .ok (t, lex') ∧ t ≠ .eof

def Lexer.Reaches : Lexer → Lexer → Prop := Relation.ReflTransGen Lexer.Step

/-- The source ends inside a string or a character literal. -/
def Lexer.EndsInLiteral (lex : Lexer) : Prop :=
  ∃ lex', lex.Reaches lex' ∧ lex'.nextTokens = [] ∧ OpenLiteral lex'.input

/-- A token reaches up to the end of the source and is lost there. -/
def Lexer.LosesToken (lex : Lexer) : Prop :=
  ∃ lex', lex.Reaches lex' ∧ lex'.nextTokens = [] ∧ Cut lex'.atStart lex'.input

variable {edition : Edition} {hygiene : Hygiene} {atStart : Bool} {s s' : List ℕ}

section Ends

theorem getTokenInt_hits {lex : Lexer} (hnext : lex.nextTokens = []) (hstop : lex.stop = .endOfFile)
    (h : Hits (scanToken .endOfFile lex.edition lex.hygiene lex.atStart lex.input)) :
    lex.getTokenInt = .ok (.eof, { lex with atStart := false, input := [] }) := by
  simp only [Lexer.getTokenInt, hnext, hstop, show scanToken _ _ _ _ _ = _ from h]

theorem lexes_of_hits {lex : Lexer} (hnext : lex.nextTokens = []) (hstop : lex.stop = .endOfFile)
    (h : Hits (scanToken .endOfFile lex.edition lex.hygiene lex.atStart lex.input)) : Lexes lex [] :=
  .eof (getTokenInt_hits hnext hstop h)

theorem getTokenInt_scan {lex : Lexer} (hnext : lex.nextTokens = []) (hstop : lex.stop = .endOfFile) {out : Scanned}
    (h : scanToken .endOfFile lex.edition lex.hygiene lex.atStart lex.input = .ok out) :
    lex.getTokenInt = .ok (out.token, { lex with atStart := false, nextTokens := out.next, input := out.input }) := by
  simp only [Lexer.getTokenInt, hnext, hstop, h]

theorem getTokenInt_error {lex : Lexer} (hnext : lex.nextTokens = []) (hstop : lex.stop = .endOfFile) {e : LexError}
    (he : e ≠ .endOfFile) (h : scanToken .endOfFile lex.edition lex.hygiene lex.atStart lex.input = .error e) :
    lex.getTokenInt = .error e := by
  simp only [Lexer.getTokenInt, hnext, hstop, h]

theorem lexes_newline (atStart : Bool) : Lexes ⟨edition, hygiene, .endOfFile, atStart, [], [cp '\n']⟩ [] := by
  have hscan : scanToken .endOfFile edition hygiene atStart [cp '\n'] = .ok ⟨.newline, [], []⟩ := by
    cases atStart <;> rfl
  exact .skip (getTokenInt_scan rfl rfl hscan) rfl (lexes_of_hits rfl rfl rfl)

theorem lexes_of_skip {r rest : List ℕ} {t : Token} (ht : t.isSkipped = true)
    (h : scanToken .endOfFile edition hygiene atStart r = .ok ⟨t, [], rest⟩)
    (hrest : rest = [] ∨ rest = [cp '\n']) : Lexes ⟨edition, hygiene, .endOfFile, atStart, [], r⟩ [] := by
  apply Lexes.skip (getTokenInt_scan rfl rfl h) ht
  rcases hrest with rfl | rfl
  · exact lexes_of_hits rfl rfl rfl
  · exact lexes_newline false

theorem scanToken_space {c : ℕ} (hspace : isspace c = true) (hline : c ≠ cp '\n') (input : List ℕ) :
    scanToken .endOfFile edition hygiene atStart (c :: input) =
      skipSpace .endOfFile input >>= fun rest => .ok ⟨.whitespace, [], rest⟩ := by
  have hhash : (atStart && c == cp '#') = false := by
    rw [Bool.and_eq_false_iff]
    right
    rw [beq_eq_false_iff_ne]
    rintro rfl
    exact absurd hspace (by decide)
  rw [scanToken, getc, Lex.bind_ok]
  dsimp only
  rw [hhash, if_neg Bool.false_ne_true, if_neg hline, if_pos hspace]
  rfl

theorem skipSpace_newline {r : List ℕ} (h : OnlySpace r) : skipSpace .endOfFile (r ++ [cp '\n']) = .ok [cp '\n'] := by
  induction r with
  | nil => rfl
  | cons c r ih =>
    rw [OnlySpace, List.forall_mem_cons] at h
    have hc : (isspace c && c != cp '\n') = true := by rw [h.1.1, bne_iff_ne.mpr h.1.2, Bool.true_and]
    rw [List.cons_append, skipSpace, if_pos hc]
    exact ih h.2

theorem skipLine_newline {r : List ℕ} (h : cp '\n' ∉ r) :
    scanShebang.skipLine .endOfFile (r ++ [cp '\n']) = .ok [] := by
  induction r with
  | nil => rfl
  | cons c r ih =>
    rw [List.mem_cons, not_or] at h
    rw [List.cons_append, scanShebang.skipLine, if_neg (Ne.symm h.1)]
    exact ih h.2

/-- White space or a shebang line up to the end is no token with either end. -/
theorem trailing_hits (h : Ends s s') {r : List ℕ} (hr : Trailing atStart r) :
    Hits (scanToken .endOfFile edition hygiene atStart (r ++ s)) := by
  rcases hr with hr | ⟨rfl, r', rfl, line, rfl, hline⟩
  · have hall : OnlySpace (r ++ s) := by
      intro c hc
      rcases List.mem_append.mp hc with hc | hc
      · exact hr c hc
      · rcases h.left with rfl | rfl
        · exact absurd hc List.not_mem_nil
        · rw [List.mem_singleton.mp hc]
          decide
    generalize r ++ s = r' at hall
    rcases r' with _ | ⟨c, r'⟩
    · rfl
    · rw [OnlySpace, List.forall_mem_cons] at hall
      rw [scanToken_space hall.1.1 hall.1.2, hits_bind]
      exact Or.inl (hits_skipSpace.mpr hall.2)
  · have hall : cp '\n' ∉ line ++ s := by
      rw [List.mem_append, not_or]
      refine ⟨hline, ?_⟩
      rcases h.left with rfl | rfl <;> decide
    exact hits_scanShebang.mpr (Or.inr (Or.inr ⟨line ++ s, rfl, hall⟩))

theorem trailing_lexes {r : List ℕ} (hr : Trailing atStart r) :
    Lexes ⟨edition, hygiene, .endOfFile, atStart, [], r ++ [cp '\n']⟩ [] := by
  rcases hr with hr | ⟨rfl, r', rfl, line, rfl, hline⟩
  · rcases r with _ | ⟨c, r⟩
    · exact lexes_newline atStart
    · rw [OnlySpace, List.forall_mem_cons] at hr
      have hscan := @scanToken_space edition hygiene atStart c hr.1.1 hr.1.2 (r ++ [cp '\n'])
      rw [skipSpace_newline hr.2] at hscan
      exact lexes_of_skip rfl hscan (Or.inr rfl)
  · have hskip : scanShebang.skipLine .endOfFile (line ++ [cp '\n']) >>= (fun rest => .ok ⟨.newline, [], rest⟩) =
        (.ok ⟨.newline, [], []⟩ : Lex Scanned) := by
      rw [skipLine_newline hline]
      rfl
    have hscan : scanToken .endOfFile edition hygiene true (cp '#' :: cp '!' :: cp '/' :: line ++ [cp '\n']) =
        .ok ⟨.newline, [], []⟩ := hskip
    exact lexes_of_skip rfl hscan (Or.inl rfl)

theorem plainComment_scan {body : List ℕ} (h : PlainComment body) :
    ∃ str, scanToken .endOfFile edition hygiene atStart (cp '/' :: cp '/' :: body ++ [cp '\n']) =
      .ok ⟨.comment str, [], [cp '\n']⟩ := by
  have hbody {str : List UInt8} {r : List ℕ} (h : LineChars r) :
      ∃ str', scanLineComment .endOfFile str (r ++ [cp '\n']) = .ok (str', [cp '\n']) := by
    induction r generalizing str with
    | nil => exact ⟨str, rfl⟩
    | cons c r ih =>
      rw [LineChars, List.forall_mem_cons] at h
      rw [List.cons_append, scanLineComment, if_neg (not_or.mpr ⟨h.1.1, h.1.2.1⟩), append_eq_ok.mpr ⟨h.1.2.2, rfl⟩]
      exact ih h.2
  have hcomment {str : List UInt8} {r : List ℕ} (h : LineChars r) :
      ∃ str', (scanLineComment .endOfFile str (r ++ [cp '\n']) >>= fun out =>
        pure (⟨.comment out.1, [], out.2⟩ : Scanned)) = .ok ⟨.comment str', [], [cp '\n']⟩ := by
    rcases @hbody str r h with ⟨str', heq⟩
    exact ⟨str', by rw [heq]; rfl⟩
  rcases body with _ | ⟨c, body⟩
  · exact ⟨[], by cases atStart <;> rfl⟩
  · rw [List.cons_append, List.cons_append, List.cons_append, scanToken_lineComment, scanLine, getc, Lex.bind_ok]
    dsimp only
    have hchars := List.forall_mem_cons.mp h.1
    by_cases hc : c = cp '/'
    · rw [if_pos hc]
      rcases body with _ | ⟨c', body⟩
      · exact absurd (Or.inl ⟨[], by rw [hc], by simp, by simp [LineChars]⟩) h.2
      · have hslash : c' = cp '/' := by
          by_contra hne
          exact h.2 (Or.inl ⟨c' :: body, by rw [hc], by simpa using hne, hchars.2⟩)
        rw [List.cons_append, getc, Lex.bind_ok]
        dsimp only
        rw [if_pos hslash]
        exact hcomment hchars.2
    · have hexcl : c ≠ cp '!' := fun hexcl => h.2 (Or.inr ⟨body, by rw [hexcl], hchars.2⟩)
      rw [if_neg hc, if_neg hexcl]
      exact hcomment h.1

/-- A block comment that is still open stays open. -/
theorem scanBlockComment_newline {str : List UInt8} {level : ℕ} {r : List ℕ}
    (h : Hits (scanBlockComment .endOfFile str level r)) :
    Hits (scanBlockComment .endOfFile str level (r ++ [cp '\n'])) := by
  have hnil (str : List UInt8) (level : ℕ) : Hits (scanBlockComment .endOfFile str level []) := by
    rw [scanBlockComment]
    rfl
  have hfail {str : List UInt8} {c : ℕ} {e : LexError} (happend : append str c = .error e) :
      ¬ Hits (.error e : Lex (List UInt8 × List ℕ)) := fun h => by
    have hnot : ¬ Hits (append str c) := hits_append
    rw [happend] at hnot
    exact hnot (hits_error.mpr (hits_error.mp h))
  induction hn : r.length using Nat.strong_induction_on generalizing str level r with
  | _ n ih =>
    subst hn
    rcases r with _ | ⟨c, r⟩
    · rw [List.nil_append, scanBlockComment_char (by decide) (by decide) (by decide)]
      exact hnil _ _
    · have hrest {r' : List ℕ} (hlen : r'.length ≤ r.length) {str : List UInt8} {level : ℕ}
          (h : Hits (scanBlockComment .endOfFile str level r')) := ih r'.length (Nat.lt_succ_of_le hlen) h rfl
      have hline (str : List UInt8) : append str (cp '\n') = .ok (str ++ utf8 (cp '\n')) :=
        append_eq_ok.mpr ⟨by decide, rfl⟩
      rw [List.cons_append]
      rw [scanBlockComment.eq_def] at h ⊢
      dsimp only at h ⊢
      by_cases hslash : c = cp '/'
      · rw [if_pos hslash] at h ⊢
        rcases r with _ | ⟨c', r⟩
        · rw [List.nil_append]
          dsimp only
          rw [hline]
          exact hnil _ _
        · rw [List.cons_append]
          dsimp only at h ⊢
          cases happend : append (str ++ ascii ['/']) c' with
          | error e =>
            rw [happend] at h
            exact absurd h (hfail happend)
          | ok str' =>
            rw [happend] at h
            exact hrest (by simp) h
      · rw [if_neg hslash] at h ⊢
        by_cases hstar : c = cp '*'
        · rw [if_pos hstar] at h ⊢
          rcases r with _ | ⟨c', r⟩
          · rw [List.nil_append]
            dsimp only
            rw [if_neg (by decide), hline]
            exact hnil _ _
          · rw [List.cons_append]
            dsimp only at h ⊢
            by_cases hclose : c' = cp '/'
            · rw [if_pos hclose] at h ⊢
              split_ifs at h ⊢
              · exact absurd h (hits_ok _).mp
              · exact hrest (by simp) h
            · rw [if_neg hclose] at h ⊢
              cases happend : append (str ++ ascii ['*']) c' with
              | error e =>
                rw [happend] at h
                exact absurd h (hfail happend)
              | ok str' =>
                rw [happend] at h
                exact hrest (by simp) h
        · rw [if_neg hstar] at h ⊢
          cases happend : append str c with
          | error e =>
            rw [happend] at h
            exact absurd h (hfail happend)
          | ok str' =>
            rw [happend] at h
            exact hrest le_rfl h

theorem scanBlock_newline {r : List ℕ} (h : Hits (scanBlock .endOfFile hygiene r)) :
    Hits (scanBlock .endOfFile hygiene (r ++ [cp '\n'])) := by
  have hbody {str : List UInt8} {r : List ℕ} {f : List UInt8 × List ℕ → Scanned}
      (h : Hits (scanBlockComment .endOfFile str 0 r >>= fun out => pure (f out))) :
      Hits (scanBlockComment .endOfFile str 0 (r ++ [cp '\n']) >>= fun out => pure (f out)) := by
    rcases hits_bind.mp h with h | ⟨out, -, h⟩
    · exact hits_bind.mpr (Or.inl (scanBlockComment_newline h))
    · exact absurd h (hits_ok _).mp
  have hopen (f : List UInt8 × List ℕ → Scanned) :
      Hits (scanBlockComment .endOfFile [] 0 [cp '\n'] >>= fun out => pure (f out)) := by
    have hnil : Hits (scanBlockComment .endOfFile [] 0 []) := by
      rw [scanBlockComment]
      rfl
    exact hits_bind.mpr (Or.inl (scanBlockComment_newline hnil))
  rcases r with _ | ⟨c, r⟩
  · exact hopen fun out => ⟨.comment out.1, [], out.2⟩
  · rw [List.cons_append]
    rw [scanBlock, getc, Lex.bind_ok] at h ⊢
    dsimp only at h ⊢
    by_cases hstar : c = cp '*'
    · rw [if_pos hstar] at h ⊢
      rcases r with _ | ⟨c', r⟩
      · exact hopen fun out => docTokens hygiene out.1 false out.2
      · rw [List.cons_append]
        rw [getc, Lex.bind_ok] at h ⊢
        dsimp only at h ⊢
        split_ifs at h ⊢
        · exact hbody h
        · exact absurd h (hits_ok _).mp
        · exact hbody h
    · rw [if_neg hstar] at h ⊢
      split_ifs at h ⊢
      · exact hbody h
      · exact hbody h

/-- The input ends without a token: the newline makes no difference, unless the end has cut a token off. -/
theorem lexes_newline_of_hits (h : Ends s s') {r : List ℕ}
    (hits : Hits (scanToken .endOfFile edition hygiene atStart (r ++ s)))
    (hr : s = [] → ¬ Cut atStart r ∧ ¬ OpenLiteral r) :
    Lexes ⟨edition, hygiene, .endOfFile, atStart, [], r ++ s'⟩ [] := by
  rcases h with ⟨hleft, rfl⟩
  by_cases htrail : Trailing atStart r
  · exact trailing_lexes htrail
  · have hagrees := scanToken_agrees edition hygiene ⟨hleft, rfl⟩ htrail
    rw [show scanToken .endOfFile edition hygiene atStart (r ++ s) = .error .endOfFile from hits] at hagrees
    rcases hagrees with rfl | hright
    · rw [List.append_nil] at hits
      rcases scanToken_shape hits with h | h | h | ⟨rfl, h⟩ | ⟨rfl, h⟩
      · exact absurd h htrail
      · exact absurd h (hr rfl).1
      · exact absurd h (hr rfl).2
      · rcases @plainComment_scan edition hygiene atStart _ h with ⟨str, hscan⟩
        exact lexes_of_skip rfl hscan (Or.inr rfl)
      · apply lexes_of_hits rfl rfl
        rename_i body
        have hnewline := scanBlock_newline h
        rcases hb : body ++ [cp '\n'] with _ | ⟨c, rest⟩
        · simp at hb
        · rw [hb] at hnewline
          simp only [List.cons_append, hb]
          rw [scanToken_blockComment]
          exact hnewline
    · exact lexes_of_hits rfl rfl hright

end Ends

section Runs

/-- The same run in front of the two ends. -/
def Related (s s' : List ℕ) (lex lex' : Lexer) : Prop :=
  lex.stop = .endOfFile ∧ ∃ r, lex.input = r ++ s ∧ lex' = { lex with input := r ++ s' }

theorem getTokenInt_related (h : Ends s s') {lex lex' lex₁ : Lexer} {t : Token} (hrel : Related s s' lex lex')
    (hstep : lex.getTokenInt = .ok (t, lex₁)) :
    (∃ lex₁', lex'.getTokenInt = .ok (t, lex₁') ∧ Related s s' lex₁ lex₁') ∨ lex.nextTokens = [] ∧ t = .eof ∧
      Hits (scanToken .endOfFile lex.edition lex.hygiene lex.atStart lex.input) := by
  rcases lex with ⟨edition, hygiene, stop, atStart, next, input⟩
  rcases hrel with ⟨hstop, r, hinput, rfl⟩
  simp only at hstop hinput ⊢
  subst hstop hinput
  cases next with
  | cons token next =>
    cases hstep
    exact Or.inl ⟨_, rfl, rfl, r, rfl, rfl⟩
  | nil =>
    by_cases htrail : Trailing atStart r
    · have hits := @trailing_hits edition hygiene atStart s s' h r htrail
      rw [getTokenInt_hits rfl rfl hits] at hstep
      cases hstep
      exact Or.inr ⟨rfl, rfl, hits⟩
    · have hagrees := scanToken_agrees edition hygiene h htrail
      cases hscan : scanToken .endOfFile edition hygiene atStart (r ++ s) with
      | ok out =>
        rw [hscan] at hagrees
        rcases hagrees with ⟨out', hscan', htoken, hnext, r', hin, hin'⟩
        rw [getTokenInt_scan rfl rfl hscan] at hstep
        cases hstep
        refine Or.inl ⟨_, ?_, rfl, r', hin, rfl⟩
        rw [getTokenInt_scan rfl rfl hscan', htoken, hnext, hin']
      | error e =>
        by_cases he : e = .endOfFile
        · have hits : Hits (scanToken .endOfFile edition hygiene atStart (r ++ s)) := by rw [hscan, he]; rfl
          rw [getTokenInt_hits rfl rfl hits] at hstep
          cases hstep
          exact Or.inr ⟨rfl, rfl, hscan ▸ hits⟩
        · rw [getTokenInt_error rfl rfl he hscan] at hstep
          cases hstep

theorem getTokenInt_related_error (h : Ends s s') {lex lex' : Lexer} {e : LexError} (hrel : Related s s' lex lex')
    (hstep : lex.getTokenInt = .error e) : ∃ e', lex'.getTokenInt = .error e' := by
  rcases lex with ⟨edition, hygiene, stop, atStart, next, input⟩
  rcases hrel with ⟨hstop, r, hinput, rfl⟩
  simp only at hstop hinput ⊢
  subst hstop hinput
  cases next with
  | cons token next => cases hstep
  | nil =>
    cases hscan : scanToken .endOfFile edition hygiene atStart (r ++ s) with
    | ok out =>
      rw [getTokenInt_scan rfl rfl hscan] at hstep
      cases hstep
    | error e' =>
      by_cases he : e' = .endOfFile
      · have hits : Hits (scanToken .endOfFile edition hygiene atStart (r ++ s)) := by rw [hscan, he]; rfl
        rw [getTokenInt_hits rfl rfl hits] at hstep
        cases hstep
      · have htrail : ¬ Trailing atStart r := by
          intro htrail
          have hits := @trailing_hits edition hygiene atStart s s' h r htrail
          rw [hscan] at hits
          exact he (hits_error.mp hits)
        have hagrees := scanToken_agrees edition hygiene h htrail
        rw [hscan] at hagrees
        have hright : ∃ e'', e'' ≠ .endOfFile ∧
            scanToken .endOfFile edition hygiene atStart (r ++ s') = .error e'' := by
          cases e' with
          | endOfFile => exact absurd rfl he
          | _ => exact hagrees
        rcases hright with ⟨e'', he', hscan'⟩
        exact ⟨e'', getTokenInt_error rfl rfl he' hscan'⟩

/-- No token is cut off and no literal is open at the end of the file. -/
def Lexer.EndsWell (lex : Lexer) : Prop :=
  ∀ lex', lex.Reaches lex' → lex'.nextTokens = [] → ¬ Cut lex'.atStart lex'.input ∧ ¬ OpenLiteral lex'.input

theorem Lexer.EndsWell.step {lex lex₁ : Lexer} (h : lex.EndsWell) (hstep : lex.Step lex₁) : lex₁.EndsWell :=
  fun lex' hreach => h lex' (.head hstep hreach)

/-- The token in front of the one end is the token in front of the other, or both runs are over. -/
theorem related_step (h : Ends s s') {lex lex' lex₁ : Lexer} {t : Token} (hrel : Related s s' lex lex')
    (hwell : s = [] → lex.EndsWell) (hstep : lex.getTokenInt = .ok (t, lex₁)) :
    (∃ lex₁', lex'.getTokenInt = .ok (t, lex₁') ∧ Related s s' lex₁ lex₁') ∨
      t = .eof ∧ Lexes lex [] ∧ Lexes lex' [] := by
  rcases getTokenInt_related h hrel hstep with hright | ⟨hnext, ht, hits⟩
  · exact Or.inl hright
  · rcases hrel with ⟨hstop, r, hinput, rfl⟩
    rcases lex with ⟨edition, hygiene, stop, atStart, next, input⟩
    simp only at hstop hinput hnext hits ⊢
    subst hstop hinput hnext
    refine Or.inr ⟨ht, lexes_of_hits rfl rfl hits, lexes_newline_of_hits h hits fun hs => ?_⟩
    have := hwell hs _ .refl rfl
    rwa [hs, List.append_nil] at this

theorem lexes_related (h : Ends s s') {lex lex' : Lexer} {ts : List Token} (hts : Lexes lex ts)
    (hrel : Related s s' lex lex') (hwell : s = [] → lex.EndsWell) : Lexes lex' ts := by
  induction hts generalizing lex' with
  | eof hstep =>
    rcases related_step h hrel hwell hstep with ⟨lex₁', hstep', -⟩ | ⟨-, -, hend⟩
    · exact .eof hstep'
    · exact hend
  | @skip lex lex₁ t ts hstep ht _ ih =>
    have hne : t ≠ .eof := by
      rintro rfl
      cases ht
    rcases related_step h hrel hwell hstep with ⟨lex₁', hstep', hrel'⟩ | ⟨heof, -⟩
    · exact .skip hstep' ht (ih hrel' fun hs => (hwell hs).step ⟨t, hstep, hne⟩)
    · exact absurd heof hne
  | @token lex lex₁ t ts hstep ht hne _ ih =>
    rcases related_step h hrel hwell hstep with ⟨lex₁', hstep', hrel'⟩ | ⟨heof, -⟩
    · exact .token hstep' ht hne (ih hrel' fun hs => (hwell hs).step ⟨t, hstep, hne⟩)
    · exact absurd heof hne

theorem Lexes.getTokenInt {lex : Lexer} {ts : List Token} (h : Lexes lex ts) :
    ∃ t lex', lex.getTokenInt = .ok (t, lex') := by
  cases h with
  | eof hstep | skip hstep | token hstep => exact ⟨_, _, hstep⟩

theorem lexes_related_symm (h : Ends s s') {lex lex' : Lexer} {ts : List Token} (hts : Lexes lex' ts)
    (hrel : Related s s' lex lex') (hwell : s = [] → lex.EndsWell) : Lexes lex ts := by
  induction hts generalizing lex with
  | @eof lex' lex₁' hstep' =>
    cases hstep : lex.getTokenInt with
    | error e =>
      rcases getTokenInt_related_error h hrel hstep with ⟨e', herror⟩
      rw [hstep'] at herror
      cases herror
    | ok out =>
      rcases out with ⟨t, lex₁⟩
      rcases related_step h hrel hwell hstep with ⟨lex₂', hsame, -⟩ | ⟨-, hend, -⟩
      · rw [hstep'] at hsame
        cases hsame
        exact .eof hstep
      · exact hend
  | @skip lex' lex₁' t ts hstep' ht hts ih =>
    cases hstep : lex.getTokenInt with
    | error e =>
      rcases getTokenInt_related_error h hrel hstep with ⟨e', herror⟩
      rw [hstep'] at herror
      cases herror
    | ok out =>
      rcases out with ⟨t', lex₁⟩
      rcases related_step h hrel hwell hstep with ⟨lex₂', hsame, hrel'⟩ | ⟨-, hend, hend'⟩
      · rw [hstep'] at hsame
        cases hsame
        have hne : t ≠ .eof := by
          rintro rfl
          cases ht
        exact .skip hstep ht (ih hrel' fun hs => (hwell hs).step ⟨t, hstep, hne⟩)
      · rw [Lexes.unique (Lexes.skip hstep' ht hts) hend']
        exact hend
  | @token lex' lex₁' t ts hstep' ht hne hts ih =>
    cases hstep : lex.getTokenInt with
    | error e =>
      rcases getTokenInt_related_error h hrel hstep with ⟨e', herror⟩
      rw [hstep'] at herror
      cases herror
    | ok out =>
      rcases out with ⟨t', lex₁⟩
      rcases related_step h hrel hwell hstep with ⟨lex₂', hsame, hrel'⟩ | ⟨-, hend, hend'⟩
      · rw [hstep'] at hsame
        cases hsame
        exact .token hstep ht hne (ih hrel' fun hs => (hwell hs).step ⟨t, hstep, hne⟩)
      · rw [Lexes.unique (Lexes.token hstep' ht hne hts) hend']
        exact hend

theorem lexes_iff_of_related (h : Ends s s') {lex lex' : Lexer} (hrel : Related s s' lex lex')
    (hwell : s = [] → lex.EndsWell) (ts : List Token) : Lexes lex ts ↔ Lexes lex' ts :=
  ⟨fun hts => lexes_related h hts hrel hwell, fun hts => lexes_related_symm h hts hrel hwell⟩

/-- Behind a token, the rest of a run. -/
theorem lexes_step {lex lex₁ : Lexer} {t : Token} (hstep : lex.getTokenInt = .ok (t, lex₁)) (hne : t ≠ .eof)
    (ts : List Token) : Lexes lex ((if t.isSkipped then [] else [t]) ++ ts) ↔ Lexes lex₁ ts := by
  constructor
  · intro h
    generalize hus : (if t.isSkipped then [] else [t]) ++ ts = us at h
    cases h with
    | eof hstep' =>
      rw [hstep] at hstep'
      cases hstep'
      exact absurd rfl hne
    | skip hstep' ht hts =>
      rw [hstep] at hstep'
      cases hstep'
      rw [if_pos ht, List.nil_append] at hus
      rwa [hus]
    | token hstep' ht _ hts =>
      rw [hstep] at hstep'
      cases hstep'
      rw [ht, if_neg Bool.false_ne_true, List.singleton_append, List.cons.injEq] at hus
      rw [hus.2]
      exact hts
  · intro h
    by_cases ht : t.isSkipped = true
    · rw [if_pos ht]
      exact .skip hstep ht h
    · rw [if_neg ht]
      exact .token hstep (by simpa using ht) hne h

/-- Up to a state that is reached, equal runs have been equal. -/
theorem related_of_reaches (h : Ends s s') {lex lex' lex₂ : Lexer} (hreach : lex.Reaches lex₂)
    (hrel : Related s s' lex lex') (hsame : ∀ ts, Lexes lex ts ↔ Lexes lex' ts) :
    ∃ lex₂', Related s s' lex₂ lex₂' ∧ ∀ ts, Lexes lex₂ ts ↔ Lexes lex₂' ts := by
  induction hreach using Relation.ReflTransGen.head_induction_on generalizing lex' with
  | refl => exact ⟨lex', hrel, hsame⟩
  | head hstep _ ih =>
    rcases hstep with ⟨t, hstep, hne⟩
    rcases getTokenInt_related h hrel hstep with ⟨lex₁', hstep', hrel'⟩ | ⟨-, heof, -⟩
    · apply ih hrel'
      intro ts
      rw [← lexes_step hstep hne, ← lexes_step hstep' hne]
      exact hsame _
    · exact absurd heof hne

/-- A token that the end cuts off is a difference. -/
theorem cut_differs {lex lex' : Lexer} (hrel : Related [] [cp '\n'] lex lex') (hnext : lex.nextTokens = [])
    (hcut : Cut lex.atStart lex.input) : ¬ ∀ ts, Lexes lex ts ↔ Lexes lex' ts := by
  rcases hrel with ⟨hstop, r, hinput, rfl⟩
  rcases lex with ⟨edition, hygiene, stop, atStart, next, input⟩
  simp only [List.append_nil] at hstop hinput hnext hcut ⊢
  subst hstop hinput hnext
  intro hsame
  have hleft : Lexes ⟨edition, hygiene, .endOfFile, atStart, [], input⟩ [] := lexes_of_hits rfl rfl (cut_hits hcut)
  have hright := (hsame []).mp hleft
  cases hscan : scanToken .endOfFile edition hygiene atStart (input ++ [cp '\n']) with
  | error e =>
    have he : e ≠ .endOfFile := by
      rintro rfl
      exact cut_not_hits hcut hscan
    rcases hright.getTokenInt with ⟨t, lex', hstep⟩
    rw [getTokenInt_error rfl rfl he hscan] at hstep
    cases hstep
  | ok out =>
    have hkept := cut_kept hcut out hscan
    have hstep : Lexer.getTokenInt ⟨edition, hygiene, .endOfFile, atStart, [], input ++ [cp '\n']⟩ =
        .ok (out.token, _) := getTokenInt_scan rfl rfl hscan
    cases hright with
    | eof hstep' => exact hkept.2 (Prod.mk.inj (Except.ok.inj (hstep.symm.trans hstep'))).1
    | skip hstep' ht _ =>
      rw [← (Prod.mk.inj (Except.ok.inj (hstep.symm.trans hstep'))).1, hkept.1] at ht
      cases ht

end Runs

section Sources

/-- `getc_byte` on characters: a carriage return in front of a newline is dropped. -/
def dropReturns : List Char → List Char
  | '\r' :: '\n' :: text => '\n' :: dropReturns text
  | c :: text => c :: dropReturns text
  | [] => []

theorem dropReturns_cons {c : Char} {text : List Char} (h : ¬(c = '\r' ∧ text.head? = some '\n')) :
    dropReturns (c :: text) = c :: dropReturns text := by
  rw [dropReturns]
  rintro tail rfl rfl
  exact h ⟨rfl, rfl⟩

theorem utf8Bytes_cons (c : Char) (text : List Char) : utf8Bytes (c :: text) = utf8 (cp c) ++ utf8Bytes text := by
  rw [utf8Bytes_eq, utf8Bytes_eq, List.map_cons, encode_cons]

theorem utf8Bytes_head {text : List Char} (h : text.head? ≠ some '\n') : (utf8Bytes text).head? ≠ some 10 := by
  cases text with
  | nil => simp [utf8Bytes]
  | cons c text =>
    have hc : cp c ≠ 10 := fun hc => h (congrArg some (Char.toNat_inj.mp (hc.trans rfl)))
    rw [utf8Bytes_cons]
    rcases lt_or_ge (cp c) 0x80 with hlt | hge
    · have hbyte : (cp c).toUInt8.toNat = cp c := Nat.mod_eq_of_lt (lt_trans hlt (by decide))
      rw [utf8_ascii hlt]
      intro hhead
      exact hc (hbyte.symm.trans (congrArg UInt8.toNat (Option.some.inj hhead)))
    · rcases List.exists_cons_of_ne_nil (utf8_ne_nil (toNat_lt_21 c)) with ⟨b, bs, hb⟩
      have hhigh := utf8_high hge b (by rw [show utf8 (cp c) = _ from hb]; exact List.mem_cons_self)
      rw [show utf8 (cp c) = _ from hb]
      intro hhead
      rw [Option.some.inj hhead] at hhigh
      exact hhigh (by decide)

theorem getcByte_return {bs : List UInt8} (h : bs.head? ≠ some 10) : getcByte (13 :: bs) = 13 :: getcByte bs := by
  rw [getcByte]
  rintro tail - rfl
  exact h rfl

theorem getcByte_utf8Bytes (text : List Char) : getcByte (utf8Bytes text) = utf8Bytes (dropReturns text) := by
  fun_induction dropReturns text with
  | case1 text ih =>
    rw [utf8Bytes_cons, utf8Bytes_cons, utf8Bytes_cons, ← ih]
    rfl
  | case2 c text hne ih =>
    rw [utf8Bytes_cons, utf8Bytes_cons, ← ih]
    by_cases hc : c = '\r'
    · have hhead : text.head? ≠ some '\n' := by
        intro hhead
        cases text with
        | nil => cases hhead
        | cons d text =>
          cases hhead
          exact hne text hc rfl
      rw [hc]
      exact getcByte_return (utf8Bytes_head hhead)
    · exact getcByte_append_left (cr_not_mem_utf8 fun h => hc (Char.toNat_inj.mp h)) _
  | case3 => rfl

theorem ofSource_text (text : List Char) : Lexer.ofSource edition hygiene (utf8Bytes text) =
    .ofInput edition hygiene true ((dropReturns text).map cp) := by
  have hlt : ∀ v ∈ (dropReturns text).map cp, v < 0x200000 := List.forall_mem_map.mpr fun c _ => toNat_lt_21 c
  have h := getcCp_encode hlt []
  rw [List.append_nil] at h
  rw [Lexer.ofSource, getcByte_utf8Bytes, utf8Bytes_eq, h]
  simp [Lexer.ofInput, getcCp]

theorem dropReturns_append {text rest : List Char} (h : ¬(text.getLast? = some '\r' ∧ rest.head? = some '\n')) :
    dropReturns (text ++ rest) = dropReturns text ++ dropReturns rest := by
  fun_induction dropReturns text with
  | case1 text ih =>
    rw [List.cons_append, List.cons_append, dropReturns, List.cons_append, ih]
    rintro ⟨hlast, hhead⟩
    refine h ⟨?_, hhead⟩
    rw [List.getLast?_cons_cons, List.getLast?_cons, hlast]
    rfl
  | case2 c text hne ih =>
    have hcons : ¬(c = '\r' ∧ (text ++ rest).head? = some '\n') := by
      rintro ⟨hc, hhead⟩
      cases text with
      | nil => exact h ⟨by rw [hc]; rfl, hhead⟩
      | cons d text =>
        cases hhead
        exact hne text hc rfl
    rw [List.cons_append, dropReturns_cons hcons, List.cons_append, ih]
    rintro ⟨hlast, hhead⟩
    refine h ⟨?_, hhead⟩
    rw [List.getLast?_cons, hlast]
    rfl
  | case3 => rfl

/-- A source text in front of the end of the file, and in front of a newline. -/
theorem related_source (text : List Char) : ∃ s, Ends s [cp '\n'] ∧ (s = [] ↔ text.getLast? ≠ some '\r') ∧
    Related s [cp '\n'] (.ofSource edition hygiene (utf8Bytes text))
      (.ofSource edition hygiene (utf8Bytes (text ++ ['\n']))) := by
  rw [ofSource_text, ofSource_text]
  by_cases hlast : text.getLast? = some '\r'
  · rcases List.getLast?_eq_some_iff.mp hlast with ⟨front, rfl⟩
    have hleft : dropReturns (front ++ ['\r']) = dropReturns front ++ ['\r'] := dropReturns_append (by simp)
    have hright : dropReturns (front ++ ['\r', '\n']) = dropReturns front ++ ['\n'] := dropReturns_append (by simp)
    rw [List.append_assoc, List.singleton_append, hleft, hright]
    refine ⟨[cp '\r'], ⟨Or.inr rfl, rfl⟩, by simp, rfl, (dropReturns front).map cp, ?_, ?_⟩
    · exact List.map_append
    · rw [List.map_append]
      rfl
  · have hright : dropReturns (text ++ ['\n']) = dropReturns text ++ ['\n'] :=
      dropReturns_append fun h => hlast h.1
    rw [hright]
    refine ⟨[], ⟨Or.inl rfl, rfl⟩, by simpa using hlast, rfl, (dropReturns text).map cp, ?_, ?_⟩
    · rw [List.append_nil]
      rfl
    · rw [List.map_append]
      rfl

/-- A lexer at the end of the file goes nowhere. -/
theorem eq_of_reaches {lex lex' lex₁ : Lexer} (h : lex.getTokenInt = .ok (.eof, lex₁)) (hreach : lex.Reaches lex') :
    lex' = lex := by
  rcases hreach.cases_head with rfl | ⟨lex₂, ⟨t, hstep, hne⟩, -⟩
  · rfl
  · rw [h] at hstep
    cases hstep
    exact absurd rfl hne

theorem reaches_step {lex lex' lex₁ lex₂ : Lexer} {t : Token} (h : lex.getTokenInt = .ok (t, lex₁))
    (h₁ : lex₁.getTokenInt = .ok (.eof, lex₂)) (hreach : lex.Reaches lex') : lex' = lex ∨ lex' = lex₁ := by
  rcases hreach.cases_head with rfl | ⟨lex₃, ⟨t', hstep, -⟩, hreach⟩
  · exact Or.inl rfl
  · rw [h] at hstep
    cases hstep
    exact Or.inr (eq_of_reaches h₁ hreach)

end Sources

/-- A newline at the end of a source text makes no difference, unless the end of the file cuts a token off. -/
theorem newline_ignored_iff (edition : Edition) (hygiene : Hygiene) (text : List Char)
    (hopen : ¬ (Lexer.ofSource edition hygiene (utf8Bytes text)).EndsInLiteral) :
    (∀ ts, Lexes (.ofSource edition hygiene (utf8Bytes text)) ts ↔
      Lexes (.ofSource edition hygiene (utf8Bytes (text ++ ['\n']))) ts) ↔
    text.getLast? = some '\r' ∨ ¬ (Lexer.ofSource edition hygiene (utf8Bytes text)).LosesToken := by
  rcases @related_source edition hygiene text with ⟨s, h, hs, hrel⟩
  by_cases hlast : text.getLast? = some '\r'
  · exact iff_of_true (lexes_iff_of_related h hrel fun hnil => absurd hlast (hs.mp hnil)) (Or.inl hlast)
  · rw [or_iff_right hlast]
    have hnil := hs.mpr hlast
    constructor
    · rintro hsame ⟨lex, hreach, hnext, hcut⟩
      rcases related_of_reaches h hreach hrel hsame with ⟨lex', hrel', hsame'⟩
      exact cut_differs (hnil ▸ hrel') hnext hcut hsame'
    · intro hkeeps
      apply lexes_iff_of_related h hrel
      intro _ lex hreach hnext
      exact ⟨fun hcut => hkeeps ⟨lex, hreach, hnext, hcut⟩, fun hlit => hopen ⟨lex, hreach, hnext, hlit⟩⟩

/-- A symbol at the end of a text is not cut off. -/
theorem newline_ignored_plus : {ts | Lexes (.ofSource .rust2021 [] (utf8Bytes ['+'])) ts} =
    {ts | Lexes (.ofSource .rust2021 [] (utf8Bytes ['+', '\n'])) ts} := by
  have hreach {lex : Lexer} (h : (Lexer.ofSource .rust2021 [] (utf8Bytes ['+'])).Reaches lex) :
      lex.input = [cp '+'] ∨ lex.input = [] := by
    have hstep : (Lexer.ofSource .rust2021 [] (utf8Bytes ['+'])).getTokenInt =
        .ok (.op .plus, ⟨.rust2021, [], .endOfFile, false, [], []⟩) := rfl
    rcases reaches_step hstep rfl h with rfl | rfl
    · exact Or.inl rfl
    · exact Or.inr rfl
  have hopen : ¬ (Lexer.ofSource .rust2021 [] (utf8Bytes ['+'])).EndsInLiteral := by
    rintro ⟨lex, h, -, hlit⟩
    rcases hreach h with hinput | hinput <;>
    · rw [hinput] at hlit
      cases hlit
  apply Set.ext
  apply (newline_ignored_iff .rust2021 [] ['+'] hopen).mpr
  right
  rintro ⟨lex, h, -, hcut⟩
  rcases hreach h with hinput | hinput <;> rw [hinput] at hcut
  · have hits : Hits (scanToken .endOfFile .rust2021 [] lex.atStart [cp '+']) := cut_hits hcut
    have hscan : scanToken .endOfFile .rust2021 [] lex.atStart [cp '+'] = .ok ⟨.op .plus, [], []⟩ := by
      cases lex.atStart <;> rfl
    rw [hscan] at hits
    exact (hits_ok _).mp hits
  · have hnil {r : List ℕ} (h : Cut lex.atStart r) : r ≠ [] := by
      cases h with
      | rawHashes hpre => rcases hpre with rfl | rfl <;> simp
      | number h =>
        rintro rfl
        exact h
      | _ => simp
    exact hnil hcut rfl

/-- An identifier is. -/
theorem word_lost : ¬ (Lexer.ofSource .rust2021 [] (utf8Bytes ['a'])).EndsInLiteral ∧
    Lexes (.ofSource .rust2021 [] (utf8Bytes ['a', '\n'])) [.ident (ascii ['a'])] ∧
      ¬ Lexes (.ofSource .rust2021 [] (utf8Bytes ['a'])) [.ident (ascii ['a'])] := by
  have hend : (Lexer.ofSource .rust2021 [] (utf8Bytes ['a'])).getTokenInt =
      .ok (.eof, ⟨.rust2021, [], .endOfFile, false, [], []⟩) := rfl
  have hword : (Lexer.ofSource .rust2021 [] (utf8Bytes ['a', '\n'])).getTokenInt =
      .ok (.ident (ascii ['a']), ⟨.rust2021, [], .endOfFile, false, [], [cp '\n']⟩) := rfl
  refine ⟨?_, .token hword rfl (by simp) (lexes_newline false), fun h => ?_⟩
  · rintro ⟨lex, hreach, -, hlit⟩
    rw [eq_of_reaches hend hreach] at hlit
    cases hlit
  · cases Lexes.unique h (.eof hend)

end Mrustc.Parse
