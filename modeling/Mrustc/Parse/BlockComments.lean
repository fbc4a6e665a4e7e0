import Mrustc.Parse.ReadText

/-! # Block comments

The reference reads the inside of a comment from the left: two characters that open or close a comment, or one other
character. The lexer takes a slash or a star that opens or closes nothing together with the character behind it, and so
misses a delimiter behind an odd number of its first character.
-/

namespace Mrustc.Parse

/-- What the inside of a comment consists of. -/
inductive Piece
  | opening
  | closing
  | char (ch : ℕ)
  deriving DecidableEq, Repr

def pieces : List ℕ → List Piece
  | [] => []
  | [ch] => [.char ch]
  | ch :: ch' :: cs =>
    if ch = cp '/' ∧ ch' = cp '*' then .opening :: pieces cs
    else if ch = cp '*' ∧ ch' = cp '/' then .closing :: pieces cs
    else .char ch :: pieces (ch' :: cs)

/-- The inside of a comment: characters, and comments in one another. -/
inductive CommentBody : List Piece → Prop
  | nil : CommentBody []
  | char (ch : ℕ) {ps : List Piece} (h : CommentBody ps) : CommentBody (.char ch :: ps)
  | comment {ps ps' : List Piece} (h : CommentBody ps) (h' : CommentBody ps') :
      CommentBody (.opening :: ps ++ .closing :: ps')

/-- The closing delimiter behind `body` is the one that ends the comment. -/
def IsComment (body : List ℕ) : Prop :=
  ∃ ps, CommentBody ps ∧ pieces (body ++ [cp '*', cp '/']) = ps ++ [.closing]

/-- No delimiter stands behind an odd number of its first character; `odd` is that character where there is one. -/
def AllSeen : (odd : Option ℕ) → List Piece → Prop
  | _, [] => True
  | odd, .opening :: ps => odd ≠ some (cp '/') ∧ AllSeen none ps
  | odd, .closing :: ps => odd ≠ some (cp '*') ∧ AllSeen none ps
  | odd, .char ch :: ps =>
    AllSeen (if odd = some ch then none else if ch = cp '/' ∨ ch = cp '*' then some ch else none) ps

/-- All delimiters inside a comment are seen, up to the one that ends it. A star right behind the opening delimiter does
not count. -/
def DelimitersSeen (body : List ℕ) : Prop :=
  AllSeen none (pieces ((if body.head? = some (cp '*') then body.tail else body) ++ [cp '*', cp '/']))

/-- The token of a comment, or those of a doc comment. -/
def blockToken (hygiene : Hygiene) (body rest : List ℕ) : Scanned :=
  match body with
  | [] => ⟨.comment [], [], rest⟩
  | ch :: text =>
    if ch = cp '!' then docTokens hygiene (encode text) true rest
    else if ch = cp '*' ∧ text ≠ [] ∧ text.head? ≠ some (cp '*') then docTokens hygiene (encode text) false rest
    else ⟨.comment (encode body), [], rest⟩

/-- The delimiters of `n + 1` comments that are open are closed, the last one at the end. -/
def Closes : ℕ → List Piece → Prop
  | _, [] => False
  | n, .opening :: ps => Closes (n + 1) ps
  | 0, .closing :: ps => ps = []
  | n + 1, .closing :: ps => Closes n ps
  | n, .char _ :: ps => Closes n ps

theorem CommentBody.closes {ps : List Piece} (h : CommentBody ps) (n : ℕ) (rest : List Piece) :
    Closes n (ps ++ rest) ↔ Closes n rest := by
  induction h generalizing n rest with
  | nil => exact Iff.rfl
  | char ch _ ih => exact ih n rest
  | comment _ _ ih ih' =>
    rw [List.append_assoc, List.cons_append, Closes, ih, List.cons_append, Closes, ih']

theorem IsComment.closes {body : List ℕ} (h : IsComment body) : Closes 0 (pieces (body ++ [cp '*', cp '/'])) := by
  rcases h with ⟨ps, hps, heq⟩
  rw [heq, hps.closes]
  exact rfl

section Scan

variable {stop : LexError} {str : List UInt8} {n : ℕ} {ch ch' : ℕ} {cs text rest : List ℕ}

theorem scanBlockComment_char (h : ch ≠ cp '/') (h' : ch ≠ cp '*') (hlt : ch < 0x200000) :
    scanBlockComment stop str n (ch :: cs) = scanBlockComment stop (str ++ utf8 ch) n cs := by
  rw [scanBlockComment.eq_def]
  simp only [if_neg h, if_neg h', append_eq_ok.mpr ⟨hlt, rfl⟩]

theorem scanBlockComment_slash (hlt : ch < 0x200000) : scanBlockComment stop str n (cp '/' :: ch :: cs) =
    scanBlockComment stop (str ++ encode [cp '/', ch]) (if ch = cp '*' then n + 1 else n) cs := by
  have happ : append (str ++ ascii ['/']) ch = .ok (str ++ encode [cp '/', ch]) :=
    append_eq_ok.mpr ⟨hlt, by simp [List.append_assoc]; rfl⟩
  rw [scanBlockComment, if_pos rfl, happ]

theorem scanBlockComment_star (h : ch ≠ cp '/') (hlt : ch < 0x200000) :
    scanBlockComment stop str n (cp '*' :: ch :: cs) = scanBlockComment stop (str ++ encode [cp '*', ch]) n cs := by
  have happ : append (str ++ ascii ['*']) ch = .ok (str ++ encode [cp '*', ch]) :=
    append_eq_ok.mpr ⟨hlt, by simp [List.append_assoc]; rfl⟩
  rw [scanBlockComment, if_neg (by decide), if_pos rfl, if_neg h, happ]

theorem scanBlockComment_close : scanBlockComment stop str 0 (cp '*' :: cp '/' :: cs) = .ok (str, cs) := by
  rw [scanBlockComment, if_neg (by decide), if_pos rfl, if_pos rfl, if_pos rfl]

theorem scanBlockComment_closeInner : scanBlockComment stop str (n + 1) (cp '*' :: cp '/' :: cs) =
    scanBlockComment stop (str ++ encode [cp '*', cp '/']) n cs := by
  rw [scanBlockComment, if_neg (by decide), if_pos rfl, if_pos rfl, if_neg (Nat.succ_ne_zero n)]
  rfl

theorem pieces_eq_nil : pieces cs = [] ↔ cs = [] := by
  match cs with
  | [] => exact iff_of_true rfl rfl
  | [ch] => simp [pieces]
  | ch :: ch' :: cs =>
    rw [pieces]
    split_ifs <;> simp

theorem pieces_char (h : ¬(ch = cp '/' ∧ ch' = cp '*')) (h' : ¬(ch = cp '*' ∧ ch' = cp '/')) :
    pieces (ch :: ch' :: cs) = .char ch :: pieces (ch' :: cs) := by
  rw [pieces, if_neg h, if_neg h']

/-- The character behind a slash or a star that the lexer takes together with it. -/
theorem allSeen_pair {ps : List Piece} (hch : ch = cp '/' ∨ ch = cp '*') (hopen : ¬(ch = cp '/' ∧ ch' = cp '*'))
    (hclose : ¬(ch = cp '*' ∧ ch' = cp '/')) : AllSeen (some ch) (.char ch' :: ps) ↔ AllSeen none ps := by
  have hsame : (ch' = cp '/' ∨ ch' = cp '*') → ch = ch' := by
    rintro (rfl | rfl)
    · exact hch.resolve_right fun h => hclose ⟨h, rfl⟩
    · exact hch.resolve_left fun h => hopen ⟨h, rfl⟩
  rw [AllSeen]
  split_ifs with heq hrun
  · exact Iff.rfl
  · exact absurd (congrArg some (hsame hrun)) heq
  · exact Iff.rfl

/-- Behind a slash or a star there is a delimiter that is missed, or a character. -/
theorem pieces_behind (cs : List ℕ) (hch : ch = cp '/' ∨ ch = cp '*') (hopen : ¬(ch = cp '/' ∧ ch' = cp '*'))
    (hclose : ¬(ch = cp '*' ∧ ch' = cp '/')) :
    (ch = ch' ∧ ∃ c cs', cs = c :: cs' ∧ ¬AllSeen (some ch) (pieces (ch' :: cs)) ∧
      (ch = cp '/' ∧ c = cp '*' ∧ pieces (ch' :: cs) = .opening :: pieces cs' ∨
        ch = cp '*' ∧ c = cp '/' ∧ pieces (ch' :: cs) = .closing :: pieces cs')) ∨
    pieces (ch' :: cs) = .char ch' :: pieces cs := by
  cases cs with
  | nil => exact .inr rfl
  | cons c cs =>
    rw [pieces]
    split_ifs with hopen' hclose'
    · obtain ⟨rfl, rfl⟩ := hopen'
      obtain rfl := hch.resolve_right fun h => hclose ⟨h, rfl⟩
      exact .inl ⟨rfl, _, cs, rfl, fun h => h.1 rfl, .inl ⟨rfl, rfl, rfl⟩⟩
    · obtain ⟨rfl, rfl⟩ := hclose'
      obtain rfl := hch.resolve_left fun h => hopen ⟨h, rfl⟩
      exact .inl ⟨rfl, _, cs, rfl, fun h => h.1 rfl, .inr ⟨rfl, rfl, rfl⟩⟩
    · exact .inr rfl

/-- The loop ends at the closing delimiter of the comment, with the text in front of it. -/
theorem scanBlockComment_closes (stop : LexError) (str : List UInt8) (hn : Closes n (pieces text))
    (hseen : AllSeen none (pieces text)) (hlt : ∀ c ∈ text, c < 0x200000) (rest : List ℕ) : ∃ body, text = body ++ [cp '*', cp '/'] ∧
      scanBlockComment stop str n (text ++ rest) = .ok (str ++ encode body, rest) := by
  induction hlen : text.length using Nat.strong_induction_on generalizing text str n with
  | _ len ih =>
    subst hlen
    match text, hn, hseen, hlt with
    | [], hn, _, _ => exact hn.elim
    | [ch], hn, _, _ => exact hn.elim
    | ch :: ch' :: cs, hn, hseen, hlt =>
      obtain ⟨hch, hch', hcs⟩ : ch < 0x200000 ∧ ch' < 0x200000 ∧ ∀ c ∈ cs, c < 0x200000 := by simpa using hlt
      -- two characters that the lexer takes together and that the reference does not tell apart from other text
      have hpair {m : ℕ} (hm : Closes m (pieces cs)) (hs : AllSeen none (pieces cs))
          (hscan : scanBlockComment stop str n (ch :: ch' :: (cs ++ rest)) =
            scanBlockComment stop (str ++ encode [ch, ch']) m (cs ++ rest)) :
          ∃ body, ch :: ch' :: cs = body ++ [cp '*', cp '/'] ∧
            scanBlockComment stop str n (ch :: ch' :: cs ++ rest) = .ok (str ++ encode body, rest) := by
        rcases ih cs.length (by simp) (str ++ encode [ch, ch']) hm hs hcs rfl with ⟨body, rfl, hbody⟩
        refine ⟨ch :: ch' :: body, rfl, ?_⟩
        rw [List.cons_append, List.cons_append, hscan, hbody]
        simp [List.append_assoc]
      rw [pieces] at hn hseen
      split_ifs at hn hseen with hopen hclose
      · obtain ⟨rfl, rfl⟩ := hopen
        exact hpair hn hseen.2 (by rw [scanBlockComment_slash hch', if_pos rfl])
      · obtain ⟨rfl, rfl⟩ := hclose
        cases n with
        | zero =>
          obtain rfl := pieces_eq_nil.mp hn
          exact ⟨[], rfl, by simp [scanBlockComment_close]⟩
        | succ n => exact hpair hn hseen.2 scanBlockComment_closeInner
      · by_cases hdelim : ch = cp '/' ∨ ch = cp '*'
        · rw [AllSeen, if_neg (by simp), if_pos hdelim] at hseen
          rcases pieces_behind cs hdelim hopen hclose with ⟨-, c, cs', -, hmissed, -⟩ | hpieces
          · exact absurd hseen hmissed
          rw [hpieces] at hn hseen
          have hs := (allSeen_pair hdelim hopen hclose).mp hseen
          rcases hdelim with rfl | rfl
          · exact hpair hn hs (by rw [scanBlockComment_slash hch', if_neg fun h => hopen ⟨rfl, h⟩])
          · exact hpair hn hs (scanBlockComment_star (fun h => hclose ⟨rfl, h⟩) hch')
        · rw [AllSeen, if_neg (by simp), if_neg hdelim] at hseen
          rw [not_or] at hdelim
          rcases ih (ch' :: cs).length (by simp) (str ++ utf8 ch) hn hseen (List.forall_mem_cons.mpr ⟨hch', hcs⟩)
            rfl with ⟨body, hbody, hscan⟩
          refine ⟨ch :: body, by rw [hbody]; rfl, ?_⟩
          rw [List.cons_append, scanBlockComment_char hdelim.1 hdelim.2 hch, hscan]
          simp [List.append_assoc]

theorem scanBlockComment_body (hn : Closes n (pieces (text ++ [cp '*', cp '/'])))
    (hseen : AllSeen none (pieces (text ++ [cp '*', cp '/']))) (hlt : ∀ c ∈ text ++ [cp '*', cp '/'], c < 0x200000)
    (rest : List ℕ) :
    scanBlockComment stop str n (text ++ cp '*' :: cp '/' :: rest) = .ok (str ++ encode text, rest) := by
  rcases scanBlockComment_closes stop str hn hseen hlt rest with ⟨body, hbody, hscan⟩
  rw [List.append_assoc, ← List.append_cancel_right hbody] at hscan
  exact hscan

/-- Only characters in front of one closing delimiter. -/
def PlainPieces : List Piece → Prop
  | [] => False
  | .opening :: _ => False
  | .closing :: ps => ps = []
  | .char _ :: ps => PlainPieces ps

/-- Where the only delimiter is missed, the loop runs to the end. -/
theorem scanBlockComment_missed (str : List UInt8) (hp : PlainPieces (pieces text)) (hseen : ¬AllSeen none (pieces text))
    (hlt : ∀ c ∈ text, c < 0x200000) : scanBlockComment stop str n text = .error stop := by
  induction hlen : text.length using Nat.strong_induction_on generalizing text str with
  | _ len ih =>
    subst hlen
    match text, hp, hseen, hlt with
    | [], hp, _, _ => exact hp.elim
    | [ch], hp, _, _ => exact hp.elim
    | ch :: ch' :: cs, hp, hseen, hlt =>
      obtain ⟨hch, hch', hcs⟩ : ch < 0x200000 ∧ ch' < 0x200000 ∧ ∀ c ∈ cs, c < 0x200000 := by simpa using hlt
      rw [pieces] at hp hseen
      split_ifs at hp hseen with hopen hclose
      · exact hp.elim
      · rw [show pieces cs = [] from hp] at hseen
        exact absurd ⟨by simp, trivial⟩ hseen
      · by_cases hdelim : ch = cp '/' ∨ ch = cp '*'
        · rw [AllSeen, if_neg (by simp), if_pos hdelim] at hseen
          rcases pieces_behind cs hdelim hopen hclose with ⟨heq, c, cs', hcs', -, hdel⟩ | hpieces
          · rcases hdel with ⟨-, -, hpieces⟩ | ⟨rfl, rfl, hpieces⟩
            · rw [hpieces] at hp
              exact hp.elim
            · rw [hpieces] at hp
              obtain rfl := pieces_eq_nil.mp hp
              rw [← heq, hcs', scanBlockComment_star (by decide) (by decide)]
              rfl
          · rw [hpieces] at hp hseen
            have hs := (allSeen_pair hdelim hopen hclose).not.mp hseen
            have hrest (str : List UInt8) := ih cs.length (by simp) str hp hs hcs rfl
            rcases hdelim with rfl | rfl
            · rw [scanBlockComment_slash hch', if_neg fun h => hopen ⟨rfl, h⟩, hrest]
            · rw [scanBlockComment_star (fun h => hclose ⟨rfl, h⟩) hch', hrest]
        · rw [AllSeen, if_neg (by simp), if_neg hdelim] at hseen
          rw [not_or] at hdelim
          rw [scanBlockComment_char hdelim.1 hdelim.2 hch]
          exact ih (ch' :: cs).length (by simp) _ hp hseen (List.forall_mem_cons.mpr ⟨hch', hcs⟩) rfl

variable {edition : Edition} {hygiene : Hygiene} {body : List ℕ}

/-- The text that the loop gets, without the mark of a doc comment. -/
def loopText (body : List ℕ) : List ℕ :=
  if body.head? = some (cp '*') ∨ body.head? = some (cp '!') then body.tail else body

/-- The body of a comment does not begin with a closing delimiter. -/
theorem Closes.head_ne (h : Closes 0 (pieces (body ++ [cp '*', cp '/']))) (text : List ℕ) :
    body ≠ cp '*' :: cp '/' :: text := by
  rintro rfl
  have hnil := pieces_eq_nil.mp (show pieces (text ++ [cp '*', cp '/']) = [] from h)
  simp at hnil

/-- What the loop is run on, and what is made of its result. -/
theorem scanBlock_eq_loop (stop : LexError) (hygiene : Hygiene) (hbody : body ≠ [])
    (hclose : ∀ text, body ≠ cp '*' :: cp '/' :: text) (rest : List ℕ) :
    ∃ front finish, scanBlock stop hygiene (body ++ cp '*' :: cp '/' :: rest) =
        (scanBlockComment stop front 0 (loopText body ++ cp '*' :: cp '/' :: rest)).map finish ∧
      finish (front ++ encode (loopText body), rest) = blockToken hygiene body rest := by
  match body, hbody, hclose with
  | ch :: text, _, hclose =>
    by_cases hstar : ch = cp '*'
    · subst hstar
      match text, hclose with
      | [], _ =>
        refine ⟨ascii ['*'], fun out => ⟨.comment out.1, [], out.2⟩, ?_, rfl⟩
        simp only [loopText, List.head?_cons, true_or, if_true, List.tail_cons, List.nil_append, List.cons_append]
        simp only [scanBlock, getc, Lex.bind_ok, if_true]
        cases scanBlockComment stop (ascii ['*']) 0 (cp '*' :: cp '/' :: rest) <;> rfl
      | ch' :: text, hclose =>
        have hslash : ch' ≠ cp '/' := fun h => hclose text (by rw [h])
        by_cases hstar' : ch' = cp '*'
        · subst hstar'
          refine ⟨ascii ['*'], fun out => ⟨.comment out.1, [], out.2⟩, ?_, rfl⟩
          simp only [loopText, List.head?_cons, true_or, if_true, List.tail_cons, List.cons_append]
          simp only [scanBlock, getc, Lex.bind_ok, if_true]
          cases scanBlockComment stop (ascii ['*']) 0 (cp '*' :: (text ++ cp '*' :: cp '/' :: rest)) <;> rfl
        · refine ⟨[], fun out => docTokens hygiene out.1 false out.2, ?_, ?_⟩
          · simp only [loopText, List.head?_cons, true_or, if_true, List.tail_cons, List.cons_append]
            simp only [scanBlock, getc, Lex.bind_ok, if_true, if_neg hstar', if_neg hslash]
            cases scanBlockComment stop [] 0 (ch' :: (text ++ cp '*' :: cp '/' :: rest)) <;> rfl
          · have hexclam : ¬cp '*' = cp '!' := by decide
            simp [loopText, blockToken, hexclam, hstar']
    · by_cases hexclam : ch = cp '!'
      · subst hexclam
        refine ⟨[], fun out => docTokens hygiene out.1 true out.2, ?_, rfl⟩
        simp only [loopText, List.head?_cons, or_true, if_true, List.tail_cons, List.cons_append]
        simp only [scanBlock, getc, Lex.bind_ok, if_neg hstar, if_true]
        cases scanBlockComment stop [] 0 (text ++ cp '*' :: cp '/' :: rest) <;> rfl
      · have hloop : loopText (ch :: text) = ch :: text := by simp [loopText, hstar, hexclam]
        refine ⟨[], fun out => ⟨.comment out.1, [], out.2⟩, ?_, ?_⟩
        · rw [hloop, List.cons_append]
          simp only [scanBlock, getc, Lex.bind_ok, if_neg hstar, if_neg hexclam]
          cases scanBlockComment stop [] 0 (ch :: (text ++ cp '*' :: cp '/' :: rest)) <;> rfl
        · rw [hloop, blockToken, if_neg hexclam, if_neg fun h => hstar h.1]
          rfl

/-- The mark of a doc comment, or the first of several stars, is a character of its own. -/
theorem pieces_loopText (hclose : ∀ text, body ≠ cp '*' :: cp '/' :: text) :
    pieces (body ++ [cp '*', cp '/']) = pieces (loopText body ++ [cp '*', cp '/']) ∨
      ∃ ch, body = ch :: loopText body ∧ (ch = cp '*' ∨ ch = cp '!') ∧
        pieces (body ++ [cp '*', cp '/']) = .char ch :: pieces (loopText body ++ [cp '*', cp '/']) := by
  match body, hclose with
  | [], _ => exact .inl rfl
  | ch :: text, hclose =>
    by_cases h : ch = cp '*' ∨ ch = cp '!'
    · have hloop : loopText (ch :: text) = text := by simp [loopText, h]
      refine .inr ⟨ch, by rw [hloop], h, ?_⟩
      have hopen : ch ≠ cp '/' := by rcases h with rfl | rfl <;> decide
      rw [hloop]
      match text, hclose with
      | [], _ => exact pieces_char (fun h => hopen h.1) fun h => absurd h.2 (by decide)
      | ch' :: text, hclose =>
        exact pieces_char (fun h => hopen h.1) fun h => hclose text (by rw [h.1, h.2])
    · exact .inl (by simp [loopText, not_or.mp h])

/-- The delimiters that the loop has to see are those of the comment. -/
theorem delimitersSeen_iff (hclose : ∀ text, body ≠ cp '*' :: cp '/' :: text) :
    DelimitersSeen body ↔ AllSeen none (pieces (loopText body ++ [cp '*', cp '/'])) := by
  rw [DelimitersSeen]
  by_cases hstar : body.head? = some (cp '*')
  · rw [if_pos hstar, loopText, if_pos (.inl hstar)]
  · rw [if_neg hstar]
    rcases pieces_loopText hclose with heq | ⟨ch, hbody, rfl | rfl, heq⟩
    · rw [heq]
    · exact absurd (by rw [hbody]; rfl) hstar
    · rw [heq, AllSeen, if_neg (by simp), if_neg (by decide)]

end Scan

variable {stop : LexError} {edition : Edition} {hygiene : Hygiene} {body : List ℕ}

/-- The comment with this body is read as its tokens, and the input goes on behind it. -/
def ReadsComment (stop : LexError) (edition : Edition) (hygiene : Hygiene) (body : List ℕ) : Prop :=
  ∀ (atStart : Bool) rest, scanToken stop edition hygiene atStart
    (cp '/' :: cp '*' :: (body ++ cp '*' :: cp '/' :: rest)) = .ok (blockToken hygiene body rest)

theorem readsComment_iff_scanBlock : ReadsComment stop edition hygiene body ↔
    ∀ rest, scanBlock stop hygiene (body ++ cp '*' :: cp '/' :: rest) = .ok (blockToken hygiene body rest) := by
  have hcons (rest : List ℕ) : ∃ ch input, body ++ cp '*' :: cp '/' :: rest = ch :: input := by
    cases body with
    | nil => exact ⟨_, _, rfl⟩
    | cons ch body => exact ⟨_, _, rfl⟩
  constructor
  · intro h rest
    rcases hcons rest with ⟨ch, input, hinput⟩
    rw [← h false rest, hinput, scanToken_blockComment]
  · intro h atStart rest
    rcases hcons rest with ⟨ch, input, hinput⟩
    rw [← h rest, hinput, scanToken_blockComment]

/-- A comment ends at its closing delimiter, and a doc comment has the text inside, if no delimiter stands behind an odd
number of its first character; a comment without comments inside does so only then. -/
theorem readsComment_iff_of_isComment (hc : IsComment body) (hlt : ∀ c ∈ body, c < 0x200000) :
    (DelimitersSeen body → ReadsComment stop edition hygiene body) ∧
      (pieces (body ++ [cp '*', cp '/']) = body.map .char ++ [.closing] →
        (ReadsComment stop edition hygiene body ↔ DelimitersSeen body)) := by
  have hclose := hc.closes.head_ne
  have hlt' : ∀ c ∈ loopText body ++ [cp '*', cp '/'], c < 0x200000 := by
    have htail : ∀ c ∈ loopText body, c < 0x200000 := by
      unfold loopText
      split_ifs
      · exact fun c hc => hlt c (List.mem_of_mem_tail hc)
      · exact hlt
    intro c hc
    rcases List.mem_append.mp hc with hc | hc
    · exact htail c hc
    · have : c = cp '*' ∨ c = cp '/' := by simpa using hc
      rcases this with rfl | rfl <;> decide
  have hseen : DelimitersSeen body → ReadsComment stop edition hygiene body := by
    intro hseen
    rw [readsComment_iff_scanBlock]
    intro rest
    rw [delimitersSeen_iff hclose] at hseen
    have hcloses : Closes 0 (pieces (loopText body ++ [cp '*', cp '/'])) := by
      rcases pieces_loopText hclose with heq | ⟨ch, -, -, heq⟩
      · exact heq ▸ hc.closes
      · exact (heq ▸ hc.closes : Closes 0 (.char ch :: _))
    by_cases hbody : body = []
    · rw [hbody]
      rfl
    rcases scanBlock_eq_loop stop hygiene hbody hclose rest with ⟨front, finish, hscan, hfinish⟩
    rw [hscan, scanBlockComment_body hcloses hseen hlt' rest]
    exact congrArg Except.ok hfinish
  refine ⟨hseen, fun hplain => ⟨fun h => ?_, hseen⟩⟩
  by_contra hmissed
  rw [delimitersSeen_iff hclose] at hmissed
  have hp : PlainPieces (pieces (loopText body ++ [cp '*', cp '/'])) := by
    have hall : ∀ l : List ℕ, PlainPieces (l.map .char ++ [.closing]) := by
      intro l
      induction l with
      | nil => rfl
      | cons c l ih => exact ih
    have hp := hall body
    rw [← hplain] at hp
    rcases pieces_loopText hclose with heq | ⟨ch, -, -, heq⟩
    · exact heq ▸ hp
    · exact (heq ▸ hp : PlainPieces (.char ch :: _))
  have hbody : body ≠ [] := by
    rintro rfl
    exact hmissed ⟨by simp, trivial⟩
  rcases scanBlock_eq_loop stop hygiene hbody hclose [] with ⟨front, finish, hscan, -⟩
  have hread := readsComment_iff_scanBlock.mp h []
  rw [hscan, scanBlockComment_missed _ hp hmissed hlt'] at hread
  cases hread

/-- A comment in a comment. -/
theorem nested_comment_read :
    ReadsComment .endOfFile .rust2021 [] [cp 'a', cp '/', cp '*', cp 'b', cp '*', cp '/'] := by
  have hpieces : pieces ([cp 'a', cp '/', cp '*', cp 'b', cp '*', cp '/'] ++ [cp '*', cp '/']) =
      [.char (cp 'a'), .opening, .char (cp 'b'), .closing, .closing] := by decide
  apply (readsComment_iff_of_isComment _ (by decide)).1 _
  · exact ⟨[.char (cp 'a'), .opening, .char (cp 'b'), .closing],
      .char _ (.comment (.char (cp 'b') .nil) .nil), hpieces⟩
  · rw [DelimitersSeen, if_neg (by decide), hpieces]
    simp [AllSeen, cp]

/-- A comment of four stars is not ended by them. -/
theorem four_stars_missed : IsComment [cp '*', cp '*'] ∧ ¬ReadsComment .endOfFile .rust2021 [] [cp '*', cp '*'] := by
  refine ⟨⟨[.char (cp '*'), .char (cp '*')], .char _ (.char _ .nil), rfl⟩, fun h => ?_⟩
  have hread := h false []
  have hscan : scanToken .endOfFile .rust2021 [] false
      (cp '/' :: cp '*' :: ([cp '*', cp '*'] ++ cp '*' :: cp '/' :: [])) = .error .endOfFile := rfl
  rw [hscan] at hread
  cases hread

end Mrustc.Parse
