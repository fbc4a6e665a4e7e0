import Mathlib.Data.List.Basic
import Mathlib.Logic.Function.Iterate
import Mathlib.Tactic

/-! # Look-ahead and putback

`TokenStream` over any source of tokens: the slot for one token put back, the queue of those looked at, and the
edition and hygiene that the parser sees. Positions and the parser's flags are left out. A client of the stream
cannot tell it from a cursor that moves over the tokens in their order.
-/

namespace Mrustc.Parse.Stream

/-- What a stream hands out: the empty token, the end, or a token proper. -/
inductive Delivered (T : Type)
  | null
  | eof
  | token (t : T)

/-- `LookaheadEnt`: a token with its edition and hygiene. -/
structure Entry (T E H : Type) where
  tok : Delivered T
  edition : E
  hygiene : H

/-- The virtual functions of a stream. -/
structure Source (S T E H : Type) where
  realGetToken : S → Delivered T × S
  realGetEdition : S → E
  realGetHygiene : S → H

inductive ParseError
  | doublePutback
  | excessiveLookahead

structure TokenStream (S T E H : Type) where
  /-- `m_cache` where `m_cache_valid` is set -/
  cache : Option (Delivered T)
  hygiene : H
  edition : E
  lookahead : List (Entry T E H)
  inner : S

variable {S T E H Ty : Type}

namespace TokenStream

variable (src : Source S T E H) (type : Delivered T → Ty) (st : TokenStream S T E H)

def getToken : Delivered T × TokenStream S T E H :=
  match st.cache with
  | some tok => (tok, {st with cache := none})
  | none =>
    match st.lookahead with
    | entry :: rest =>
      (entry.tok, {st with edition := entry.edition, hygiene := entry.hygiene, lookahead := rest})
    | [] =>
      let (tok, inner) := src.realGetToken st.inner
      (tok, {st with inner, edition := src.realGetEdition inner, hygiene := src.realGetHygiene inner})

def putback (tok : Delivered T) : Except ParseError (TokenStream S T E H) :=
  match st.cache with
  | some _ => .error .doublePutback
  | none => .ok {st with cache := some tok}

/-- One round of the loop of `lookahead` -/
def readAhead : TokenStream S T E H :=
  let (tok, inner) := src.realGetToken st.inner
  {st with inner, lookahead := st.lookahead ++ [⟨tok, src.realGetEdition inner, src.realGetHygiene inner⟩]}

def maxLookahead : ℕ := 3

/-- The queue entry `i`, read first if it is not there yet. -/
def lookaheadQueue (i : ℕ) : Except ParseError (Ty × TokenStream S T E H) :=
  if i ≥ maxLookahead then .error .excessiveLookahead
  else
    let st := (readAhead src)^[i + 1 - st.lookahead.length] st
    match st.lookahead[i]? with
    | some entry => .ok (type entry.tok, st)
    | none => .error .excessiveLookahead

/-- `lookahead`: the token put back comes first. -/
def lookaheadType (i : ℕ) : Except ParseError (Ty × TokenStream S T E H) :=
  match st.cache with
  | some tok => if i = 0 then .ok (type tok, st) else lookaheadQueue src type st (i - 1)
  | none => lookaheadQueue src type st i

end TokenStream

/-! ## Clients -/

/-- What a client does: `putback` gets the token that was read last. -/
inductive Call
  | getToken
  | lookahead (i : ℕ)
  | putback

/-- What a call shows: the token with the edition and hygiene reported after it, or a type. -/
inductive Outcome (T E H Ty : Type)
  | read (entry : Entry T E H)
  | looked (type : Ty)
  | putBack

/-- A client with the token that it read last. -/
structure Client (S T E H : Type) where
  stream : TokenStream S T E H
  last : Option (Delivered T)

namespace Client

variable (src : Source S T E H) (type : Delivered T → Ty)

def step (c : Client S T E H) : Call → Option (Outcome T E H Ty × Client S T E H)
  | .getToken =>
    let (tok, stream) := c.stream.getToken src
    some (.read ⟨tok, stream.edition, stream.hygiene⟩, ⟨stream, some tok⟩)
  | .lookahead i =>
    match c.stream.lookaheadType src type i with
    | .ok (ty, stream) => some (.looked ty, {c with stream})
    | .error _ => none
  | .putback =>
    match c.last with
    | none => none
    | some tok =>
      match c.stream.putback tok with
      | .ok stream => some (.putBack, {c with stream})
      | .error _ => none

/-- What a sequence of calls shows, `none` where one fails. -/
def run (c : Client S T E H) : List Call → Option (List (Outcome T E H Ty))
  | [] => some []
  | call :: calls => do
    let (outcome, c) ← c.step src type call
    return outcome :: (← c.run calls)

end Client

/-! ## The cursor -/

/-- The last call but for looks ahead: none that moved the cursor, one forwards or one backwards. -/
inductive Moved
  | no
  | forwards
  | backwards
  deriving DecidableEq

/-- A place in a sequence of tokens. -/
structure Cursor where
  pos : ℕ
  moved : Moved

namespace Cursor

variable (type : Delivered T → Ty) (entries : ℕ → Entry T E H)

/-- The first entry that a token put back does not stand for. -/
def next (c : Cursor) : ℕ := if c.moved = .backwards then c.pos + 1 else c.pos

/-- The calls that the limits allow, on the sequence of tokens. -/
def step (c : Cursor) : Call → Option (Outcome T E H Ty × Cursor)
  | .getToken => some (.read (entries c.pos), ⟨c.pos + 1, .forwards⟩)
  | .lookahead i =>
    if c.pos + i < c.next + TokenStream.maxLookahead then some (.looked (type (entries (c.pos + i)).tok), c) else none
  | .putback => if c.moved = .forwards then some (.putBack, ⟨c.pos - 1, .backwards⟩) else none

def run (c : Cursor) : List Call → Option (List (Outcome T E H Ty))
  | [] => some []
  | call :: calls => do
    let (outcome, c) ← c.step type entries call
    return outcome :: (← c.run calls)

end Cursor

section Refinement

variable (src : Source S T E H) (s₀ : S)

/-- The source after `n` tokens. -/
def after (n : ℕ) : S := (fun s => (src.realGetToken s).2)^[n] s₀

/-- The tokens of a source read straight through. -/
def straight (n : ℕ) : Entry T E H :=
  let read := src.realGetToken (after src s₀ n)
  ⟨read.1, src.realGetEdition read.2, src.realGetHygiene read.2⟩

/-- A stream and its client stand where the cursor does. -/
structure Tracks (client : Client S T E H) (c : Cursor) : Prop where
  inner : client.stream.inner = after src s₀ (c.next + client.stream.lookahead.length)
  lookahead : client.stream.lookahead =
    (List.range client.stream.lookahead.length).map fun k => straight src s₀ (c.next + k)
  cache : client.stream.cache = if c.moved = .backwards then some (straight src s₀ c.pos).tok else none
  last : c.moved = .forwards → 0 < c.pos ∧ client.last = some (straight src s₀ (c.pos - 1)).tok
  reported : c.moved ≠ .no → client.stream.edition = (straight src s₀ (c.next - 1)).edition ∧
    client.stream.hygiene = (straight src s₀ (c.next - 1)).hygiene

variable {src} {s₀} {type : Delivered T → Ty} {client : Client S T E H} {c c' : Cursor} {call : Call}
  {o : Outcome T E H Ty} {st : TokenStream S T E H} {q n : ℕ}

theorem after_succ (n : ℕ) : after src s₀ (n + 1) = (src.realGetToken (after src s₀ n)).2 :=
  Function.iterate_succ_apply' _ n s₀

/-- The queue holds the entries from `q` on, and the source stands after them. -/
structure Queued (src : Source S T E H) (s₀ : S) (q : ℕ) (st : TokenStream S T E H) : Prop where
  inner : st.inner = after src s₀ (q + st.lookahead.length)
  lookahead : st.lookahead = (List.range st.lookahead.length).map fun k => straight src s₀ (q + k)

theorem Queued.readAhead (h : Queued src s₀ q st) : Queued src s₀ q (st.readAhead src) := by
  have hlast : st.readAhead src =
      {st with
        inner := after src s₀ (q + st.lookahead.length + 1)
        lookahead := st.lookahead ++ [straight src s₀ (q + st.lookahead.length)]} := by
    rw [TokenStream.readAhead, after_succ, ← h.inner, straight, ← h.inner]
  rw [hlast]
  constructor
  case inner => simp [Nat.add_assoc]
  case lookahead =>
    simp only [List.length_append, List.length_singleton, List.range_succ, List.map_append, ← h.lookahead]
    rfl

/-- Reading ahead leaves the slot and what the parser sees. -/
theorem readAhead_iterate (n : ℕ) (h : Queued src s₀ q st) :
    Queued src s₀ q ((TokenStream.readAhead src)^[n] st) ∧
      ((TokenStream.readAhead src)^[n] st).lookahead.length = st.lookahead.length + n ∧
      ((TokenStream.readAhead src)^[n] st).cache = st.cache ∧
      ((TokenStream.readAhead src)^[n] st).edition = st.edition ∧
      ((TokenStream.readAhead src)^[n] st).hygiene = st.hygiene := by
  induction n with
  | zero => exact ⟨h, rfl, rfl, rfl, rfl⟩
  | succ n ih =>
    rw [Function.iterate_succ_apply']
    rcases ih with ⟨hqueued, hlength, hcache, hedition, hhygiene⟩
    refine ⟨hqueued.readAhead, ?_, hcache, hedition, hhygiene⟩
    rw [TokenStream.readAhead, List.length_append, hlength]
    rfl

theorem Queued.getElem? (h : Queued src s₀ q st) (hn : n < st.lookahead.length) :
    st.lookahead[n]? = some (straight src s₀ (q + n)) := by
  rw [h.lookahead]
  simp [hn]

/-- A look at a queue entry shows its type and reads no more than that. -/
theorem lookaheadQueue_eq (type : Delivered T → Ty) (h : Queued src s₀ q st) (hn : n < TokenStream.maxLookahead) :
    ∃ st', st.lookaheadQueue src type n = .ok (type (straight src s₀ (q + n)).tok, st') ∧ Queued src s₀ q st' ∧
      st'.cache = st.cache ∧ st'.edition = st.edition ∧ st'.hygiene = st.hygiene := by
  have hread := readAhead_iterate (n + 1 - st.lookahead.length) h
  rcases hread with ⟨hqueued, hlength, hkept⟩
  refine ⟨_, ?_, hqueued, hkept⟩
  rw [TokenStream.lookaheadQueue, if_neg (by omega)]
  dsimp only
  rw [hqueued.getElem? (by omega)]

theorem Tracks.queued (h : Tracks src s₀ client c) : Queued src s₀ c.next client.stream := ⟨h.inner, h.lookahead⟩

/-- Reading ahead moves no cursor. -/
theorem Tracks.of_queued (h : Tracks src s₀ client c) (hqueued : Queued src s₀ c.next st)
    (hcache : st.cache = client.stream.cache) (hedition : st.edition = client.stream.edition)
    (hhygiene : st.hygiene = client.stream.hygiene) : Tracks src s₀ {client with stream := st} c where
  inner := hqueued.inner
  lookahead := hqueued.lookahead
  cache := hcache.trans h.cache
  last := h.last
  reported hmoved := ⟨hedition.trans (h.reported hmoved).1, hhygiene.trans (h.reported hmoved).2⟩

theorem Tracks.lookahead_step (type : Delivered T → Ty) (h : Tracks src s₀ client c) {i : ℕ}
    (hi : c.pos + i < c.next + TokenStream.maxLookahead) :
    ∃ st, client.stream.lookaheadType src type i = .ok (type (straight src s₀ (c.pos + i)).tok, st) ∧
      Tracks src s₀ {client with stream := st} c := by
  have hcache := h.cache
  by_cases hmoved : c.moved = .backwards
  · have hnext : c.next = c.pos + 1 := if_pos hmoved
    rw [if_pos hmoved] at hcache
    unfold TokenStream.lookaheadType
    rw [hcache]
    cases i with
    | zero => exact ⟨client.stream, rfl, h⟩
    | succ i =>
      rcases lookaheadQueue_eq type h.queued (by omega : i < TokenStream.maxLookahead) with
        ⟨st, hst, hqueued, hc, he, hh⟩
      refine ⟨st, ?_, h.of_queued hqueued hc he hh⟩
      dsimp only
      rw [if_neg (Nat.succ_ne_zero i), Nat.add_sub_cancel, hst, hnext, Nat.add_right_comm, Nat.add_assoc]
  · have hnext : c.next = c.pos := if_neg hmoved
    rw [if_neg hmoved] at hcache
    unfold TokenStream.lookaheadType
    rw [hcache]
    rcases lookaheadQueue_eq type h.queued (by omega : i < TokenStream.maxLookahead) with
      ⟨st, hst, hqueued, hc, he, hh⟩
    refine ⟨st, ?_, h.of_queued hqueued hc he hh⟩
    dsimp only
    rw [hst, hnext]

theorem Tracks.getToken_step (h : Tracks src s₀ client c) :
    ∃ client', client.step src type .getToken = some (.read (straight src s₀ c.pos), client') ∧
      Tracks src s₀ client' ⟨c.pos + 1, .forwards⟩ := by
  have hcache := h.cache
  have hinner := h.inner
  have hlookahead := h.lookahead
  by_cases hmoved : c.moved = .backwards
  · have hnext : c.next = c.pos + 1 := if_pos hmoved
    have hreported := h.reported (by rw [hmoved]; exact Moved.noConfusion)
    rw [if_pos hmoved] at hcache
    rw [hnext, Nat.add_sub_cancel] at hreported
    refine ⟨⟨{client.stream with cache := none}, some (straight src s₀ c.pos).tok⟩, ?_, ?_⟩
    · rw [Client.step, TokenStream.getToken, hcache]
      dsimp only
      rw [hreported.1, hreported.2]
    · rw [hnext] at hinner hlookahead
      exact ⟨hinner, hlookahead, rfl, fun _ => ⟨Nat.succ_pos _, rfl⟩, fun _ => hreported⟩
  · have hnext : c.next = c.pos := if_neg hmoved
    rw [if_neg hmoved] at hcache
    rw [hnext] at hinner hlookahead
    rcases client with ⟨⟨cache, hygiene, edition, queue, inner⟩, last⟩
    dsimp only at hcache hinner hlookahead
    subst hcache
    cases queue with
    | nil =>
      rw [List.length_nil, Nat.add_zero] at hinner
      subst hinner
      refine ⟨_, rfl, ?_⟩
      constructor
      case inner => exact (after_succ c.pos).symm
      case lookahead => rfl
      case cache => rfl
      case last => exact fun _ => ⟨Nat.succ_pos _, rfl⟩
      case reported => exact fun _ => ⟨rfl, rfl⟩
    | cons entry rest =>
      rw [List.length_cons, List.range_succ_eq_map, List.map_cons, List.map_map] at hlookahead
      rcases List.cons.inj hlookahead with ⟨rfl, hrest⟩
      have hqueue : rest = (List.range rest.length).map fun k => straight src s₀ (c.pos + 1 + k) := by
        conv_lhs => rw [hrest]
        congr 1
        ext k
        rw [Function.comp_apply, Nat.succ_eq_add_one, Nat.add_comm k 1, Nat.add_assoc]
      refine ⟨_, rfl, ?_⟩
      constructor
      case inner => rw [hinner, List.length_cons, Nat.add_comm rest.length 1, ← Nat.add_assoc]; rfl
      case lookahead => exact hqueue
      case cache => rfl
      case last => exact fun _ => ⟨Nat.succ_pos _, rfl⟩
      case reported => exact fun _ => ⟨rfl, rfl⟩

theorem Tracks.putback_step (h : Tracks src s₀ client c) (hmoved : c.moved = .forwards) :
    ∃ client', client.step src type .putback = some (.putBack, client') ∧
      Tracks src s₀ client' ⟨c.pos - 1, .backwards⟩ := by
  have hcache := h.cache
  have hnext : c.next = c.pos := if_neg (by rw [hmoved]; exact Moved.noConfusion)
  have hreported := h.reported (by rw [hmoved]; exact Moved.noConfusion)
  rcases h.last hmoved with ⟨hpos, hlast⟩
  rw [if_neg (by rw [hmoved]; exact Moved.noConfusion)] at hcache
  refine ⟨{client with stream := {client.stream with cache := some (straight src s₀ (c.pos - 1)).tok}}, ?_, ?_⟩
  · rw [Client.step, hlast]
    dsimp only
    rw [TokenStream.putback, hcache]
  · have hback : (⟨c.pos - 1, .backwards⟩ : Cursor).next = c.next := by
      rw [hnext, Cursor.next, if_pos rfl]
      dsimp only
      omega
    constructor
    case inner => rw [hback]; exact h.inner
    case lookahead => rw [hback]; exact h.lookahead
    case cache => rfl
    case last => exact fun hf => Moved.noConfusion hf
    case reported => rw [hback]; exact fun _ => hreported

theorem tracks_step (h : Tracks src s₀ client c) (hstep : c.step type (straight src s₀) call = some (o, c')) :
    ∃ client', client.step src type call = some (o, client') ∧ Tracks src s₀ client' c' := by
  cases call with
  | getToken =>
    cases hstep
    exact h.getToken_step
  | lookahead i =>
    rw [Cursor.step] at hstep
    split at hstep
    next hi =>
      cases hstep
      rcases h.lookahead_step type hi with ⟨st, hst, htracks⟩
      refine ⟨_, ?_, htracks⟩
      rw [Client.step, hst]
    · cases hstep
  | putback =>
    rw [Cursor.step] at hstep
    split at hstep
    next hmoved =>
      cases hstep
      exact h.putback_step hmoved
    · cases hstep

/-- What the cursor shows, the stream shows. -/
theorem tracks_run {calls : List Call} {os : List (Outcome T E H Ty)} (h : Tracks src s₀ client c)
    (hrun : c.run type (straight src s₀) calls = some os) : client.run src type calls = some os := by
  induction calls generalizing client c os with
  | nil => exact hrun
  | cons call calls ih =>
    rw [Cursor.run] at hrun
    cases hstep : c.step type (straight src s₀) call with
    | none => simp [hstep] at hrun
    | some r =>
      rcases r with ⟨o, c'⟩
      rcases tracks_step h hstep with ⟨client', hclient, htracks⟩
      rw [hstep] at hrun
      simp only [Option.bind_eq_bind, Option.bind_some, Option.bind_eq_some_iff] at hrun
      rcases hrun with ⟨os', hos', hos⟩
      rw [Client.run, hclient]
      simp only [Option.bind_eq_bind, Option.bind_some, ih htracks hos']
      exact hos

end Refinement

/-! ## Streams of a list of tokens -/

/-- A client of a stream that nothing was asked of yet. -/
def Client.start (inner : S) (edition : E) (hygiene : H) : Client S T E H := ⟨⟨none, hygiene, edition, [], inner⟩, none⟩

/-- However it is used, a stream shows what a sequence of entries would. -/
def Indistinguishable (src : Source S T E H) (type : Delivered T → Ty) (s₀ : S) (entries : ℕ → Entry T E H) : Prop :=
  ∀ edition hygiene calls os, Cursor.run type entries ⟨0, .no⟩ calls = some os →
    (Client.start s₀ edition hygiene).run src type calls = some os

/-- The entries of a list, then the end forever. -/
def Follows (leaves : List (Entry T E H)) (entries : ℕ → Entry T E H) : Prop :=
  ∀ n, match leaves[n]? with
    | some leaf => entries n = leaf
    | none => (entries n).tok = .eof

variable {src : Source S T E H} {type : Delivered T → Ty} {s₀ : S} {entries : ℕ → Entry T E H}

theorem indistinguishable_straight : Indistinguishable src type s₀ (straight src s₀) := by
  intro edition hygiene calls os hrun
  apply tracks_run _ hrun
  exact ⟨rfl, rfl, rfl, fun h => Moved.noConfusion h, fun h => absurd rfl h⟩

theorem run_getTokens (k : ℕ) (c : Cursor) : c.run type entries (List.replicate k .getToken) =
    some ((List.range k).map fun i => .read (entries (c.pos + i))) := by
  induction k generalizing c with
  | zero => rfl
  | succ k ih =>
    rw [List.replicate_succ, Cursor.run, Cursor.step, List.range_succ_eq_map, List.map_cons, List.map_map]
    simp only [Option.bind_eq_bind, Option.bind_some, ih, Nat.add_zero]
    congr 3
    ext i
    rw [Function.comp_apply, Nat.succ_eq_add_one, Nat.add_comm i 1, Nat.add_assoc]

/-- A stream shows only one sequence of entries, that of reading it straight through. -/
theorem indistinguishable_iff : Indistinguishable src type s₀ entries ↔ entries = straight src s₀ := by
  constructor
  · intro h
    ext1 n
    have hrun := h (entries 0).edition (entries 0).hygiene (List.replicate (n + 1) .getToken) _ (run_getTokens _ _)
    have hread : Indistinguishable src type s₀ (straight src s₀) := indistinguishable_straight
    have hstraight := hread (entries 0).edition (entries 0).hygiene (List.replicate (n + 1) .getToken) _
      (run_getTokens _ _)
    have hsame := congrArg (fun l => l[n]?) (Option.some.inj (hrun.symm.trans hstraight))
    simpa using hsame
  · rintro rfl
    exact indistinguishable_straight

end Mrustc.Parse.Stream
