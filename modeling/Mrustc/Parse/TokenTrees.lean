import Mrustc.Parse.TokenStream

/-! # Streams over a token tree

`TTStream` borrows its tree and `TTStreamO` consumes it; both walk it with a stack of subtrees. They differ in
the edition that they report: that of the tree around a token, kept on the way down and up, or that of the token.
-/

namespace Mrustc.Parse.Stream

/-- A token, or a sequence of trees, which may be empty. -/
inductive TokenTree (T E H : Type)
  | token (edition : E) (hygiene : H) (tok : T)
  | group (edition : E) (hygiene : H) (subtrees : List (TokenTree T E H))

variable {T E H : Type}

namespace TokenTree

def edition : TokenTree T E H → E
  | token edition _ _ => edition
  | group edition _ _ => edition

def hygiene : TokenTree T E H → H
  | token _ hygiene _ => hygiene
  | group _ hygiene _ => hygiene

/-- `tok`, the empty token for a sequence -/
def tok : TokenTree T E H → Delivered T
  | token _ _ tok => .token tok
  | group _ _ _ => .null

def subtrees : TokenTree T E H → List (TokenTree T E H)
  | token _ _ _ => []
  | group _ _ subtrees => subtrees

def isToken : TokenTree T E H → Bool
  | token _ _ _ => true
  | group _ _ _ => false

mutual

/-- The rounds of the loop that a subtree takes. -/
def rounds : TokenTree T E H → ℕ
  | token _ _ _ => 2
  | group _ _ subtrees => 2 + roundsAll subtrees

def roundsAll : List (TokenTree T E H) → ℕ
  | [] => 0
  | t :: ts => t.rounds + roundsAll ts

end

end TokenTree

/-- A subtree on the stack, with the index of its next part. -/
structure Frame (T E H : Type) where
  idx : ℕ
  tree : TokenTree T E H

/-- The fields of `TTStream` and `TTStreamO`. -/
structure TreeWalk (T E H : Type) where
  stack : List (Frame T E H)
  edition : E
  hygiene : Option H

def Frame.rounds (f : Frame T E H) : ℕ := 1 + TokenTree.roundsAll (f.tree.subtrees.drop f.idx)

theorem TokenTree.rounds_eq (t : TokenTree T E H) : t.rounds = 2 + roundsAll t.subtrees := by
  cases t with
  | token edition hygiene tok => rfl
  | group edition hygiene subtrees => rw [rounds]; rfl

theorem Frame.rounds_of_getElem? {idx : ℕ} {tree subtree : TokenTree T E H} (h : tree.subtrees[idx]? = some subtree) :
    Frame.rounds ⟨idx, tree⟩ = subtree.rounds + Frame.rounds ⟨idx + 1, tree⟩ := by
  rcases List.getElem?_eq_some_iff.mp h with ⟨hidx, rfl⟩
  simp only [Frame.rounds]
  rw [List.drop_eq_getElem_cons hidx, TokenTree.roundsAll]
  omega

/-- The loop of `realGetToken`. The owning stream takes the edition of each token; the borrowing one has that of the
subtree on top of the stack. -/
def realGetToken (owned : Bool) : (stack : List (Frame T E H)) → E → Option H → Delivered T × TreeWalk T E H
  | [], edition, hygiene => (.eof, ⟨[], edition, hygiene⟩)
  | ⟨idx, tree⟩ :: stack, edition, hygiene =>
    if idx = 0 ∧ tree.isToken then
      (tree.tok, ⟨⟨1, tree⟩ :: stack, if owned then tree.edition else edition, some tree.hygiene⟩)
    else
      match h : tree.subtrees[idx]? with
      | some subtree =>
        if subtree.subtrees.length = 0 then
          (subtree.tok,
            ⟨⟨idx + 1, tree⟩ :: stack, if owned then subtree.edition else edition, some subtree.hygiene⟩)
        else
          realGetToken owned (⟨0, subtree⟩ :: ⟨idx + 1, tree⟩ :: stack) (if owned then edition else subtree.edition)
            hygiene
      | none =>
        match stack with
        | [] => realGetToken owned [] edition hygiene
        | parent :: stack =>
          realGetToken owned (parent :: stack) (if owned then edition else parent.tree.edition) hygiene
termination_by stack => (stack.map Frame.rounds).sum
decreasing_by
  · have hrounds := Frame.rounds_of_getElem? h
    have hsubtree := subtree.rounds_eq
    have hzero : Frame.rounds ⟨0, subtree⟩ = 1 + TokenTree.roundsAll subtree.subtrees := rfl
    simp only [List.map_cons, List.sum_cons, hrounds, hsubtree, hzero]
    omega
  · simp [Frame.rounds]
  · simp [Frame.rounds]

/-- A stream over a tree. -/
def treeSource [Inhabited H] (owned : Bool) : Source (TreeWalk T E H) T E H where
  realGetToken w := realGetToken owned w.stack w.edition w.hygiene
  realGetEdition w := w.edition
  realGetHygiene w := w.hygiene.getD default

def TTStream [Inhabited H] : Source (TreeWalk T E H) T E H := treeSource false

def TTStreamO [Inhabited H] : Source (TreeWalk T E H) T E H := treeSource true

/-- The constructor of `TTStream` -/
def TTStream.new (tree : TokenTree T E H) : TreeWalk T E H := ⟨[⟨0, tree⟩], tree.edition, none⟩

/-- The constructor of `TTStreamO`, which leaves the edition at the first one. -/
def TTStreamO.new [Inhabited E] (tree : TokenTree T E H) : TreeWalk T E H := ⟨[⟨0, tree⟩], default, none⟩

/-! ## What the walk delivers -/

mutual

/-- The tokens of a tree inside one of an edition: an empty sequence delivers the empty token. -/
def delivered (owned : Bool) (around : E) : TokenTree T E H → List (Entry T E H)
  | .token edition hygiene tok => [⟨.token tok, if owned then edition else around, hygiene⟩]
  | .group edition hygiene [] => [⟨.null, if owned then edition else around, hygiene⟩]
  | .group edition _ (t :: ts) => delivered owned edition t ++ deliveredAll owned edition ts

def deliveredAll (owned : Bool) (around : E) : List (TokenTree T E H) → List (Entry T E H)
  | [] => []
  | t :: ts => delivered owned around t ++ deliveredAll owned around ts

end

/-- What a subtree on the stack still delivers. -/
def Frame.pending (owned : Bool) (f : Frame T E H) : List (Entry T E H) :=
  match f.tree with
  | .token edition hygiene tok => if f.idx = 0 then [⟨.token tok, edition, hygiene⟩] else []
  | .group edition _ subtrees => deliveredAll owned edition (subtrees.drop f.idx)

/-- The borrowing stream has the edition of the subtree on top of the stack. -/
def Kept (owned : Bool) (stack : List (Frame T E H)) (edition : E) : Prop :=
  owned = false → ∀ f ∈ stack.head?, f.tree.edition = edition

variable {owned : Bool} {stack : List (Frame T E H)} {edition : E} {hygiene : Option H}

/-- A result of `realGetToken` that delivers the first of the entries that were to come. -/
def Delivers (owned : Bool) (r : Delivered T × TreeWalk T E H) : List (Entry T E H) → Prop
  | [] => r.1 = .eof ∧ r.2.stack = []
  | entry :: rest => r.1 = entry.tok ∧ r.2.stack.flatMap (Frame.pending owned) = rest ∧ r.2.edition = entry.edition ∧
      r.2.hygiene = some entry.hygiene ∧ Kept owned r.2.stack r.2.edition

theorem pending_token {tree : TokenTree T E H} (h : tree.isToken) :
    Frame.pending owned ⟨0, tree⟩ = [⟨tree.tok, tree.edition, tree.hygiene⟩] ∧
      Frame.pending owned ⟨1, tree⟩ = [] := by
  cases tree with
  | token edition hygiene tok => exact ⟨rfl, rfl⟩
  | group edition hygiene subtrees => cases h

theorem pending_next {idx : ℕ} {tree subtree : TokenTree T E H} (h : tree.subtrees[idx]? = some subtree) :
    Frame.pending owned ⟨idx, tree⟩ =
      delivered owned tree.edition subtree ++ Frame.pending owned ⟨idx + 1, tree⟩ := by
  cases tree with
  | token edition hygiene tok => simp [TokenTree.subtrees] at h
  | group edition hygiene subtrees =>
    rcases List.getElem?_eq_some_iff.mp h with ⟨hidx, rfl⟩
    simp only [Frame.pending]
    rw [TokenTree.subtrees] at hidx
    rw [List.drop_eq_getElem_cons hidx, deliveredAll]
    rfl

theorem pending_end {idx : ℕ} {tree : TokenTree T E H} (hstart : ¬ (idx = 0 ∧ tree.isToken))
    (h : tree.subtrees[idx]? = none) : Frame.pending owned ⟨idx, tree⟩ = [] := by
  cases tree with
  | token edition hygiene tok =>
    have hidx : idx ≠ 0 := fun hidx => hstart ⟨hidx, rfl⟩
    simp [Frame.pending, hidx]
  | group edition hygiene subtrees =>
    simp only [Frame.pending]
    have hlength : subtrees.length ≤ idx := List.getElem?_eq_none_iff.mp h
    rw [List.drop_eq_nil_of_le hlength, deliveredAll]

theorem delivered_leaf {around : E} {tree : TokenTree T E H} (h : tree.subtrees.length = 0) :
    delivered owned around tree = [⟨tree.tok, if owned then tree.edition else around, tree.hygiene⟩] := by
  cases tree with
  | token edition hygiene tok => rfl
  | group edition hygiene subtrees =>
    rw [TokenTree.subtrees, List.length_eq_zero_iff] at h
    rw [h]
    rfl

theorem delivered_group {around : E} {tree : TokenTree T E H} (h : ¬ tree.subtrees.length = 0) :
    delivered owned around tree = Frame.pending owned ⟨0, tree⟩ := by
  cases tree with
  | token edition hygiene tok => exact absurd rfl h
  | group edition hygiene subtrees =>
    cases subtrees with
    | nil => exact absurd rfl h
    | cons t ts => rfl

/-- A call of `realGetToken` delivers the next of the tokens that the stack holds. -/
theorem delivers_realGetToken (h : Kept owned stack edition) :
    Delivers owned (realGetToken owned stack edition hygiene) (stack.flatMap (Frame.pending owned)) := by
  fun_induction realGetToken owned stack edition hygiene with
  | case1 => exact ⟨rfl, rfl⟩
  | case2 idx tree stack edition hygiene hstart =>
    rcases hstart with ⟨rfl, htoken⟩
    have hedition : owned = false → tree.edition = edition := fun howned => h howned ⟨0, tree⟩ rfl
    have hpending : Frame.pending owned ⟨0, tree⟩ = _ ∧ Frame.pending owned ⟨1, tree⟩ = _ := pending_token htoken
    rw [List.flatMap_cons, hpending.1]
    refine ⟨rfl, by simp [hpending.2], ?_, rfl, ?_⟩
    · cases owned with
      | false => exact (hedition rfl).symm
      | true => rfl
    · rintro rfl f hf
      cases hf
      exact hedition rfl
  | case3 idx tree stack edition hygiene hstart subtree hsubtree hleaf =>
    have hedition : owned = false → tree.edition = edition := fun howned => h howned ⟨idx, tree⟩ rfl
    rw [List.flatMap_cons, pending_next hsubtree, delivered_leaf hleaf]
    refine ⟨rfl, rfl, ?_, rfl, ?_⟩
    · cases owned with
      | false => exact (hedition rfl).symm
      | true => rfl
    · rintro rfl f hf
      cases hf
      exact hedition rfl
  | case4 idx tree stack edition hygiene hstart subtree hsubtree hgroup ih =>
    have hkept : Kept owned (⟨0, subtree⟩ :: ⟨idx + 1, tree⟩ :: stack) (if owned then edition else subtree.edition) := by
      rintro rfl f hf
      cases hf
      rfl
    have hdelivers := ih hkept
    rw [List.flatMap_cons, List.flatMap_cons, ← delivered_group hgroup, ← List.append_assoc,
      ← pending_next hsubtree, ← List.flatMap_cons] at hdelivers
    exact hdelivers
  | case5 idx tree edition hygiene hstart hend ih =>
    rw [List.flatMap_cons, pending_end hstart hend]
    exact ih fun _ f hf => by cases hf
  | case6 idx tree edition hygiene hstart hend parent stack ih =>
    rw [List.flatMap_cons, pending_end hstart hend]
    apply ih
    rintro rfl f hf
    cases hf
    rfl

/-- A walk, read straight through, follows what its stack holds. -/
theorem follows_treeSource [Inhabited H] {w : TreeWalk T E H} (h : Kept owned w.stack w.edition) :
    Follows (w.stack.flatMap (Frame.pending owned)) (straight (treeSource owned) w) := by
  intro n
  induction n generalizing w with
  | zero =>
    have hfirst : Delivers owned (realGetToken owned w.stack w.edition w.hygiene) _ := delivers_realGetToken h
    cases hpending : w.stack.flatMap (Frame.pending owned) with
    | nil =>
      rw [hpending] at hfirst
      exact hfirst.1
    | cons entry rest =>
      rw [hpending] at hfirst
      rcases hfirst with ⟨htok, -, hedition, hhygiene, -⟩
      simp only [List.getElem?_cons_zero]
      rw [straight, after, Function.iterate_zero, id_eq]
      simp only [treeSource, htok, hedition, hhygiene, Option.getD_some]
  | succ n ih =>
    have hfirst : Delivers owned (realGetToken owned w.stack w.edition w.hygiene) _ := delivers_realGetToken h
    have hnext : straight (treeSource owned) w (n + 1) =
        straight (treeSource owned) (realGetToken owned w.stack w.edition w.hygiene).2 n := rfl
    rw [hnext]
    cases hpending : w.stack.flatMap (Frame.pending owned) with
    | nil =>
      rw [hpending] at hfirst
      have hempty := ih (w := (realGetToken owned w.stack w.edition w.hygiene).2) (by
        rw [hfirst.2]
        exact fun _ f hf => by cases hf)
      rw [hfirst.2] at hempty
      exact hempty
    | cons entry rest =>
      rw [hpending] at hfirst
      rcases hfirst with ⟨-, hrest, -, -, hkept⟩
      have hfollows := ih hkept
      rw [hrest] at hfollows
      exact hfollows

/-! ## The leaves -/

mutual

/-- The leaves of a tree with their own editions and hygiene. -/
def TokenTree.leaves : TokenTree T E H → List (Entry T E H)
  | .token edition hygiene tok => [⟨.token tok, edition, hygiene⟩]
  | .group _ _ subtrees => leavesAll subtrees

def leavesAll : List (TokenTree T E H) → List (Entry T E H)
  | [] => []
  | t :: ts => t.leaves ++ leavesAll ts

end

mutual

/-- Inside a tree of an edition: no sequence is empty and, to a borrowing stream, no token has another edition than the
sequence around it. -/
def Plain (owned : Bool) (around : E) : TokenTree T E H → Prop
  | .token edition _ _ => owned = false → edition = around
  | .group edition _ subtrees => subtrees ≠ [] ∧ PlainAll owned edition subtrees

def PlainAll (owned : Bool) (around : E) : List (TokenTree T E H) → Prop
  | [] => True
  | t :: ts => Plain owned around t ∧ PlainAll owned around ts

end

/-- The whole tree may be empty. -/
def PlainTree (owned : Bool) : TokenTree T E H → Prop
  | .token _ _ _ => True
  | .group edition _ subtrees => PlainAll owned edition subtrees

mutual

theorem length_leaves_le (owned : Bool) (around : E) :
    ∀ t : TokenTree T E H, t.leaves.length ≤ (delivered owned around t).length
  | .token edition hygiene tok => le_rfl
  | .group edition hygiene [] => Nat.zero_le _
  | .group edition hygiene (t :: ts) => by
    rw [TokenTree.leaves, leavesAll, delivered, List.length_append, List.length_append]
    exact Nat.add_le_add (length_leaves_le owned edition t) (length_leavesAll_le owned edition ts)

theorem length_leavesAll_le (owned : Bool) (around : E) :
    ∀ ts : List (TokenTree T E H), (leavesAll ts).length ≤ (deliveredAll owned around ts).length
  | [] => le_rfl
  | t :: ts => by
    rw [leavesAll, deliveredAll, List.length_append, List.length_append]
    exact Nat.add_le_add (length_leaves_le owned around t) (length_leavesAll_le owned around ts)

end

theorem append_eq_iff {α : Type} {as bs as' bs' : List α} (h : as'.length ≤ as.length) (h' : bs'.length ≤ bs.length) :
    as ++ bs = as' ++ bs' ↔ as = as' ∧ bs = bs' := by
  constructor
  · intro heq
    have hlength := congrArg List.length heq
    rw [List.length_append, List.length_append] at hlength
    exact List.append_inj heq (by omega)
  · rintro ⟨rfl, rfl⟩
    rfl

mutual

/-- A tree delivers its leaves exactly if it is plain. -/
theorem delivered_eq_leaves_iff (owned : Bool) (around : E) :
    ∀ t : TokenTree T E H, delivered owned around t = t.leaves ↔ Plain owned around t
  | .token edition hygiene tok => by
    cases owned <;> simp [delivered, TokenTree.leaves, Plain, eq_comm]
  | .group edition hygiene [] => by
    simp [delivered, TokenTree.leaves, leavesAll, Plain]
  | .group edition hygiene (t :: ts) => by
    rw [delivered, TokenTree.leaves, leavesAll, Plain, PlainAll,
      append_eq_iff (length_leaves_le owned edition t) (length_leavesAll_le owned edition ts),
      delivered_eq_leaves_iff owned edition t, deliveredAll_eq_leaves_iff owned edition ts]
    simp

theorem deliveredAll_eq_leaves_iff (owned : Bool) (around : E) :
    ∀ ts : List (TokenTree T E H), deliveredAll owned around ts = leavesAll ts ↔ PlainAll owned around ts
  | [] => by simp [deliveredAll, leavesAll, PlainAll]
  | t :: ts => by
    rw [deliveredAll, leavesAll, PlainAll,
      append_eq_iff (length_leaves_le owned around t) (length_leavesAll_le owned around ts),
      delivered_eq_leaves_iff owned around t, deliveredAll_eq_leaves_iff owned around ts]

end

/-- The whole tree, pushed by the constructors, delivers its leaves exactly if it is plain. -/
theorem pending_eq_leaves_iff (tree : TokenTree T E H) :
    Frame.pending owned ⟨0, tree⟩ = tree.leaves ↔ PlainTree owned tree := by
  cases tree with
  | token edition hygiene tok => exact iff_of_true rfl trivial
  | group edition hygiene subtrees => exact deliveredAll_eq_leaves_iff owned edition subtrees

/-- Two lists that a stream follows are the same, where no token of either is the end. -/
theorem Follows.unique {ls ls' : List (Entry T E H)} {entries : ℕ → Entry T E H} (h : Follows ls entries)
    (h' : Follows ls' entries) (hls : ∀ l ∈ ls, l.tok ≠ .eof) (hls' : ∀ l ∈ ls', l.tok ≠ .eof) : ls = ls' := by
  apply List.ext_getElem?
  intro n
  have hn := h n
  have hn' := h' n
  cases hl : ls[n]? with
  | none =>
    rw [hl] at hn
    cases hl' : ls'[n]? with
    | none => rfl
    | some l' =>
      rw [hl'] at hn'
      subst hn'
      exact absurd hn (hls' _ (List.mem_of_getElem? hl'))
  | some l =>
    rw [hl] at hn
    subst hn
    cases hl' : ls'[n]? with
    | none =>
      rw [hl'] at hn'
      exact absurd hn' (hls _ (List.mem_of_getElem? hl))
    | some l' =>
      rw [hl'] at hn'
      rw [hn']

mutual

theorem leaves_ne_eof : ∀ t : TokenTree T E H, ∀ l ∈ t.leaves, l.tok ≠ .eof
  | .token edition hygiene tok => by simp [TokenTree.leaves]
  | .group edition hygiene ts => leavesAll_ne_eof ts

theorem leavesAll_ne_eof : ∀ ts : List (TokenTree T E H), ∀ l ∈ leavesAll ts, l.tok ≠ .eof
  | [] => by simp [leavesAll]
  | t :: ts => by
    intro l hl
    rw [leavesAll, List.mem_append] at hl
    exact hl.elim (leaves_ne_eof t l) (leavesAll_ne_eof ts l)

end

mutual

theorem delivered_ne_eof (owned : Bool) (around : E) :
    ∀ t : TokenTree T E H, ∀ l ∈ delivered owned around t, l.tok ≠ .eof
  | .token edition hygiene tok => by simp [delivered]
  | .group edition hygiene [] => by simp [delivered]
  | .group edition hygiene (t :: ts) => by
    intro l hl
    rw [delivered, List.mem_append] at hl
    exact hl.elim (delivered_ne_eof owned edition t l) (deliveredAll_ne_eof owned edition ts l)

theorem deliveredAll_ne_eof (owned : Bool) (around : E) :
    ∀ ts : List (TokenTree T E H), ∀ l ∈ deliveredAll owned around ts, l.tok ≠ .eof
  | [] => by simp [deliveredAll]
  | t :: ts => by
    intro l hl
    rw [deliveredAll, List.mem_append] at hl
    exact hl.elim (delivered_ne_eof owned around t l) (deliveredAll_ne_eof owned around ts l)

end

theorem pending_ne_eof (tree : TokenTree T E H) : ∀ l ∈ Frame.pending owned ⟨0, tree⟩, l.tok ≠ .eof := by
  cases tree with
  | token edition hygiene tok => simp [Frame.pending]
  | group edition hygiene subtrees => exact deliveredAll_ne_eof owned edition subtrees

/-- However it is used, a stream shows the leaves of a tree with their editions and hygiene, and then the end. -/
def DeliversLeaves {S Ty : Type} (src : Source S T E H) (type : Delivered T → Ty) (s₀ : S) (tree : TokenTree T E H) :
    Prop :=
  ∃ entries, Follows tree.leaves entries ∧ Indistinguishable src type s₀ entries

variable {Ty : Type} [Inhabited H]

theorem deliversLeaves_treeSource_iff (type : Delivered T → Ty) {tree : TokenTree T E H}
    (h : owned = false → tree.edition = edition) :
    DeliversLeaves (treeSource owned) type ⟨[⟨0, tree⟩], edition, none⟩ tree ↔ PlainTree owned tree := by
  have hfollows : Follows (Frame.pending owned ⟨0, tree⟩)
      (straight (treeSource owned) ⟨[⟨0, tree⟩], edition, none⟩) := by
    have hkept : Kept owned [⟨0, tree⟩] edition := by
      intro howned f hf
      cases hf
      exact h howned
    have hwalk := follows_treeSource (w := ⟨[⟨0, tree⟩], edition, none⟩) hkept
    rw [List.flatMap_singleton] at hwalk
    exact hwalk
  rw [← pending_eq_leaves_iff]
  constructor
  · rintro ⟨entries, hentries, hstream⟩
    rw [indistinguishable_iff.mp hstream] at hentries
    exact hfollows.unique hentries (pending_ne_eof tree) (leaves_ne_eof tree)
  · intro hleaves
    rw [hleaves] at hfollows
    exact ⟨_, hfollows, indistinguishable_straight⟩

/-- The borrowing stream delivers the leaves exactly if no sequence inside the tree is empty and every token has the
edition of the sequence around it, the consuming stream exactly if no sequence inside the tree is empty. -/
theorem streams_deliver_iff [Inhabited E] (type : Delivered T → Ty) (tree : TokenTree T E H) :
    (DeliversLeaves TTStream type (TTStream.new tree) tree ↔ PlainTree false tree) ∧
      (DeliversLeaves TTStreamO type (TTStreamO.new tree) tree ↔ PlainTree true tree) :=
  ⟨deliversLeaves_treeSource_iff type fun _ => rfl, deliversLeaves_treeSource_iff type fun h => by cases h⟩

/-- The borrowing stream reports the edition of the sequence, the consuming one that of the token. -/
theorem borrowed_edition :
    ¬ DeliversLeaves TTStream (fun _ => ()) (TTStream.new (.group 2015 () [.token 2021 () 'a']))
        (.group 2015 () [.token 2021 () 'a']) ∧
      DeliversLeaves TTStreamO (fun _ => ()) (TTStreamO.new (.group 2015 () [.token 2021 () 'a']))
        (.group 2015 () [.token 2021 () 'a']) := by
  constructor
  · intro h
    have hplain := (deliversLeaves_treeSource_iff (fun _ => ()) fun _ => rfl).mp h
    exact absurd (hplain.1 rfl) (by decide)
  · apply (deliversLeaves_treeSource_iff (fun _ => ()) fun h => by cases h).mpr
    simp [PlainTree, PlainAll, Plain]

end Mrustc.Parse.Stream
