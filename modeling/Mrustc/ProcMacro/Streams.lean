import Mrustc.ProcMacro.Invocation
import Mrustc.ProcMacro.TokenStream

/-! # The stream that corresponds to the tokens of the compiler

Brackets become groups, an operator becomes its characters, and every other token one or two trees.
-/

namespace Mrustc.ProcMacro
open Parse hiding utf8
open Protocol (utf8 fromUtf8 readEnt)

section Corresponding

/-- The characters of an operator, as the lexer knows them. -/
def operatorText (type : TokenType) : Option (List Char) :=
  if type = .underscore then some ['_']
  else (tokenmap.find? fun e => e.2 = .tok type).map (·.1)

def reservedText (edition : Edition) (type : TokenType) : Option String :=
  ((rwords edition).find? fun e => e.2 = type).map (·.1)

/-- The tokens around a group. -/
def groupTokens : Delimiter → Option (TokenType × TokenType)
  | .parenthesis => some (.parenOpen, .parenClose)
  | .brace => some (.braceOpen, .braceClose)
  | .bracket => some (.squareOpen, .squareClose)
  | .none => none

def isBracket : TokenType → Bool
  | .parenOpen | .parenClose | .braceOpen | .braceClose | .squareOpen | .squareClose => true
  | _ => false

def operatorTrees (edition : Edition) (type : TokenType) : Option (List TokenTree) :=
  if isBracket type then none
  else match operatorText type with
    | some text => some (puncts text)
    | none => (reservedText edition type).map fun word => [.ident false word]

/-- A literal is signed if its type is. -/
def integerTrees (v : BitVec 128) (ct : CoreType) : Option (List TokenTree) := do
  let (cls, size) ← intClass ct
  some [.literal (if cls = 7 then .unsignedInt v size else .signedInt v size)]

def charTrees (v : BitVec 128) : Option (List TokenTree) :=
  if h : v.toNat.isValidChar then some [.literal (.charLit (Char.ofNatAux v.toNat h))] else none

/-- The text of a name: an identifier that is a reserved word is a raw one. -/
def identText (edition : Edition) (name : List UInt8) : List UInt8 :=
  if (lexFindReservedWord name edition).isSome then utf8 "r#" ++ name else name

/-- The trees of a token other than a bracket. -/
def Token.trees (edition : Edition) : Token → Option (List TokenTree)
  | .op type => operatorTrees edition type
  | .ident name => (fromUtf8 (identText edition name)).map fun s => [.ident false s]
  | .lifetime name => (fromUtf8 name).map fun s => [.punct '\'' .joint, .ident false s]
  | .integer v .char => charTrees v
  | .integer v ct => integerTrees v ct
  | .float v ct => (floatSize ct).map fun size => [.literal (.float v size)]
  | .string s => (fromUtf8 s).map fun s => [.literal (.string s)]
  | .byteString s => some [.literal (.byteString s)]

/-- Names hold no zero byte and no mark of a raw identifier, and a size is a `size_t`. -/
def Token.WellFormed : Token → Prop
  | .ident name => cStr name = name ∧ name.take 2 ≠ utf8 "r#" ∧ name.length < 2 ^ 63
  | .lifetime name => cStr name = name ∧ name.length < 2 ^ 63
  | .string s | .byteString s => s.length < 2 ^ 63
  | _ => True

/-- The trees of balanced tokens, where `R` gives those of a token other than a bracket. -/
inductive Streams (R : Token → List TokenTree → Prop) : List Token → List TokenTree → Prop
  | nil : Streams R [] []
  | token {t trees ts s} (ht : R t trees) (hs : Streams R ts s) : Streams R (t :: ts) (trees ++ s)
  | group {delimiter l r inner stream ts s} (hd : groupTokens delimiter = some (l, r))
      (hi : Streams R inner stream) (hs : Streams R ts s) :
      Streams R (.op l :: (inner ++ .op r :: ts)) (.group delimiter stream :: s)

/-- The stream that corresponds to well-formed tokens. -/
def Corresponds (edition : Edition) : List Token → List TokenTree → Prop :=
  Streams fun t trees => t.trees edition = some trees ∧ t.WellFormed

end Corresponding

section Words

variable {R R' : Token → List TokenTree → Prop} {ts : List Token} {s : List TokenTree}

/-- A tree that is no group, or a side of a group. -/
inductive Item
  | leaf (t : TokenTree)
  | opening (d : Delimiter)
  | closing (d : Delimiter)

def flatten : List TokenTree → List Item
  | [] => []
  | .group d stream :: s => .opening d :: (flatten stream ++ .closing d :: flatten s)
  | t :: s => .leaf t :: flatten s

theorem flatten_nil : flatten [] = [] := by
  rw [flatten]

theorem flatten_group (d : Delimiter) (stream s : List TokenTree) :
    flatten (.group d stream :: s) = .opening d :: (flatten stream ++ .closing d :: flatten s) := by
  rw [flatten]

theorem flatten_leaf {t : TokenTree} (h : ∀ d stream, t ≠ .group d stream) (s : List TokenTree) :
    flatten (t :: s) = .leaf t :: flatten s := by
  rw [flatten]
  exact fun d stream ht => h d stream ht

/-- Only joint punctuation goes on. -/
def Item.ends : Item → Bool
  | .leaf (.punct _ .joint) => false
  | _ => true

/-- What a token becomes ends exactly at its last item. -/
def IsWord (w : List Item) : Prop := ∃ init last, w = init ++ [last] ∧ last.ends = true ∧
  ∀ i ∈ init, i.ends = false

theorem IsWord.eq_of_append {w w' x x' : List Item} (h : IsWord w) (h' : IsWord w')
    (he : w ++ x = w' ++ x') : w = w' ∧ x = x' := by
  obtain ⟨init, last, rfl, hlast, hinit⟩ := h
  obtain ⟨init', last', rfl, hlast', hinit'⟩ := h'
  induction init generalizing init' with
  | nil =>
    cases init' with
    | nil =>
      simp only [List.nil_append, List.cons_append, List.cons.injEq] at he
      exact ⟨by rw [he.1], he.2⟩
    | cons i init' =>
      simp only [List.nil_append, List.cons_append, List.cons.injEq] at he
      exact absurd hlast (by rw [he.1, hinit' i List.mem_cons_self]; simp)
  | cons i init ih =>
    cases init' with
    | nil =>
      simp only [List.nil_append, List.cons_append, List.cons.injEq] at he
      exact absurd hlast' (by rw [← he.1, hinit i List.mem_cons_self]; simp)
    | cons i' init' =>
      simp only [List.cons_append, List.cons.injEq] at he
      obtain ⟨rfl, he⟩ := he
      obtain ⟨hw, hx⟩ := ih (fun j hj => hinit j (List.mem_cons_of_mem _ hj)) init' he
        (fun j hj => hinit' j (List.mem_cons_of_mem _ hj))
      exact ⟨by rw [List.cons_append, hw, List.cons_append], hx⟩

/-- The word of a token: a side of a group, or its trees. -/
def WordOf (R : Token → List TokenTree → Prop) (t : Token) (w : List Item) : Prop :=
  IsWord w ∧ ((∃ type, t = .op type ∧ isBracket type = true) ∨ ∃ trees, R t trees ∧ w = trees.map .leaf)

theorem flatten_append_leaves (trees : List TokenTree) (h : ∀ d stream, .group d stream ∉ trees)
    (s : List TokenTree) : flatten (trees ++ s) = trees.map .leaf ++ flatten s := by
  induction trees with
  | nil => rfl
  | cons t trees ih =>
    have hrest := ih fun d stream hmem => h d stream (List.mem_cons_of_mem _ hmem)
    have hleaf : ∀ d stream, t ≠ .group d stream := fun d stream ht => h d stream (ht ▸ List.mem_cons_self)
    rw [List.cons_append, flatten_leaf hleaf, hrest, List.map_cons, List.cons_append]

/-- Trees that are no groups and end at the last one. -/
def IsLeaves (trees : List TokenTree) : Prop :=
  (∀ d stream, .group d stream ∉ trees) ∧ IsWord (trees.map .leaf)

theorem Streams.words (h : Streams R ts s) (hR : ∀ t trees, R t trees → IsLeaves trees) :
    ∃ ws, List.Forall₂ (WordOf R) ts ws ∧ flatten s = ws.flatten := by
  induction h with
  | nil => exact ⟨[], .nil, flatten_nil⟩
  | @token t trees ts s ht _ ih =>
    obtain ⟨ws, hws, hflat⟩ := ih
    obtain ⟨hgroup, hword⟩ := hR t trees ht
    refine ⟨trees.map .leaf :: ws, .cons ⟨hword, .inr ⟨trees, ht, rfl⟩⟩ hws, ?_⟩
    rw [flatten_append_leaves trees hgroup, List.flatten_cons, hflat]
  | @group d l r inner stream ts s hd _ _ ih ih' =>
    obtain ⟨ws, hws, hflat⟩ := ih
    obtain ⟨ws', hws', hflat'⟩ := ih'
    have hbracket : isBracket l = true ∧ isBracket r = true := by
      cases d <;> cases hd <;> exact ⟨rfl, rfl⟩
    refine ⟨[.opening d] :: (ws ++ [.closing d] :: ws'), .cons ?_ (List.rel_append hws (.cons ?_ hws')), ?_⟩
    · exact ⟨⟨[], _, rfl, rfl, by simp⟩, .inl ⟨l, rfl, hbracket.1⟩⟩
    · exact ⟨⟨[], _, rfl, rfl, by simp⟩, .inl ⟨r, rfl, hbracket.2⟩⟩
    · rw [flatten_group, hflat, hflat', List.flatten_cons, List.flatten_append, List.flatten_cons]
      rfl

theorem words_eq {ws ws' : List (List Item)} (h : List.Forall₂ (WordOf R) ts ws)
    (h' : List.Forall₂ (WordOf R') ts ws') (he : ws.flatten = ws'.flatten) : ws = ws' := by
  induction h generalizing ws' with
  | nil =>
    cases h'
    rfl
  | cons hw _ ih =>
    cases h' with
    | cons hw' hws' =>
      rw [List.flatten_cons, List.flatten_cons] at he
      obtain ⟨hword, hrest⟩ := hw.1.eq_of_append hw'.1 he
      rw [hword, ih hws' hrest]

/-- One stream of the same tokens gives each of them the same trees. -/
theorem Streams.agree (h : Streams R ts s) (h' : Streams R' ts s)
    (hR : ∀ t trees, R t trees → IsLeaves trees) (hR' : ∀ t trees, R' t trees → IsLeaves trees)
    {t : Token} (ht : t ∈ ts) :
    (∃ type, t = .op type ∧ isBracket type = true) ∨ ∃ trees, R t trees ∧ R' t trees := by
  obtain ⟨ws, hws, hflat⟩ := h.words hR
  obtain ⟨ws', hws', hflat'⟩ := h'.words hR'
  cases words_eq hws hws' (hflat.symm.trans hflat')
  clear hflat hflat' h h'
  induction hws with
  | nil => cases ht
  | cons hw _ ih =>
    cases hws' with
    | cons hw' hrest =>
      obtain rfl | ht := List.mem_cons.mp ht
      · obtain hb | ⟨trees, htrees, rfl⟩ := hw.2
        · exact .inl hb
        · obtain hb | ⟨trees', htrees', he⟩ := hw'.2
          · exact .inl hb
          · refine .inr ⟨trees, htrees, ?_⟩
            have hinj : Function.Injective Item.leaf := fun _ _ => Item.leaf.inj
            rwa [hinj.list_map he]
      · exact ih ht hrest

end Words

end Mrustc.ProcMacro
