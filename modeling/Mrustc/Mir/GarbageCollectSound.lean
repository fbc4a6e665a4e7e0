import Mathlib.Data.List.ReduceOption
import Mrustc.Mir.Compaction

/-! # What garbage collection keeps -/

namespace Mrustc.Mir

open Mrustc.Numbering Relation GarbageCollect Depth

variable {T P : Type} {f : Function T P (LValue P)} {us : List Bool} {n : ℕ}

theorem mapM_congr_left {α β : Type} {g g' : α → Option β} {xs : List α} (h : ∀ x ∈ xs, g x = g' x) :
    xs.mapM g = xs.mapM g' := by
  induction xs with
  | nil => rfl
  | cons x xs ih =>
    rw [List.mapM_cons, List.mapM_cons, h x List.mem_cons_self,
      ih fun y hy => h y (List.mem_cons_of_mem _ hy)]

theorem mapM_exists {α β : Type} {g : α → Option β} {xs : List α} (h : ∀ x ∈ xs, ∃ y, g x = some y) :
    ∃ ys, xs.mapM g = some ys := by
  induction xs with
  | nil => exact ⟨[], rfl⟩
  | cons x xs ih =>
    obtain ⟨y, hy⟩ := h x List.mem_cons_self
    obtain ⟨ys, hys⟩ := ih fun z hz => h z (List.mem_cons_of_mem _ hz)
    exact ⟨y :: ys, by simp [List.mapM_cons, hy, hys]⟩

theorem mapM_getElem? {α β : Type} {g : α → Option β} {xs : List α} {ys : List β}
    (h : xs.mapM g = some ys) {i : ℕ} {x : α} (hx : xs[i]? = some x) :
    ∃ y, ys[i]? = some y ∧ g x = some y := by
  induction xs generalizing ys i with
  | nil => cases hx
  | cons a xs ih =>
    simp only [List.mapM_cons, Option.bind_eq_bind, Option.bind_eq_some_iff, Option.pure_def,
      Option.some.injEq] at h
    obtain ⟨b, hb, bs, hbs, rfl⟩ := h
    cases i with
    | zero =>
      obtain rfl : a = x := by simpa using hx
      exact ⟨b, rfl, hb⟩
    | succ i => exact ih hbs (by simpa using hx)

theorem mapM_length {α β : Type} {g : α → Option β} {xs : List α} {ys : List β}
    (h : xs.mapM g = some ys) : ys.length = xs.length := by
  induction xs generalizing ys with
  | nil => exact (Option.some.inj h) ▸ rfl
  | cons a xs ih =>
    simp only [List.mapM_cons, Option.bind_eq_bind, Option.bind_eq_some_iff, Option.pure_def,
      Option.some.injEq] at h
    obtain ⟨b, -, bs, hbs, rfl⟩ := h
    rw [List.length_cons, List.length_cons, ih hbs]

section Tables

/-- The table has the new numbers of the first `n` numbers. -/
def TableOf (table : List (Option ℕ)) (g : ℕ → Option ℕ) (n : ℕ) : Prop :=
  ∀ i < n, table[i]? = some (g i)

theorem rewriteTable_getElem? {i j : ℕ} (hi : i < us.length) :
    (rewriteTable us j)[i]? = some ((rank us i).map (· + j)) := by
  induction us generalizing i j with
  | nil => cases hi
  | cons used us ih =>
    cases i with
    | zero => cases used <;> simp [rewriteTable, rank]
    | succ i =>
      have hi' : i < us.length := Nat.lt_of_succ_lt_succ hi
      cases used <;> simp [rewriteTable, rank, ih hi', Function.comp_def, Nat.add_assoc, Nat.add_comm 1]

theorem tableOf_rewriteTable (us : List Bool) : TableOf (rewriteTable us 0) (rank us) us.length := by
  intro i hi
  rw [rewriteTable_getElem? hi]
  simp

theorem eraseUnused_append {α : Type} {xs ys : List α} (hlen : us.length = xs.length) :
    eraseUnused us ys.length (ys ++ xs) = ys ++ compact us xs := by
  induction us generalizing xs ys with
  | nil =>
    obtain rfl := List.eq_nil_of_length_eq_zero hlen.symm
    rfl
  | cons used us ih =>
    cases xs with
    | nil => cases hlen
    | cons x xs =>
      have hlen' : us.length = xs.length := Nat.succ.inj hlen
      cases used with
      | false =>
        rw [eraseUnused, if_neg Bool.false_ne_true, List.eraseIdx_append_of_length_le le_rfl, Nat.sub_self]
        exact ih hlen'
      | true =>
        have := @ih xs (ys ++ [x]) hlen'
        simpa [eraseUnused, compact] using this

/-- Erasing in place leaves what is used. -/
theorem eraseUnused_eq {α : Type} {xs : List α} (hlen : us.length = xs.length) :
    eraseUnused us 0 xs = compact us xs := @eraseUnused_append us _ xs [] hlen

end Tables

theorem Function.InRange.succs_lt (hf : f.InRange) {b : BasicBlockId} :
    ∀ e ∈ succs f.blocks b, e < f.blocks.length := by
  intro e he
  cases hcode : f.blocks[b]? with
  | none => simp [succs, hcode] at he
  | some code =>
    rw [succs, hcode] at he
    exact hf.targets_lt hcode e he

theorem Function.InRange.reached_lt (hf : f.InRange) {b : BasicBlockId} (hb : Reached f.blocks b) :
    b < f.blocks.length := by
  induction hb with
  | refl => exact hf.nonempty
  | tail _ he _ => exact hf.succs_lt _ he

/-- The bitmap marks the blocks that are reached. -/
structure MarksReached (f : Function T P (LValue P)) (visited : List Bool) : Prop where
  length : visited.length = f.blocks.length
  iff (i : ℕ) : visited[i]? = some true ↔ Reached f.blocks i

namespace MarksReached

variable {visited : List Bool}

theorem rank_eq (hv : MarksReached f visited) : rank visited = (compaction f).block :=
  rank_eq_positions hv.length fun i _ => hv.iff i

theorem blocks (hv : MarksReached f visited) : Renumbers (· = ·) (Reached f.blocks) (compaction f).block
    f.blocks (compact visited f.blocks) :=
  hv.rank_eq ▸ (renumbers_rank hv.length).congr_kept hv.iff

theorem mem_iff (hv : MarksReached f visited) {code : BasicBlock T P (LValue P)} :
    code ∈ compact visited f.blocks ↔ ∃ bb, Reached f.blocks bb ∧ f.blocks[bb]? = some code := by
  constructor
  · intro h
    obtain ⟨k, hk⟩ := List.getElem?_of_mem h
    obtain ⟨bb, hbb⟩ := hv.blocks.onto (List.getElem?_eq_some_iff.mp hk).1
    obtain ⟨x, y, hx, hy, rfl⟩ := hv.blocks.related hbb
    obtain rfl := Option.some.inj (hk.symm.trans hy)
    exact ⟨bb, hv.blocks.kept_of_new hbb, hx⟩
  · rintro ⟨bb, hbb, hcode⟩
    obtain ⟨k, hk⟩ := hv.blocks.exists_new hbb
    obtain ⟨x, y, hx, hy, rfl⟩ := hv.blocks.related hk
    obtain rfl := Option.some.inj (hcode.symm.trans hx)
    exact List.mem_of_getElem? hy

variable (names : BasicBlock T P (LValue P) → List ℕ)

theorem marks_length (blocks : Blocks T P) : (marks names blocks n).length = n := by simp [marks]

theorem marks_iff (hv : MarksReached f visited) {i : ℕ} (hi : i < n) :
    (marks names (compact visited f.blocks) n)[i]? = some true ↔ f.Names names i := by
  rw [marks, List.getElem?_map, List.getElem?_range hi, Option.map_some, Option.some.injEq,
    List.any_eq_true]
  simp only [hv.mem_iff, List.contains_iff_mem, Function.Names]
  grind

theorem rank_marks (hv : MarksReached f visited) (n : ℕ) :
    rank (marks names (compact visited f.blocks) n) = positions (f.Names names) n :=
  rank_eq_positions (marks_length _ _) fun _ hi => hv.marks_iff names hi

/-- What is marked is renumbered. -/
theorem named {α : Type} {xs : List α} (hv : MarksReached f visited)
    (hlt : ∀ i, f.Names names i → i < xs.length) :
    Renumbers (· = ·) (f.Names names) (positions (f.Names names) xs.length) xs
      (compact (marks names (compact visited f.blocks) xs.length) xs) := by
  rw [← hv.rank_marks names xs.length]
  refine (renumbers_rank (marks_length _ _)).congr_kept fun i => ⟨fun h => ?_, fun h => ?_⟩
  · have hi := (List.getElem?_eq_some_iff.mp h).1
    rw [marks_length] at hi
    exact (hv.marks_iff names hi).mp h
  · exact (hv.marks_iff names (hlt i h)).mpr h

end MarksReached

/-- A search that pushes the targets of each block that it visits traverses the blocks. -/
theorem traversal_of_targets {σ : Type} {visited : σ → BasicBlockId → Bool}
    {step : σ → BasicBlockId → Option (σ × List BasicBlockId)} (hf : f.InRange)
    (hskip : ∀ {s bb}, visited s bb = true → step s bb = some (s, []))
    (hvisit : ∀ {s bb code}, visited s bb = false → f.blocks[bb]? = some code →
      ∃ s', visited s' = Function.update (visited s) bb true ∧
        step s bb = some (s', (code.terminator.targets.filter fun e => !visited s' e).reverse)) :
    Traversal f.blocks.length (succs f.blocks) id visited step := by
  refine ⟨fun _ => hf.succs_lt, hskip, fun {s bb} h hlt => ?_⟩
  rw [id] at h hlt
  obtain ⟨code, hcode⟩ : ∃ code, f.blocks[bb]? = some code := ⟨_, List.getElem?_eq_getElem hlt⟩
  have hsuccs : succs f.blocks bb = code.terminator.targets := by
    rw [succs, hcode]
    rfl
  obtain ⟨s', hs', hstep⟩ := hvisit h hcode
  refine ⟨s', _, hstep, ?_⟩
  constructor
  · intro b
    by_cases hb : b = bb <;> simp [hs', hb]
  · intro e he
    rw [List.mem_reverse, List.mem_filter] at he
    exact hsuccs ▸ he.1
  · intro e he
    simp only [List.mem_reverse, List.mem_filter, id, exists_eq_right]
    by_cases hve : visited s' e = true
    · exact .inl hve
    · exact .inr ⟨hsuccs ▸ he, by simpa using hve⟩
  · rw [List.length_reverse, id, hsuccs]
    exact List.length_filter_le _ _

/-- The search visits what is reached. -/
theorem visitBlocks_yields (hf : f.InRange) : ∃ visited, Yields (visitBlocks f.blocks) visited ∧
    ∀ b, visited b = true ↔ Reached f.blocks b := by
  have htr : Traversal f.blocks.length (succs f.blocks) id (fun v b => v b) (visitStep f.blocks) := by
    apply traversal_of_targets hf
    · exact fun h => if_pos h
    · intro v bb code h hcode
      refine ⟨Function.update v bb true, rfl, ?_⟩
      rw [visitStep, if_neg (by simp [h]), hcode]
      rfl
  exact htr.search_yields hf.nonempty fun _ => rfl

section Rewriting

variable {r : Renaming} {tables : Tables} {dropFlags : List Bool}

/-- The tables of the pass are those of the renaming. -/
structure TablesOf (tables : Tables) (r : Renaming) (f : Function T P (LValue P)) : Prop where
  locals : TableOf tables.locals r.local_ f.locals.length
  dropFlags : TableOf tables.dropFlags r.flag f.dropFlags.length
  blocks : TableOf tables.blocks r.block f.blocks.length

/-- What the statement is about is kept. -/
structure Statement.Kept (st : Statement T P (LValue P)) (r : Renaming) (f : Function T P (LValue P)) :
    Prop where
  locals_lt : ∀ l ∈ st.mentioned.flatMap LValue.locals ++ st.scopedLocals, l < f.locals.length
  flags_lt : ∀ idx ∈ setFlags st ++ st.droppedFlags, idx < f.dropFlags.length
  used : ∀ l ∈ st.usedLocals, (r.local_ l).isSome
  set : ∀ idx ∈ setFlags st, (r.flag idx).isSome

theorem index_mem_locals {lv : LValue P} {l : ℕ} (h : .index l ∈ lv.wrappers) : l ∈ lv.locals := by
  have hmem : l ∈ lv.indexLocals := List.mem_filterMap.mpr ⟨.index l, h, rfl⟩
  rw [LValue.locals]
  split
  · exact List.mem_cons_of_mem _ hmem
  · exact hmem

theorem lvalueCb_eq {table : List (Option ℕ)} (ht : TableOf table r.local_ n) {lv : LValue P}
    (hlt : ∀ l ∈ lv.locals, l < n) (hk : ∀ l ∈ lv.locals, (r.local_ l).isSome) :
    lvalueCb table lv = r.lvalue lv ∧ ∃ lv', r.lvalue lv = some lv' := by
  have hw : ∀ w ∈ lv.wrappers, ∃ w', r.wrapper w = some w' ∧ rewriteWrapper table w = some w' := by
    intro w hmem
    cases w with
    | index l =>
      have hl := index_mem_locals hmem
      obtain ⟨l', hl'⟩ := Option.isSome_iff_exists.mp (hk l hl)
      exact ⟨.index l', by simp [Renaming.wrapper, hl'], by simp [rewriteWrapper, ht l (hlt l hl), hl']⟩
    | _ => exact ⟨_, rfl, rfl⟩
  obtain ⟨ws, hws⟩ := mapM_exists fun w hmem => (hw w hmem).imp fun w' h => h.1
  have hws' : lv.wrappers.mapM (rewriteWrapper table) = some ws := by
    rw [← hws]
    apply mapM_congr_left
    intro w hmem
    obtain ⟨w', h, h'⟩ := hw w hmem
    exact h'.trans h.symm
  have hroot : ∃ root, r.root lv.root = some root ∧ rewriteRoot table lv.root = some root := by
    obtain ⟨root, wrappers⟩ := lv
    cases root with
    | local_ l =>
      obtain ⟨l', hl'⟩ := Option.isSome_iff_exists.mp (hk l List.mem_cons_self)
      exact ⟨.local_ l', by simp [Renaming.root, hl'],
        by simp [rewriteRoot, ht l (hlt l List.mem_cons_self), hl']⟩
    | _ => exact ⟨_, rfl, rfl⟩
  obtain ⟨root, h, h'⟩ := hroot
  simp [lvalueCb, Renaming.lvalue, h, h', hws, hws']

theorem lvalue_eq_self_iff {lv : LValue P} :
    r.lvalue lv = some lv ↔ ∀ l ∈ lv.locals, r.local_ l = some l := by
  obtain ⟨root, wrappers⟩ := lv
  have hws : wrappers.mapM r.wrapper = some wrappers ↔
      ∀ l, .index l ∈ wrappers → r.local_ l = some l := by
    induction wrappers with
    | nil => simp
    | cons w ws ih =>
      simp only [List.mapM_cons, Option.bind_eq_bind, Option.bind_eq_some_iff, Option.pure_def,
        Option.some.injEq, List.cons.injEq, List.mem_cons]
      cases w <;> simp [Renaming.wrapper, ih]
  have hlv : r.lvalue ⟨root, wrappers⟩ = some ⟨root, wrappers⟩ ↔
      r.root root = some root ∧ wrappers.mapM r.wrapper = some wrappers := by
    simp [Renaming.lvalue, Option.bind_eq_some_iff]
  have hidx (l : ℕ) : l ∈ LValue.indexLocals (⟨root, wrappers⟩ : LValue P) ↔ .index l ∈ wrappers := by
    simp only [LValue.indexLocals, List.mem_filterMap]
    constructor
    · rintro ⟨w, hw, h⟩
      cases w <;> simp_all
    · exact fun h => ⟨_, h, rfl⟩
  rw [hlv, hws]
  cases root <;> simp [Renaming.root, LValue.locals, hidx]

theorem rewriteFlag_eq (ht : TableOf tables.dropFlags r.flag dropFlags.length) {flagIdx : Option ℕ}
    (h : ∀ idx ∈ flagIdx.toList, idx < dropFlags.length) :
    rewriteFlag tables.dropFlags dropFlags flagIdx = some (r.dropFlag dropFlags flagIdx) := by
  cases flagIdx with
  | none => rfl
  | some idx =>
    have hlt := h idx (List.mem_singleton_self idx)
    have hdef := List.getElem?_eq_getElem hlt
    cases hi : r.flag idx with
    | some i => simp [rewriteFlag, Renaming.dropFlag, ht idx hlt, hi]
    | none => simp [rewriteFlag, Renaming.dropFlag, ht idx hlt, hi, hdef]

theorem isLocal_iff {lv : LValue P} : lv.isLocal = true ↔ ∃ l, lv = .newLocal l := by
  obtain ⟨root, wrappers⟩ := lv
  cases root <;> simp [LValue.isLocal, LValue.newLocal]

theorem dropsUnset_eq_false {table : List (Option ℕ)} {slot : LValue P} (h : slot.isLocal = false) :
    dropsUnset table slot = some false := by
  obtain ⟨root, wrappers⟩ := slot
  cases root <;> cases wrappers <;> simp_all [LValue.isLocal, dropsUnset]

theorem dropsUnset_newLocal {table : List (Option ℕ)} (ht : TableOf table r.local_ n) {l : ℕ} (hl : l < n) :
    dropsUnset table (.newLocal l : LValue P) = some (r.local_ l).isNone := by
  simp [dropsUnset, LValue.newLocal, ht l hl]

theorem lvalue_newLocal (l : ℕ) : r.lvalue (.newLocal l : LValue P) = (r.local_ l).map .newLocal := by
  cases h : r.local_ l <;> simp [Renaming.lvalue, LValue.newLocal, Renaming.root, h]

/-- Both make the same of a statement, and of a drop whose slot is kept or a local. -/
theorem drop_eq {kind : DropKind} {slot : LValue P} {flagIdx : Option ℕ} (ht : TablesOf tables r f)
    (hk : (Statement.drop kind slot flagIdx : Statement T P (LValue P)).Kept r f) :
    ∃ x, rewriteStatement tables f.dropFlags (.drop kind slot flagIdx) = some x ∧
      r.statement f.dropFlags (.drop kind slot flagIdx : Statement T P (LValue P)) = some x := by
  have hlt : ∀ l ∈ slot.locals, l < f.locals.length := fun l hl =>
    hk.locals_lt l (by simp [Statement.mentioned, Statement.lvalues, Statement.paramBorrows, hl])
  have hflag := rewriteFlag_eq ht.dropFlags fun idx h => hk.flags_lt idx (List.mem_append_right _ h)
  cases hfl : r.dropFlag f.dropFlags flagIdx with
  | none => delta rewriteStatement Renaming.statement; simp [hflag, hfl]
  | some flagIdx' =>
    by_cases hunset : slot.isLocal = true ∧ r.lvalue slot = none
    · obtain ⟨hloc, hnone⟩ := hunset
      obtain ⟨l, rfl⟩ := isLocal_iff.mp hloc
      have hunset := dropsUnset_newLocal (P := P) ht.locals (hlt l List.mem_cons_self)
      rw [lvalue_newLocal, Option.map_eq_none_iff] at hnone
      rw [hnone] at hunset
      delta rewriteStatement Renaming.statement
      simp [hflag, hfl, hunset, lvalue_newLocal, hnone, hloc]
    · have hkept : ∀ l ∈ slot.locals, (r.local_ l).isSome := by
        by_cases hloc : slot.isLocal = true
        · obtain ⟨l, rfl⟩ := isLocal_iff.mp hloc
          have hne := fun h => hunset ⟨hloc, h⟩
          rw [lvalue_newLocal, Option.map_eq_none_iff] at hne
          intro l' hl'
          obtain rfl : l' = l := by simpa [LValue.locals, LValue.newLocal, LValue.indexLocals] using hl'
          exact Option.isSome_iff_ne_none.mpr hne
        · intro l hl
          exact hk.used l (by simp [Statement.usedLocals, hloc, hl])
      obtain ⟨heq, slot', hslot⟩ := lvalueCb_eq ht.locals hlt hkept
      have hunset : dropsUnset tables.locals slot = some false := by
        by_cases hloc : slot.isLocal = true
        · obtain ⟨l, rfl⟩ := isLocal_iff.mp hloc
          rw [dropsUnset_newLocal ht.locals (hlt l List.mem_cons_self), Option.some.injEq]
          have := hkept l List.mem_cons_self
          cases hl : r.local_ l <;> simp_all
        · exact dropsUnset_eq_false (Bool.not_eq_true _ ▸ hloc)
      delta rewriteStatement Renaming.statement
      simp [hflag, hfl, hunset, heq, hslot]

theorem setDropFlag_eq {idx : ℕ} {newVal : Bool} {other : Option ℕ} (ht : TablesOf tables r f)
    (hk : (Statement.setDropFlag idx newVal other : Statement T P (LValue P)).Kept r f) :
    ∃ x, rewriteStatement tables f.dropFlags (.setDropFlag idx newVal other) = some x ∧
      r.statement f.dropFlags (.setDropFlag idx newVal other : Statement T P (LValue P)) = some x := by
  have hlt {i : ℕ} (hi : i ∈ idx :: other.toList) : tables.dropFlags[i]? = some (r.flag i) :=
    ht.dropFlags i (hk.flags_lt i (List.mem_append_left _ hi))
  obtain ⟨idx', hidx⟩ := Option.isSome_iff_exists.mp (hk.set idx List.mem_cons_self)
  have htable := hlt List.mem_cons_self
  cases other with
  | none => delta rewriteStatement Renaming.statement; simp [htable, hidx]
  | some o =>
    have ho : o ∈ setFlags (.setDropFlag idx newVal (some o) : Statement T P (LValue P)) := by simp [setFlags]
    obtain ⟨o', ho'⟩ := Option.isSome_iff_exists.mp (hk.set o ho)
    delta rewriteStatement Renaming.statement
    simp [htable, hidx, hlt ho, ho']

theorem scopeEnd_eq {slots : List ℕ} (ht : TablesOf tables r f)
    (hk : (Statement.scopeEnd slots : Statement T P (LValue P)).Kept r f) :
    ∃ x, rewriteStatement tables f.dropFlags (.scopeEnd slots) = some x ∧
      r.statement f.dropFlags (.scopeEnd slots : Statement T P (LValue P)) = some x := by
  have hslots : slots.mapM (tables.locals[·]?) = some (slots.map r.local_) :=
    mapM_eq_map fun l hl => ht.locals l (hk.locals_lt l (List.mem_append_right _ hl))
  have hred : (slots.map r.local_).reduceOption = slots.filterMap r.local_ := by
    rw [List.reduceOption, List.filterMap_map]
    rfl
  delta rewriteStatement Renaming.statement
  simp [hslots, hred]

/-- The statements that are only rewritten. -/
def Statement.Plain (st : Statement T P (LValue P)) : Prop :=
  st.usedLocals = st.mentioned.flatMap LValue.locals ∧
  ∀ (tables : Tables) (r : Renaming) (dropFlags : List Bool),
    rewriteStatement tables dropFlags st =
      (st.visit (onLvalues (lvalueCb tables.locals) some) ()).map (fun x => some x.1) ∧
    r.statement dropFlags st = (st.visit (onLvalues r.lvalue r.lvalue) ()).map fun x => some x.1

theorem statement_cases (st : Statement T P (LValue P)) :
    (∃ tpl, st = .asm tpl [] [] [] []) ∨ (∃ kind slot flagIdx, st = .drop kind slot flagIdx) ∨
      (∃ idx newVal other, st = .setDropFlag idx newVal other) ∨ (∃ slots, st = .scopeEnd slots) ∨
      st.Plain := by
  cases st with
  | drop kind slot flagIdx => exact .inr (.inl ⟨_, _, _, rfl⟩)
  | setDropFlag idx newVal other => exact .inr (.inr (.inl ⟨_, _, _, rfl⟩))
  | scopeEnd slots => exact .inr (.inr (.inr (.inl ⟨_, rfl⟩)))
  | assign dst src => exact .inr (.inr (.inr (.inr ⟨rfl, fun _ _ _ => ⟨Option.map_eq_bind.symm, rfl⟩⟩)))
  | asm2 options lines params =>
    exact .inr (.inr (.inr (.inr ⟨rfl, fun _ _ _ => ⟨Option.map_eq_bind.symm, rfl⟩⟩)))
  | asm tpl outputs inputs clobbers flags =>
    by_cases hdef : outputs = [] ∧ inputs = [] ∧ clobbers = [] ∧ flags = []
    · obtain ⟨rfl, rfl, rfl, rfl⟩ := hdef
      exact .inl ⟨tpl, rfl⟩
    · refine .inr (.inr (.inr (.inr ⟨rfl, fun tables r dropFlags => ?_⟩)))
      cases outputs with
      | cons => exact ⟨Option.map_eq_bind.symm, rfl⟩
      | nil =>
        cases inputs with
        | cons => exact ⟨Option.map_eq_bind.symm, rfl⟩
        | nil =>
          cases clobbers with
          | cons => delta rewriteStatement Renaming.statement; simp [Statement.visit, visitNamed]
          | nil =>
            cases flags with
            | cons => delta rewriteStatement Renaming.statement; simp [Statement.visit, visitNamed]
            | nil => exact absurd ⟨rfl, rfl, rfl, rfl⟩ hdef

/-- Where borrowed parameters keep their numbers, both make the same of a statement that is not just a
template. -/
theorem statement_eq (ht : TablesOf tables r f) (hk : st.Kept r f)
    (htpl : ∀ tpl, st = .asm tpl [] [] [] [] → tpl = [])
    (hb : ∀ lv ∈ st.paramBorrows, r.lvalue lv = some lv) :
    ∃ x, rewriteStatement tables f.dropFlags st = some x ∧ r.statement f.dropFlags st = some x := by
  rcases statement_cases st with ⟨tpl, rfl⟩ | ⟨kind, slot, flagIdx, rfl⟩ | ⟨idx, newVal, other, rfl⟩ |
    ⟨slots, rfl⟩ | ⟨hused, hplain⟩
  · obtain rfl := htpl tpl rfl
    exact ⟨none, rfl, rfl⟩
  · exact drop_eq ht hk
  · exact setDropFlag_eq ht hk
  · exact scopeEnd_eq ht hk
  · obtain ⟨hcode, hspec⟩ := hplain tables r f.dropFlags
    have hmem {lv : LValue P} (hlv : lv ∈ st.lvalues.map Prod.fst) {l : ℕ} (hl : l ∈ lv.locals) :
        l ∈ st.mentioned.flatMap LValue.locals :=
      List.mem_flatMap.mpr ⟨lv, List.mem_append_left _ hlv, hl⟩
    have hlv : ∀ lv ∈ st.lvalues.map Prod.fst,
        lvalueCb tables.locals lv = r.lvalue lv ∧ ∃ lv', r.lvalue lv = some lv' := fun lv hlv =>
      lvalueCb_eq ht.locals (fun l hl => hk.locals_lt l (List.mem_append_left _ (hmem hlv hl)))
        fun l hl => hk.used l (hused ▸ hmem hlv hl)
    have htr := statement_traverses st
    obtain ⟨st', hst'⟩ := htr.succeeds (fun lv h => (hlv lv h).2) fun lv h => ⟨lv, hb lv h⟩
    have hsame := htr.congr (fun lv h => (hlv lv h).1) fun lv h => (hb lv h).symm
    exact ⟨some st', by rw [hcode, hsame, hst']; rfl, by rw [hspec, hst']; rfl⟩

theorem mapM_eq_self_iff {α : Type} {g : α → Option α} {xs : List α} :
    xs.mapM g = some xs ↔ ∀ x ∈ xs, g x = some x := by
  induction xs with
  | nil => simp
  | cons x xs ih => simp [List.mapM_cons, Option.bind_eq_some_iff, ih]

theorem mapM_some_eq {α : Type} {xs ys : List α} (h : xs.mapM some = some ys) : ys = xs :=
  Option.some.inj (h.symm.trans (mapM_eq_self_iff.mpr fun _ _ => rfl))

/-- What is removed under the new numbers is removed by the pass. Where both make the same of a statement,
it is not just a template and its borrowed parameters keep their numbers. -/
theorem statement_inv (ht : TablesOf tables r f) (hk : st.Kept r f)
    {a b : Option (Statement T P (LValue P))} (ha : rewriteStatement tables f.dropFlags st = some a)
    (hb : r.statement f.dropFlags st = some b) :
    (b = none → a = none) ∧ (a = b → (∀ tpl, st = .asm tpl [] [] [] [] → tpl = []) ∧
      ∀ lv ∈ st.paramBorrows, r.lvalue lv = some lv) := by
  have hspecial (hnil : st.paramBorrows = []) (hne : ∀ tpl, st ≠ .asm tpl [] [] [] [])
      (h : ∃ x, rewriteStatement tables f.dropFlags st = some x ∧ r.statement f.dropFlags st = some x) :
      (b = none → a = none) ∧ (a = b → (∀ tpl, st = .asm tpl [] [] [] [] → tpl = []) ∧
        ∀ lv ∈ st.paramBorrows, r.lvalue lv = some lv) := by
    obtain ⟨x, hx, hx'⟩ := h
    obtain rfl := Option.some.inj (ha.symm.trans hx)
    obtain rfl := Option.some.inj (hb.symm.trans hx')
    refine ⟨id, fun _ => ⟨fun tpl h => absurd h (hne tpl), fun lv hlv => ?_⟩⟩
    rw [hnil] at hlv
    cases hlv
  rcases statement_cases st with ⟨tpl, rfl⟩ | ⟨kind, slot, flagIdx, rfl⟩ | ⟨idx, newVal, other, rfl⟩ |
    ⟨slots, rfl⟩ | ⟨hused, hplain⟩
  · obtain rfl := Option.some.inj ha
    refine ⟨fun _ => rfl, fun hab => ⟨?_, fun lv hlv => absurd hlv List.not_mem_nil⟩⟩
    rintro tpl' h
    obtain rfl : tpl = tpl' := by injection h
    rw [Renaming.statement, Option.some.injEq, ← hab] at hb
    split at hb
    · assumption
    · cases hb
  · exact hspecial rfl nofun (drop_eq ht hk)
  · exact hspecial rfl nofun (setDropFlag_eq ht hk)
  · exact hspecial rfl nofun (scopeEnd_eq ht hk)
  · obtain ⟨hcode, hspec⟩ := hplain tables r f.dropFlags
    rw [hcode, Option.map_eq_some_iff] at ha
    rw [hspec, Option.map_eq_some_iff] at hb
    obtain ⟨⟨sa, _⟩, ha, rfl⟩ := ha
    obtain ⟨⟨sb, _⟩, hb, rfl⟩ := hb
    refine ⟨nofun, fun hab => ⟨?_, ?_⟩⟩
    · rintro tpl rfl
      have := (hplain tables r f.dropFlags).1
      simp [rewriteStatement, Statement.visit, visitNamed] at this
    · obtain rfl : sa = sb := Option.some.inj hab
      have htr := statement_traverses st
      have heq := mapM_some_eq (htr.borrows ha)
      exact mapM_eq_self_iff.mp ((htr.borrows hb).trans (congrArg some heq))


theorem paramBorrows_mapTargetsM {cb : BasicBlockId → Option BasicBlockId} {t t' : Terminator T P (LValue P)}
    (h : t.mapTargetsM cb = some t') : t'.paramBorrows = t.paramBorrows := by
  rw [Terminator.mapTargetsM_some h]
  cases t <;> rfl

theorem targets_visit {v : Visitor Option Unit (LValue P) (LValue P)} {t t' : Terminator T P (LValue P)}
    (h : t.visit v () = some (t', ())) :
    t'.targets = t.targets ∧ ∀ dst, t' = .panic dst ↔ t = .panic dst := by
  cases t <;> simp only [Terminator.visit, Option.bind_eq_bind, Option.bind_eq_some_iff, Option.pure_def,
    Option.some.injEq, Prod.mk.injEq, and_true] at h
  all_goals grind [Terminator.targets]

theorem rewriteTarget_eq (ht : TablesOf tables r f) {e e' : BasicBlockId} (he : e < f.blocks.length)
    (h : r.block e = some e') : rewriteTarget tables.blocks e = some e' := by
  simp [rewriteTarget, ht.blocks e he, h]

variable {t t' : Terminator T P (LValue P)}

/-- Where borrowed parameters and the targets of panics keep their numbers, both make the same of a
terminator. -/
theorem terminator_eq (ht : TablesOf tables r f)
    (hlt : ∀ l ∈ t.usedLocals, l < f.locals.length) (hk : ∀ l ∈ t.usedLocals, (r.local_ l).isSome)
    (htg : ∀ e ∈ t.targets, e < f.blocks.length ∧ ∃ e', r.block e = some e')
    (hb : ∀ lv ∈ t.paramBorrows, r.lvalue lv = some lv)
    (hp : ∀ dst, t = .panic dst → r.block dst = some dst) :
    ∃ t', rewriteTerminator tables t = some t' ∧ r.terminator t = some t' := by
  have hmem {lv : LValue P} (hlv : lv ∈ t.lvalues.map Prod.fst) {l : ℕ} (hl : l ∈ lv.locals) :
      l ∈ t.usedLocals := List.mem_flatMap.mpr ⟨lv, List.mem_append_left _ hlv, hl⟩
  have hlv : ∀ lv ∈ t.lvalues.map Prod.fst,
      lvalueCb tables.locals lv = r.lvalue lv ∧ ∃ lv', r.lvalue lv = some lv' := fun lv hlv =>
    lvalueCb_eq ht.locals (fun l hl => hlt l (hmem hlv hl)) fun l hl => hk l (hmem hlv hl)
  have htr := terminator_traverses t
  obtain ⟨t₁, ht₁⟩ := htr.succeeds (fun lv h => (hlv lv h).2) fun lv h => ⟨lv, hb lv h⟩
  have hsame := (htr.congr (fun lv h => (hlv lv h).1) fun lv h => (hb lv h).symm).trans ht₁
  obtain ⟨htargets, hpanic⟩ := targets_visit ht₁
  rw [← htargets] at htg
  obtain ⟨t₂, ht₂⟩ : ∃ t₂, t₁.mapTargetsM r.block = some t₂ := by
    refine ⟨t₁.mapTargets fun e => (r.block e).getD e, Terminator.mapTargetsM_eq fun e he => ?_⟩
    obtain ⟨e', he'⟩ := (htg e he).2
    rw [he', Option.getD_some]
  refine ⟨t₂, ?_, by rw [Renaming.terminator, ht₁, Option.bind_some, ht₂]⟩
  have hrw : rewriteTerminator tables t = rewriteTargets tables.blocks t₁ :=
    congrArg (fun x => x.bind fun x => rewriteTargets tables.blocks x.1) hsame
  rw [hrw]
  unfold rewriteTargets
  split
  · next dst =>
    rw [Terminator.mapTargetsM, hp dst ((hpanic dst).mp rfl)] at ht₂
    exact ht₂
  · rw [← ht₂]
    have htarget : ∀ e ∈ t₁.targets, rewriteTarget tables.blocks e = some ((r.block e).getD e) := by
      intro e he
      obtain ⟨hlt, e', he'⟩ := htg e he
      rw [rewriteTarget_eq ht hlt he', he', Option.getD_some]
    rw [Terminator.mapTargetsM_eq htarget, Terminator.mapTargetsM_eq fun e he => ?_]
    obtain ⟨-, e', he'⟩ := htg e he
    rw [he', Option.getD_some]

/-- Where both make the same of a terminator, borrowed parameters and the targets of panics keep their
numbers. -/
theorem terminator_inv (h : rewriteTerminator tables t = some t') (h' : r.terminator t = some t') :
    (∀ lv ∈ t.paramBorrows, r.lvalue lv = some lv) ∧ ∀ dst, t = .panic dst → r.block dst = some dst := by
  have htr := terminator_traverses t
  obtain ⟨⟨t₁, _⟩, ht₁, h⟩ := Option.bind_eq_some_iff.mp h
  obtain ⟨⟨t₂, _⟩, ht₂, h'⟩ := Option.bind_eq_some_iff.mp h'
  have hb₁ : t'.paramBorrows = t₁.paramBorrows := by
    have h : rewriteTargets tables.blocks t₁ = some t' := h
    unfold rewriteTargets at h
    split at h
    · obtain rfl := Option.some.inj h
      rfl
    · exact paramBorrows_mapTargetsM h
  have hb : t₂.paramBorrows = t.paramBorrows := by
    rw [← paramBorrows_mapTargetsM h', hb₁]
    exact mapM_some_eq (htr.borrows ht₁)
  refine ⟨mapM_eq_self_iff.mp ((htr.borrows ht₂).trans (congrArg some hb)), ?_⟩
  rintro dst rfl
  obtain rfl : t₁ = .panic dst := ((targets_visit ht₁).2 dst).mpr rfl
  obtain rfl : t₂ = .panic dst := ((targets_visit ht₂).2 dst).mpr rfl
  obtain rfl := Option.some.inj h
  cases hd : r.block dst <;> simp_all [Terminator.mapTargetsM]

section ReduceOption

variable {α β : Type} {as bs : List (Option β)}

theorem reduceOption_length_le (h : List.Forall₂ (fun a b => b = none → a = none) as bs) :
    as.reduceOption.length ≤ bs.reduceOption.length := by
  induction h with
  | nil => exact le_rfl
  | @cons a b as bs hab _ ih =>
    cases a with
    | none =>
      rw [List.reduceOption_cons_of_none]
      refine ih.trans ?_
      cases b <;> simp
    | some a =>
      cases b with
      | none => cases hab rfl
      | some b => simpa using ih

/-- Lists are the same if they are the same without their holes, and the second one has no more holes. -/
theorem eq_of_reduceOption (h : List.Forall₂ (fun a b => b = none → a = none) as bs)
    (heq : as.reduceOption = bs.reduceOption) : as = bs := by
  induction h with
  | nil => rfl
  | @cons a b as bs hab h ih =>
    cases a with
    | none =>
      cases b with
      | none =>
        rw [List.reduceOption_cons_of_none, List.reduceOption_cons_of_none] at heq
        rw [ih heq]
      | some b =>
        have := reduceOption_length_le h
        rw [List.reduceOption_cons_of_none, List.reduceOption_cons_of_some] at heq
        rw [heq, List.length_cons] at this
        omega
    | some a =>
      cases b with
      | none => cases hab rfl
      | some b =>
        rw [List.reduceOption_cons_of_some, List.reduceOption_cons_of_some, List.cons.injEq] at heq
        rw [heq.1, ih heq.2]

theorem forall₂_of_mapM {γ : Type} {R : β → γ → Prop} {g : α → Option β} {g' : α → Option γ} {xs : List α}
    {ys : List β} {zs : List γ} (hy : xs.mapM g = some ys) (hz : xs.mapM g' = some zs)
    (h : ∀ x ∈ xs, ∀ y z, g x = some y → g' x = some z → R y z) : List.Forall₂ R ys zs := by
  induction xs generalizing ys zs with
  | nil =>
    obtain rfl := Option.some.inj hy
    obtain rfl := Option.some.inj hz
    exact .nil
  | cons x xs ih =>
    simp only [List.mapM_cons, Option.bind_eq_bind, Option.bind_eq_some_iff, Option.pure_def,
      Option.some.injEq] at hy hz
    obtain ⟨y, hy, ys, hys, rfl⟩ := hy
    obtain ⟨z, hz, zs, hzs, rfl⟩ := hz
    exact .cons (h x List.mem_cons_self y z hy hz)
      (ih hys hzs fun x' hx' => h x' (List.mem_cons_of_mem _ hx'))

end ReduceOption

section Blocks

variable {c c' : BasicBlock T P (LValue P)}

/-- What the block is about is kept. -/
structure BasicBlock.Kept (c : BasicBlock T P (LValue P)) (r : Renaming) (f : Function T P (LValue P)) :
    Prop where
  statement : ∀ st ∈ c.statements, st.Kept r f
  locals_lt : ∀ l ∈ c.terminator.usedLocals, l < f.locals.length
  used : ∀ l ∈ c.terminator.usedLocals, (r.local_ l).isSome
  target : ∀ e ∈ c.terminator.targets, e < f.blocks.length ∧ ∃ e', r.block e = some e'

theorem mem_paramBorrows {lv : LValue P} : lv ∈ c.paramBorrows ↔
    (∃ st ∈ c.statements, lv ∈ st.paramBorrows) ∨ lv ∈ c.terminator.paramBorrows := by
  rw [BasicBlock.paramBorrows, List.mem_append, List.mem_flatMap]

theorem block_eq (ht : TablesOf tables r f) (hk : c.Kept r f)
    (htpl : ∀ tpl, .asm tpl [] [] [] [] ∈ c.statements → tpl = [])
    (hb : ∀ lv ∈ c.paramBorrows, r.lvalue lv = some lv)
    (hp : ∀ dst, c.terminator = .panic dst → r.block dst = some dst) :
    ∃ c', rewriteBlock tables f.dropFlags c = some c' ∧ r.code f.dropFlags c = some c' := by
  have hst : ∀ st ∈ c.statements, ∃ x, rewriteStatement tables f.dropFlags st = some x ∧
      r.statement f.dropFlags st = some x := fun st hmem =>
    statement_eq ht (hk.statement st hmem) (fun tpl h => htpl tpl (h ▸ hmem))
      fun lv hlv => hb lv (mem_paramBorrows.mpr (.inl ⟨st, hmem, hlv⟩))
  obtain ⟨t', hcode, hspec⟩ := terminator_eq ht hk.locals_lt hk.used hk.target
    (fun lv hlv => hb lv (mem_paramBorrows.mpr (.inr hlv))) hp
  obtain ⟨sts, hsts⟩ := mapM_exists fun st hmem => (hst st hmem).imp fun x h => h.2
  have hsts' : c.statements.mapM (rewriteStatement tables f.dropFlags) = some sts := by
    rw [← hsts]
    apply mapM_congr_left
    intro st hmem
    obtain ⟨x, h, h'⟩ := hst st hmem
    rw [h, h']
  exact ⟨⟨sts.reduceOption, t'⟩, by simp [rewriteBlock, hsts', hcode], by simp [Renaming.code, hsts, hspec]⟩

theorem block_inv (ht : TablesOf tables r f) (hk : c.Kept r f)
    (h : rewriteBlock tables f.dropFlags c = some c') (h' : r.code f.dropFlags c = some c') :
    (∀ tpl, .asm tpl [] [] [] [] ∈ c.statements → tpl = []) ∧
      (∀ lv ∈ c.paramBorrows, r.lvalue lv = some lv) ∧
      ∀ dst, c.terminator = .panic dst → r.block dst = some dst := by
  simp only [rewriteBlock, Renaming.code, Option.bind_eq_bind, Option.bind_eq_some_iff, Option.pure_def,
    Option.some.injEq] at h h'
  obtain ⟨as, has, t, hterm, rfl⟩ := h
  obtain ⟨bs, hbs, t', hterm', heq⟩ := h'
  rw [BasicBlock.mk.injEq] at heq
  obtain ⟨hred, rfl⟩ := heq
  have hab : as = bs := eq_of_reduceOption (forall₂_of_mapM has hbs fun st hmem a b ha hb =>
    (statement_inv ht (hk.statement st hmem) ha hb).1) hred.symm
  subst hab
  have hst : ∀ st ∈ c.statements, (∀ tpl, st = .asm tpl [] [] [] [] → tpl = []) ∧
      ∀ lv ∈ st.paramBorrows, r.lvalue lv = some lv := by
    intro st hmem
    obtain ⟨i, hi⟩ := List.getElem?_of_mem hmem
    obtain ⟨a, ha, hga⟩ := mapM_getElem? has hi
    obtain ⟨b, hb, hgb⟩ := mapM_getElem? hbs hi
    obtain rfl := Option.some.inj (ha.symm.trans hb)
    exact (statement_inv ht (hk.statement st hmem) hga hgb).2 rfl
  obtain ⟨hborrows, hpanic⟩ := terminator_inv hterm hterm'
  refine ⟨fun tpl hmem => (hst _ hmem).1 tpl rfl, fun lv hlv => ?_, hpanic⟩
  rcases mem_paramBorrows.mp hlv with ⟨st, hmem, hlv⟩ | hlv
  · exact (hst st hmem).2 lv hlv
  · exact hborrows lv hlv

end Blocks

end Rewriting

section Marked

theorem mem_locals_of_assignedLval {lv : LValue P} {l : ℕ} (h : assignedLval lv = some l) :
    l ∈ lv.locals := by
  obtain ⟨root, wrappers⟩ := lv
  rw [assignedLval] at h
  split at h
  · cases root <;> simp_all [LValue.locals]
  · cases h

theorem assignedBy_subset {st : Statement T P (LValue P)} {lv : LValue P} (h : lv ∈ assignedBy st) :
    lv ∈ st.mentioned ∧ st.usedLocals = st.mentioned.flatMap LValue.locals := by
  cases st with
  | assign dst src =>
    obtain rfl := List.mem_singleton.mp h
    exact ⟨by simp [Statement.mentioned, Statement.lvalues], rfl⟩
  | asm tpl outputs inputs clobbers flags =>
    refine ⟨?_, rfl⟩
    simp only [assignedBy, List.mem_map] at h
    simp only [Statement.mentioned, Statement.lvalues, List.mem_append, List.map_append, List.mem_map]
    grind
  | asm2 options lines params =>
    refine ⟨?_, rfl⟩
    obtain ⟨p, hp, hlv⟩ := List.mem_filterMap.mp h
    refine List.mem_append_left _ (List.mem_map.mpr ⟨(lv, .write), List.mem_flatMap.mpr ⟨p, hp, ?_⟩, rfl⟩)
    cases p <;> simp_all [Interp.asmOutput, AsmParam.lvalues]
  | _ => cases h

theorem markedLocals_subset {c : BasicBlock T P (LValue P)} {l : ℕ} (h : l ∈ markedLocals c) :
    l ∈ c.usedLocals := by
  obtain ⟨lv, hlv, hl⟩ := List.mem_filterMap.mp h
  have hmem := mem_locals_of_assignedLval hl
  rcases List.mem_append.mp hlv with hlv | hlv
  · obtain ⟨st, hst, hlv⟩ := List.mem_flatMap.mp hlv
    obtain ⟨hlv, hused⟩ := assignedBy_subset hlv
    refine List.mem_append_left _ (List.mem_flatMap.mpr ⟨st, hst, ?_⟩)
    exact hused ▸ List.mem_flatMap.mpr ⟨lv, hlv, hmem⟩
  · refine List.mem_append_right _ (List.mem_flatMap.mpr ⟨lv, ?_, hmem⟩)
    cases ht : c.terminator <;>
      simp_all [returned, Terminator.mentioned, Terminator.lvalues]

theorem paramBorrows_subset {c : BasicBlock T P (LValue P)} {lv : LValue P} {l : ℕ}
    (h : lv ∈ c.paramBorrows) (hl : l ∈ lv.locals) : l ∈ c.usedLocals := by
  rcases mem_paramBorrows.mp h with ⟨st, hst, hlv⟩ | hlv
  · refine List.mem_append_left _ (List.mem_flatMap.mpr ⟨st, hst, ?_⟩)
    have hmem : l ∈ st.mentioned.flatMap LValue.locals :=
      List.mem_flatMap.mpr ⟨lv, List.mem_append_right _ hlv, hl⟩
    cases st with
    | drop kind slot flagIdx => cases hlv
    | _ => exact hmem
  · exact List.mem_append_right _ (List.mem_flatMap.mpr ⟨lv, List.mem_append_right _ hlv, hl⟩)

theorem usedLocals_subset {st : Statement T P (LValue P)} {l : ℕ} (h : l ∈ st.usedLocals) :
    l ∈ st.mentioned.flatMap LValue.locals := by
  cases st with
  | drop kind slot flagIdx =>
    rw [Statement.usedLocals] at h
    split at h
    · cases h
    · simpa [Statement.mentioned, Statement.lvalues, Statement.paramBorrows] using h
  | _ => exact h

namespace Function

variable {l : ℕ}

theorem Assigns.uses (h : f.Assigns l) : f.Uses l := by
  obtain ⟨bb, c, hr, hc, hl⟩ := h
  exact ⟨bb, c, hr, hc, markedLocals_subset hl⟩

theorem Uses.lt (hf : f.InRange) (h : f.Uses l) : l < f.locals.length := by
  obtain ⟨bb, c, -, hc, hl⟩ := h
  rcases List.mem_append.mp hl with hl | hl
  · obtain ⟨st, hst, hl⟩ := List.mem_flatMap.mp hl
    exact hf.statement_lt hc st hst l (List.mem_append_left _ (usedLocals_subset hl))
  · exact hf.terminator_lt hc l hl

theorem SetsFlag.lt (hf : f.InRange) {idx : ℕ} (h : f.SetsFlag idx) : idx < f.dropFlags.length := by
  obtain ⟨bb, c, -, hc, hidx⟩ := h
  obtain ⟨st, hst, hidx⟩ := List.mem_flatMap.mp hidx
  exact hf.flags_lt hc st hst idx (List.mem_append_left _ hidx)

end Function

/-- What reachable code is about is kept by the compaction. -/
theorem kept_compaction (hf : f.InRange) {bb : BasicBlockId} {c : BasicBlock T P (LValue P)}
    (hr : Reached f.blocks bb) (hc : f.blocks[bb]? = some c) : c.Kept (compaction f) f := by
  have hlocal {l : ℕ} (h : l ∈ c.usedLocals) : ((compaction f).local_ l).isSome := by
    have huses : f.Uses l := ⟨bb, c, hr, hc, h⟩
    exact positions_isSome.mpr ⟨huses.lt hf, huses⟩
  refine ⟨fun st hst => ⟨hf.statement_lt hc st hst, hf.flags_lt hc st hst, fun l hl => ?_, fun idx hidx => ?_⟩,
    hf.terminator_lt hc, fun l hl => ?_, fun e he => ?_⟩
  · exact hlocal (List.mem_append_left _ (List.mem_flatMap.mpr ⟨st, hst, hl⟩))
  · have hset : f.SetsFlag idx := ⟨bb, c, hr, hc, List.mem_flatMap.mpr ⟨st, hst, hidx⟩⟩
    exact positions_isSome.mpr ⟨hset.lt hf, hset⟩
  · exact hlocal (List.mem_append_right _ hl)
  · have hre : Reached f.blocks e := hr.tail (by rwa [succs, hc])
    have hlt := hf.reached_lt hre
    exact ⟨hlt, Option.isSome_iff_exists.mp (positions_isSome.mpr ⟨hlt, hre⟩)⟩

end Marked

section Collect

variable {visited : List Bool} {g : Function T P (LValue P)}

theorem collect_eq_some : collect f visited = some g ↔
    (compact visited f.blocks).mapM (rewriteBlock (rewriteTables f visited) f.dropFlags) = some g.blocks ∧
      g.locals = compact (usedLocals f visited) f.locals ∧
      g.dropFlags = compact (usedDfs f visited) f.dropFlags := by
  have hl : (usedLocals f visited).length = f.locals.length := MarksReached.marks_length _ _
  have hd : (usedDfs f visited).length = f.dropFlags.length := MarksReached.marks_length _ _
  obtain ⟨locals, dropFlags, blocks⟩ := g
  simp only [collect, eraseUnused_eq hl, eraseUnused_eq hd, Option.bind_eq_bind, Option.bind_eq_some_iff,
    Option.pure_def, Option.some.injEq, Function.mk.injEq]
  grind

/-- The tables are those of the compaction if all that is used is assigned. -/
theorem tablesOf_compaction (hv : MarksReached f visited) (h : ∀ l, f.Uses l ↔ f.Assigns l) :
    TablesOf (rewriteTables f visited) (compaction f) f := by
  have hassigns : f.Uses = f.Assigns := funext fun l => propext (h l)
  refine ⟨?_, ?_, ?_⟩
  · have := tableOf_rewriteTable (usedLocals f visited)
    rw [usedLocals, hv.rank_marks, MarksReached.marks_length] at this
    rw [compaction, hassigns]
    exact this
  · have := tableOf_rewriteTable (usedDfs f visited)
    rw [usedDfs, hv.rank_marks, MarksReached.marks_length] at this
    exact this
  · have := tableOf_rewriteTable visited
    rwa [hv.rank_eq, hv.length] at this

theorem collect_isomorphic (hf : f.InRange) (hv : MarksReached f visited) (h : Compactable f) :
    ∃ g, collect f visited = some g ∧ Isomorphic (compaction f) f g := by
  have huses (l : ℕ) : f.Uses l ↔ f.Assigns l := ⟨h.assigned, Function.Assigns.uses⟩
  have heq : ∀ c ∈ compact visited f.blocks, ∃ c',
      rewriteBlock (rewriteTables f visited) f.dropFlags c = some c' ∧
      (compaction f).code f.dropFlags c = some c' := by
    intro c hc
    obtain ⟨bb, hr, hcode⟩ := hv.mem_iff.mp hc
    apply block_eq (tablesOf_compaction hv huses) (kept_compaction hf hr hcode) (h.template hr hcode)
    · intro lv hlv
      refine lvalue_eq_self_iff.mpr fun l hl => positions_eq_self_iff.mpr ?_
      have hl' : f.Uses l := ⟨bb, c, hr, hcode, paramBorrows_subset hlv hl⟩
      refine ⟨hl'.lt hf, fun j hj => ?_⟩
      rcases hj.lt_or_eq with hj | rfl
      · exact (h.borrows hr hcode lv hlv l hl j hj).uses
      · exact hl'
    · intro dst hdst
      have hre : Reached f.blocks dst := hr.tail (by rw [succs, hcode]; simp [hdst, Terminator.targets])
      refine positions_eq_self_iff.mpr ⟨hf.reached_lt hre, fun j hj => ?_⟩
      rcases hj.lt_or_eq with hj | rfl
      · exact h.panics hr hcode hdst j hj
      · exact hre
  obtain ⟨blocks, hblocks⟩ := mapM_exists fun c hc => (heq c hc).imp fun c' h => h.1
  refine ⟨⟨compact (usedLocals f visited) f.locals, compact (usedDfs f visited) f.dropFlags, blocks⟩,
    collect_eq_some.mpr ⟨hblocks, rfl, rfl⟩, ?_, ?_, ?_, ?_⟩
  · have hassigns : f.Uses = f.Assigns := funext fun l => propext (huses l)
    rw [compaction, hassigns]
    exact hv.named markedLocals fun l hl => (Function.Assigns.uses hl).lt hf
  · exact hv.named markedDfs fun _ h => Function.SetsFlag.lt hf h
  · refine hv.blocks.replace (mapM_length hblocks) fun k c hc => ?_
    obtain ⟨c', hc', hcode⟩ := mapM_getElem? hblocks hc
    obtain ⟨c'', hcode', hspec⟩ := heq c (List.mem_of_getElem? hc)
    obtain rfl := Option.some.inj (hcode.symm.trans hcode')
    exact ⟨c', hc', hspec⟩
  · exact positions_eq_self_iff.mpr ⟨hf.nonempty, fun j hj => Nat.le_zero.mp hj ▸ .refl⟩

theorem compactable_of_collect (hf : f.InRange) (hv : MarksReached f visited)
    (hg : collect f visited = some g) (h : Isomorphic (compaction f) f g) : Compactable f := by
  obtain ⟨hblocks, hlocals, -⟩ := collect_eq_some.mp hg
  have hlt : ∀ l, f.Names markedLocals l → l < f.locals.length := fun l hl =>
    (Function.Assigns.uses hl).lt hf
  have hnamed := hv.named markedLocals hlt
  have hassigned {l : ℕ} (hl : f.Uses l) : f.Assigns l :=
    h.locals.kept_of_subset hnamed (by rw [hlocals, usedLocals]) (fun _ => Function.Assigns.uses) hl
  have huses (l : ℕ) : f.Uses l ↔ f.Assigns l := ⟨hassigned, Function.Assigns.uses⟩
  have hinv {bb : BasicBlockId} {c : BasicBlock T P (LValue P)} (hr : Reached f.blocks bb)
      (hc : f.blocks[bb]? = some c) :
      (∀ tpl, .asm tpl [] [] [] [] ∈ c.statements → tpl = []) ∧
        (∀ lv ∈ c.paramBorrows, (compaction f).lvalue lv = some lv) ∧
        ∀ dst, c.terminator = .panic dst → (compaction f).block dst = some dst := by
    obtain ⟨k, hk⟩ := hv.blocks.exists_new hr
    obtain ⟨x, y, hx, hy, rfl⟩ := hv.blocks.related hk
    obtain rfl := Option.some.inj (hc.symm.trans hx)
    obtain ⟨x', c', hx', hc', hcode⟩ := h.blocks.related hk
    obtain rfl := Option.some.inj (hc.symm.trans hx')
    obtain ⟨c'', hc'', hrw⟩ := mapM_getElem? hblocks hy
    obtain rfl := Option.some.inj (hc'.symm.trans hc'')
    exact block_inv (tablesOf_compaction hv huses) (kept_compaction hf hr hc) hrw hcode
  refine ⟨fun hr hc => (hinv hr hc).1, hassigned, fun hr hc lv hlv l hl j hj => ?_, fun hr hc dst hdst j hj => ?_⟩
  · have := lvalue_eq_self_iff.mp ((hinv hr hc).2.1 lv hlv) l hl
    exact hassigned ((positions_eq_self_iff.mp this).2 j hj.le)
  · exact (positions_eq_self_iff.mp ((hinv hr hc).2.2 dst hdst)).2 j hj.le

end Collect

/-- The pass moves what is kept together and renumbers it everywhere exactly if the function is
compactable. -/
theorem garbageCollect_iff (hf : f.InRange) :
    (∃ g, Yields (garbageCollect · f) g ∧ Isomorphic (compaction f) f g) ↔ Compactable f := by
  obtain ⟨visited, hy, hv⟩ := visitBlocks_yields hf
  have hmarks : MarksReached f ((List.range f.blocks.length).map visited) := by
    refine ⟨by simp, fun i => ?_⟩
    rw [← hv, List.getElem?_map]
    by_cases hi : i < f.blocks.length
    · simp [List.getElem?_range hi]
    · have : ¬ visited i = true := fun h => hi (hf.reached_lt ((hv i).mp h))
      simp [hi, this]
  constructor
  · rintro ⟨g, hg, hiso⟩
    obtain ⟨fuel, hfuel, hg⟩ := (hy.and hg).exists
    have hg : (visitBlocks f.blocks fuel).bind (fun visited => collect f _) = some g := hg
    rw [hfuel] at hg
    exact compactable_of_collect hf hmarks hg hiso
  · intro h
    obtain ⟨g, hg, hiso⟩ := collect_isomorphic hf hmarks h
    exact ⟨g, hy.bind (.of_forall fun _ => hg), hiso⟩

end Mrustc.Mir
