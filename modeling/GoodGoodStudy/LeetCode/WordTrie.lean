/-
The second solution of the exercise 212. The trie is described by the words that end below a node, relative to the
node; a call of the search takes out those that can be read from its cell, and nothing else, and puts the board back as
it was. What is taken out by calls that follow one another, or one another's parts, adds up.
-/
import Mathlib.Data.Finset.BooleanAlgebra
import Mathlib.Data.Fintype.Prod
import GoodGoodStudy.LeetCode.WordSearch

namespace GoodGoodStudy.LeetCode.WordSearch.Solution2

open GoodGoodStudy.Lib

variable {m n : ℕ}

/-! ## Tries -/

/-- The node that the prefix leads to, in a trie whose words have none of the two marks: at the end of a word the word
itself is stored. -/
inductive Holds : Word → Tree → Prop
  | dict {q : Word} {items : List (Char × Tree)} (word : ∀ v, items.lookup '#' = some v → v = .leaf q)
      (mark : items.lookup '$' = none)
      (children : ∀ k child, k ≠ '#' → items.lookup k = some child → Holds (q ++ [k]) child) : Holds q (.dict items)

/-- A word ends at the end of the path. -/
def Ends : Tree → Word → Prop
  | t, [] => (t.get? '#').isSome
  | t, k :: path => k ≠ '#' ∧ ∃ child, t.get? k = some child ∧ Ends child path

theorem Holds.isDict {q : Word} {t : Tree} (h : Holds q t) : ∃ items, t = .dict items := by
  cases h
  exact ⟨_, rfl⟩

theorem Holds.word {q : Word} {items : List (Char × Tree)} (h : Holds q (.dict items)) :
    ∀ v, items.lookup '#' = some v → v = .leaf q := by
  cases h
  assumption

theorem Holds.mark {q : Word} {items : List (Char × Tree)} (h : Holds q (.dict items)) : items.lookup '$' = none := by
  cases h
  assumption

theorem Holds.child {q : Word} {items : List (Char × Tree)} (h : Holds q (.dict items)) :
    ∀ k child, k ≠ '#' → items.lookup k = some child → Holds (q ++ [k]) child := by
  cases h
  assumption

theorem holds_empty (q : Word) : Holds q (.dict []) := .dict nofun rfl nofun

theorem not_ends_empty (path : Word) : ¬ Ends (.dict []) path := by
  cases path with
  | nil => exact Bool.false_ne_true
  | cons k path =>
    rintro ⟨-, child, hchild, -⟩
    cases hchild

/-- A letter is set to a child that holds what is to be held there. -/
theorem Holds.setItem {q : Word} {items : List (Char × Tree)} (h : Holds q (.dict items)) {k : Char} {child : Tree}
    (hword : k ≠ '#') (hmark : k ≠ '$') (hchild : Holds (q ++ [k]) child) :
    Holds q (.dict (Nested.setItem items k child)) := by
  refine .dict (fun v hv => ?_) ?_ fun k' child' hk' h' => ?_
  · rw [Nested.lookup_setItem, if_neg (Ne.symm hword)] at hv
    exact h.word v hv
  · rw [Nested.lookup_setItem, if_neg (Ne.symm hmark)]
    exact h.mark
  · rw [Nested.lookup_setItem] at h'
    split_ifs at h' with he
    · obtain rfl := Option.some.inj h'
      exact he ▸ hchild
    · exact h.child k' child' hk' h'

theorem Holds.eraseItem {q : Word} {items : List (Char × Tree)} (h : Holds q (.dict items)) (k : Char) :
    Holds q (.dict (Nested.eraseItem items k)) := by
  have hlookup : ∀ {k' v}, (Nested.eraseItem items k).lookup k' = some v → items.lookup k' = some v := by
    intro k' v hv
    rw [Nested.lookup_eraseItem] at hv
    split_ifs at hv
    exact hv
  refine .dict (fun v hv => h.word v (hlookup hv)) ?_ fun k' child hk' h' => h.child k' child hk' (hlookup h')
  rw [Nested.lookup_eraseItem, h.mark, ite_self]

/-- The key that decides whether a word ends at the path. -/
def firstKey (path : Word) : Char := path.head?.getD '#'

theorem ends_congr {items items' : List (Char × Tree)} {path : Word}
    (h : items'.lookup (firstKey path) = items.lookup (firstKey path)) :
    Ends (.dict items') path ↔ Ends (.dict items) path := by
  cases path with
  | nil =>
    show (items'.lookup '#').isSome ↔ (items.lookup '#').isSome
    rw [show items'.lookup '#' = items.lookup '#' from h]
  | cons k path =>
    show (k ≠ '#' ∧ ∃ child, items'.lookup k = some child ∧ _) ↔ k ≠ '#' ∧ ∃ child, items.lookup k = some child ∧ _
    rw [show items'.lookup k = items.lookup k from h]

theorem ends_cons_of_some {items : List (Char × Tree)} {k : Char} {child : Tree} (hk : k ≠ '#')
    (h : items.lookup k = some child) (path : Word) : Ends (.dict items) (k :: path) ↔ Ends child path := by
  show (k ≠ '#' ∧ ∃ child, items.lookup k = some child ∧ _) ↔ _
  rw [h]
  exact ⟨fun ⟨_, _, hc, hends⟩ => Option.some.inj hc ▸ hends, fun hends => ⟨hk, child, rfl, hends⟩⟩

theorem not_ends_cons_of_none {items : List (Char × Tree)} {k : Char} (h : items.lookup k = none) (path : Word) :
    ¬ Ends (.dict items) (k :: path) := by
  rintro ⟨-, child, hchild, -⟩
  rw [Nested.get?_dict, h] at hchild
  cases hchild

theorem firstKey_eq {k : Char} (hk : k ≠ '#') {path : Word} (h : firstKey path = k) : ∃ rest, path = k :: rest := by
  cases path with
  | nil => exact absurd h.symm hk
  | cons k' rest => exact ⟨rest, congrArg (· :: rest) h⟩

/-! ## The trie of the words -/

/-- At the end of the loop the word itself is stored in the node. -/
theorem endWord_spec {q : Word} {items : List (Char × Tree)} (h : Holds q (.dict items)) :
    Holds q (.dict (Nested.setItem items '#' (.leaf q))) ∧
      ∀ path, Ends (.dict (Nested.setItem items '#' (.leaf q))) path ↔ Ends (.dict items) path ∨ path = [] := by
  refine ⟨.dict (fun v hv => ?_) ?_ fun k child hk hchild => ?_, fun path => ?_⟩
  · rw [Nested.lookup_setItem, if_pos rfl] at hv
    exact (Option.some.inj hv).symm
  · rw [Nested.lookup_setItem, if_neg (by decide)]
    exact h.mark
  · rw [Nested.lookup_setItem, if_neg hk] at hchild
    exact h.child k child hk hchild
  · by_cases hpath : path = []
    · subst hpath
      refine iff_of_true ?_ (Or.inr rfl)
      show ((Nested.setItem items '#' (.leaf q)).lookup '#').isSome
      rw [Nested.lookup_setItem, if_pos rfl]
      rfl
    · rw [or_iff_left hpath]
      obtain ⟨k, path, rfl⟩ := List.exists_cons_of_ne_nil hpath
      by_cases hk : k = '#'
      · exact iff_of_false (fun he => he.1 hk) fun he => he.1 hk
      · exact ends_congr ((Nested.lookup_setItem ..).trans (if_neg hk))

/-- A letter that the node did not have gets an empty dictionary, and no word ends there. -/
theorem addLetter_spec {q : Word} {items : List (Char × Tree)} (h : Holds q (.dict items)) {k : Char} (hk : k ≠ '#')
    (hmark : k ≠ '$') :
    ∃ items' child, (if (items.lookup k).isNone then Nested.setItem items k (.dict []) else items) = items' ∧
      items'.lookup k = some child ∧ Holds q (.dict items') ∧ Holds (q ++ [k]) child ∧
      ∀ path, Ends (.dict items') path ↔ Ends (.dict items) path := by
  cases hget : items.lookup k with
  | none =>
    have hset : (Nested.setItem items k (.dict [])).lookup k = some (.dict []) := by
      rw [Nested.lookup_setItem, if_pos rfl]
    refine ⟨_, .dict [], if_pos rfl, hset, h.setItem hk hmark (holds_empty _), holds_empty _, fun path => ?_⟩
    by_cases hfirst : firstKey path = k
    · obtain ⟨path, rfl⟩ := firstKey_eq hk hfirst
      exact iff_of_false (fun he => not_ends_empty path ((ends_cons_of_some hk hset path).1 he))
        (not_ends_cons_of_none hget path)
    · exact ends_congr ((Nested.lookup_setItem ..).trans (if_neg hfirst))
  | some child => exact ⟨items, child, rfl, hget, h, h.child k child hk hget, fun _ => Iff.rfl⟩

/-- The loop over a word adds it to the words that end below the node. -/
theorem insertWord_spec (word : Word) :
    ∀ (rest q : Word) (t : Tree), word = q ++ rest → '#' ∉ rest → '$' ∉ rest → Holds q t →
      ∃ t', insertWord word t rest = some t' ∧ Holds q t' ∧ ∀ path, Ends t' path ↔ Ends t path ∨ path = rest
  | [], q, .dict items, hword, _, _, h => by
    obtain rfl : word = q := hword.trans (List.append_nil q)
    exact ⟨_, rfl, endWord_spec h⟩
  | k :: rest, q, .dict items, hword, hhash, hdollar, h => by
    rw [List.mem_cons, not_or] at hhash hdollar
    have hk : k ≠ '#' := Ne.symm hhash.1
    have hmark : k ≠ '$' := Ne.symm hdollar.1
    obtain ⟨items', child, hitems', hlookup, hholds, hchild, hends⟩ := addLetter_spec h hk hmark
    have hword' : word = (q ++ [k]) ++ rest := by rw [hword, List.append_assoc, List.singleton_append]
    obtain ⟨child', hinsert, hchild', hends'⟩ :=
      insertWord_spec word rest (q ++ [k]) child hword' hhash.2 hdollar.2 hchild
    refine ⟨.dict (Nested.setItem items' k child'), ?_, hholds.setItem hk hmark hchild', fun path => ?_⟩
    · simp only [insertWord, hitems', hlookup, Option.bind_some, hinsert, Option.map_some]
    · rw [← hends]
      by_cases hfirst : firstKey path = k
      · obtain ⟨path, rfl⟩ := firstKey_eq hk hfirst
        have hset : (Nested.setItem items' k child').lookup k = some child' := by
          rw [Nested.lookup_setItem, if_pos rfl]
        rw [ends_cons_of_some hk hset, ends_cons_of_some hk hlookup, hends', List.cons.injEq,
          and_iff_right rfl]
      · have hne : path ≠ k :: rest := fun he => hfirst (he ▸ rfl)
        rw [or_iff_left hne]
        exact ends_congr ((Nested.lookup_setItem ..).trans (if_neg hfirst))

theorem buildTrie_spec {words : List Word} (hwords : ∀ w ∈ words, '#' ∉ w ∧ '$' ∉ w) :
    ∃ root, buildTrie words = some root ∧ Holds [] root ∧ ∀ path, Ends root path ↔ path ∈ words := by
  have hall : ∀ (ws : List Word) (t : Tree), (∀ w ∈ ws, '#' ∉ w ∧ '$' ∉ w) → Holds [] t →
      ∃ root, ws.foldlM (fun root word => insertWord word root word) t = some root ∧ Holds [] root ∧
        ∀ path, Ends root path ↔ Ends t path ∨ path ∈ ws := by
    intro ws
    induction ws with
    | nil => exact fun t _ h => ⟨t, rfl, h, fun path => by simp⟩
    | cons w ws ih =>
      intro t hws h
      obtain ⟨hhash, hdollar⟩ := hws w List.mem_cons_self
      obtain ⟨t₁, h₁, hholds₁, hends₁⟩ := insertWord_spec w w [] t rfl hhash hdollar h
      obtain ⟨root, hroot, hholds, hends⟩ := ih t₁ (fun v hv => hws v (List.mem_cons_of_mem w hv)) hholds₁
      refine ⟨root, ?_, hholds, fun path => ?_⟩
      · rw [List.foldlM_cons, h₁]
        exact hroot
      · rw [hends, hends₁, List.mem_cons, or_assoc]
  obtain ⟨root, hroot, hholds, hends⟩ := hall words (.dict []) hwords (holds_empty [])
  exact ⟨root, hroot, hholds, fun path => (hends path).trans (or_iff_right (not_ends_empty path))⟩

/-! ## Taking words out of the trie -/

/-- From the node `t` at the prefix `q` the words were taken whose rest satisfies `S`, and `t'` is left. -/
structure Collects (q : Word) (t : Tree) (S : Word → Prop) (t' : Tree) (found : List Word) : Prop where
  holds : Holds q t'
  ends : ∀ path, Ends t' path ↔ Ends t path ∧ ¬ S path
  mem : ∀ w, w ∈ found ↔ ∃ path, w = q ++ path ∧ Ends t path ∧ S path
  nodup : found.Nodup

namespace Collects

variable {q : Word} {t t' t'' : Tree} {S T : Word → Prop} {found found' : List Word}

/-- Nothing is taken. -/
theorem nothing (h : Holds q t) (hS : ∀ path, Ends t path → ¬ S path) : Collects q t S t [] where
  holds := h
  ends path := ⟨fun he => ⟨he, hS path he⟩, And.left⟩
  mem _ := iff_of_false List.not_mem_nil fun ⟨path, _, he, hs⟩ => hS path he hs
  nodup := List.nodup_nil

theorem congr (h : Collects q t S t' found) (hST : ∀ path, S path ↔ T path) : Collects q t T t' found where
  holds := h.holds
  ends path := (h.ends path).trans (and_congr Iff.rfl (not_congr (hST path)))
  mem w := (h.mem w).trans (exists_congr fun path => and_congr Iff.rfl (and_congr Iff.rfl (hST path)))
  nodup := h.nodup

theorem trans (h : Collects q t S t' found) (h' : Collects q t' T t'' found') :
    Collects q t (fun path => S path ∨ T path) t'' (found ++ found') where
  holds := h'.holds
  ends path := by rw [h'.ends, h.ends, not_or, and_assoc]
  mem w := by
    rw [List.mem_append, h.mem, h'.mem]
    constructor
    · rintro (⟨path, hw, he, hs⟩ | ⟨path, hw, he, hs⟩)
      · exact ⟨path, hw, he, Or.inl hs⟩
      · exact ⟨path, hw, ((h.ends path).1 he).1, Or.inr hs⟩
    · rintro ⟨path, hw, he, hs⟩
      by_cases hS : S path
      · exact Or.inl ⟨path, hw, he, hS⟩
      · exact Or.inr ⟨path, hw, (h.ends path).2 ⟨he, hS⟩, hs.resolve_left hS⟩
  nodup := by
    refine List.nodup_append.2 ⟨h.nodup, h'.nodup, fun w hw w' hw' heq => ?_⟩
    subst heq
    obtain ⟨path, rfl, -, hs⟩ := (h.mem w).1 hw
    obtain ⟨path', hpath, he, -⟩ := (h'.mem _).1 hw'
    obtain rfl := List.append_cancel_left hpath
    exact ((h.ends path).1 he).2 hs

end Collects

/-- The word of the node itself. -/
theorem popWord_collects {q : Word} {t : Tree} (h : Holds q t) (res : List Word) :
    ∃ t' found, popWord t res = some (t', res ++ found) ∧ Collects q t (fun path => path = []) t' found := by
  obtain ⟨items, rfl⟩ := h.isDict
  cases hget : items.lookup '#' with
  | none =>
    refine ⟨.dict items, [], by simp only [popWord, hget, List.append_nil], .nothing h fun path he hpath => ?_⟩
    rw [hpath] at he
    have hsome : (items.lookup '#').isSome := he
    rw [hget] at hsome
    exact Bool.false_ne_true hsome
  | some v =>
    obtain rfl := h.word v hget
    refine ⟨.dict (Nested.eraseItem items '#'), [q], by simp only [popWord, hget], h.eraseItem '#', fun path => ?_,
      fun w => ?_, List.nodup_singleton q⟩
    · by_cases hpath : path = []
      · subst hpath
        refine iff_of_false (fun he => ?_) fun he => he.2 rfl
        have hsome : ((Nested.eraseItem items '#').lookup '#').isSome := he
        rw [Nested.lookup_eraseItem, if_pos rfl] at hsome
        exact Bool.false_ne_true hsome
      · rw [and_iff_left hpath]
        obtain ⟨k, path, rfl⟩ := List.exists_cons_of_ne_nil hpath
        by_cases hk : k = '#'
        · exact iff_of_false (fun he => he.1 hk) fun he => he.1 hk
        · exact ends_congr ((Nested.lookup_eraseItem ..).trans (if_neg hk))
    · rw [List.mem_singleton]
      constructor
      · rintro rfl
        refine ⟨[], (List.append_nil _).symm, ?_, rfl⟩
        show (items.lookup '#').isSome
        rw [hget]
        rfl
      · rintro ⟨_, rfl, -, rfl⟩
        exact List.append_nil q

/-- The child is what is left of it, or it is gone if that is nothing. -/
theorem putBack_spec {q : Word} {items : List (Char × Tree)} {k : Char} {trie : Tree} (hholds : Holds q (.dict items))
    (hk : k ≠ '#') (hmark : k ≠ '$') (htrie : Holds (q ++ [k]) trie) :
    ∃ items', putBack (.dict items) k trie = .dict items' ∧ Holds q (.dict items') ∧
      (∀ k', k' ≠ k → items'.lookup k' = items.lookup k') ∧
      ∀ path, Ends (.dict items') (k :: path) ↔ Ends trie path := by
  have hset : ∃ items', Nested.dict (Nested.setItem items k trie) = .dict items' ∧ Holds q (.dict items') ∧
      (∀ k', k' ≠ k → items'.lookup k' = items.lookup k') ∧
      ∀ path, Ends (.dict items') (k :: path) ↔ Ends trie path :=
    ⟨_, rfl, hholds.setItem hk hmark htrie, fun k' hk' => (Nested.lookup_setItem ..).trans (if_neg hk'),
      ends_cons_of_some hk ((Nested.lookup_setItem ..).trans (if_pos rfl))⟩
  obtain ⟨children, rfl⟩ := htrie.isDict
  cases children with
  | cons => exact hset
  | nil =>
    refine ⟨_, rfl, hholds.eraseItem k, fun k' hk' => (Nested.lookup_eraseItem ..).trans (if_neg hk'), fun path => ?_⟩
    have hnone : (Nested.eraseItem items k).lookup k = none := (Nested.lookup_eraseItem ..).trans (if_pos rfl)
    exact iff_of_false (not_ends_cons_of_none hnone path) (not_ends_empty path)

/-- What was taken from a child was taken from the node. -/
theorem Collects.putBack {q : Word} {items : List (Char × Tree)} {k : Char} {trie trie' : Tree} {S : Word → Prop}
    {found : List Word} (hholds : Holds q (.dict items)) (hk : k ≠ '#') (hmark : k ≠ '$')
    (hget : items.lookup k = some trie) (h : Collects (q ++ [k]) trie S trie' found) :
    Collects q (.dict items) (fun path => ∃ rest, path = k :: rest ∧ S rest) (putBack (.dict items) k trie') found := by
  obtain ⟨items', hput, hholds', hother, hends⟩ := putBack_spec hholds hk hmark h.holds
  rw [hput]
  refine ⟨hholds', fun path => ?_, fun w => ?_, h.nodup⟩
  · by_cases hfirst : firstKey path = k
    · obtain ⟨rest, rfl⟩ := firstKey_eq hk hfirst
      have hS : (∃ rest', k :: rest = k :: rest' ∧ S rest') ↔ S rest :=
        ⟨fun ⟨rest', heq, hs⟩ => (List.cons.inj heq).2 ▸ hs, fun hs => ⟨rest, rfl, hs⟩⟩
      rw [hends, ends_cons_of_some hk hget, hS, h.ends]
    · have hS : ¬ ∃ rest, path = k :: rest ∧ S rest := fun ⟨rest, heq, _⟩ => hfirst (heq ▸ rfl)
      rw [and_iff_left hS]
      exact ends_congr (hother _ hfirst)
  · rw [h.mem]
    constructor
    · rintro ⟨rest, rfl, he, hs⟩
      exact ⟨k :: rest, by rw [List.append_assoc]; rfl, (ends_cons_of_some hk hget rest).2 he, rest, rfl, hs⟩
    · rintro ⟨_, rfl, he, rest, rfl, hs⟩
      exact ⟨rest, by rw [List.append_assoc]; rfl, (ends_cons_of_some hk hget rest).1 he, hs⟩

/-! ## The search -/

/-- The board while the search is under way. -/
def Marked (base : Board m n) (visited : Finset (Pos m n)) (board : Board m n) : Prop :=
  ∀ p, board.get p = if p ∈ visited then '$' else base.get p

theorem Marked.set {base board : Board m n} {visited : Finset (Pos m n)} (h : Marked base visited board) (p : Pos m n) :
    Marked base (insert p visited) (board.set p '$') := by
  intro x
  rw [Grid.get_set, h x]
  by_cases hx : x = p
  · rw [if_pos hx, if_pos (Finset.mem_insert.2 (Or.inl hx))]
  · rw [if_neg hx]
    simp only [Finset.mem_insert, hx, false_or]

/-- The words that can be read from the cell with these coordinates. -/
def ReadAt (base : Board m n) (visited : Finset (Pos m n)) (i j : ℤ) (path : Word) : Prop :=
  ∃ p, cell? (m + 1) (n + 1) i j = some p ∧ Trail base visited p path

theorem readAt_iff {base : Board m n} {visited : Finset (Pos m n)} {i j : ℤ} {p : Pos m n}
    (hcell : cell? (m + 1) (n + 1) i j = some p) {path : Word} :
    ReadAt base visited i j path ↔ ∃ rest, path = base.get p :: rest ∧ p ∉ visited ∧
      (rest = [] ∨ ∃ d ∈ direct, ReadAt base (insert p visited) (d.1 + i) (d.2 + j) rest) := by
  have hnext : ∀ rest, (∃ d ∈ direct, ReadAt base (insert p visited) (d.1 + i) (d.2 + j) rest) ↔
      ∃ q, SharesSide p q ∧ Trail base (insert p visited) q rest := fun rest => by
    have hperm : direct.Perm [(-1, 0), (1, 0), (0, -1), (0, 1)] := by decide
    rw [← exists_direction_iff hperm hcell]
    simp only [ReadAt, Int.add_comm]
  simp only [hnext, ← trail_iff]
  exact ⟨fun ⟨p', hp', htrail⟩ => Option.some.inj (hp'.symm.trans hcell) ▸ htrail, fun htrail => ⟨p, hcell, htrail⟩⟩

/-- Calls for several pairs of coordinates, if a call takes out what it is to take out. -/
theorem calls_return {α : Type*} (x y : α → ℤ) (l : List α) {base board : Board m n} {visited : Finset (Pos m n)}
    {q : Word} (hdfs : ∀ node res i j, Holds q node → ∃ node' found,
      Returns (fun fuel => dfs fuel i j ⟨board, node, res⟩) ⟨board, node', res ++ found⟩ ∧
        Collects q node (ReadAt base visited i j) node' found) {node : Tree} (hnode : Holds q node) (res : List Word) :
    ∃ node' found,
      Returns (fun fuel => l.foldlM (fun s d => dfs fuel (x d) (y d) s) ⟨board, node, res⟩)
        ⟨board, node', res ++ found⟩ ∧
      Collects q node (fun path => ∃ d ∈ l, ReadAt base visited (x d) (y d) path) node' found := by
  have hstep : ∀ (pre : List α) (d : α) (s : State m n),
      (∃ node' found, s = ⟨board, node', res ++ found⟩ ∧
        Collects q node (fun path => ∃ e ∈ pre, ReadAt base visited (x e) (y e) path) node' found) →
      ∃ s', Returns (fun fuel => dfs fuel (x d) (y d) s) s' ∧ ∃ node' found, s' = ⟨board, node', res ++ found⟩ ∧
        Collects q node (fun path => ∃ e ∈ pre ++ [d], ReadAt base visited (x e) (y e) path) node' found := by
    rintro pre d s ⟨node₁, found₁, rfl, hcollects₁⟩
    obtain ⟨node₂, found₂, hret, hcollects₂⟩ := hdfs node₁ (res ++ found₁) (x d) (y d) hcollects₁.holds
    exact ⟨_, hret, node₂, found₁ ++ found₂, by rw [List.append_assoc],
      (hcollects₁.trans hcollects₂).congr fun path => exists_mem_concat.symm⟩
  obtain ⟨s, hret, node', found, rfl, hcollects⟩ := Returns.foldlM hstep l [] (s := ⟨board, node, res⟩)
    ⟨node, [], by rw [List.append_nil], .nothing hnode fun _ _ ⟨_, he, _⟩ => List.not_mem_nil he⟩
  exact ⟨node', found, hret, hcollects⟩

/-- A call that goes on from a cell with a letter of the trie, if the calls for its neighbours take out what they are to
take out. -/
theorem dfs_goes_on {base : Board m n} (hbase : ∀ p, base.get p ≠ '#') {visited : Finset (Pos m n)} {board : Board m n}
    (hmarked : Marked base visited board) {q : Word} {node trie : Tree} (hnode : Holds q node) (res : List Word)
    {i j : ℤ} {p : Pos m n} (hcell : cell? (m + 1) (n + 1) i j = some p) (hget : node.get? (board.get p) = some trie)
    (hnext : p ∉ visited → ∀ {q : Word} node res i j, Holds q node → ∃ node' found,
      Returns (fun fuel => dfs fuel i j ⟨board.set p '$', node, res⟩) ⟨board.set p '$', node', res ++ found⟩ ∧
        Collects q node (ReadAt base (insert p visited) i j) node' found) :
    ∃ node' found, Returns (fun fuel => dfs fuel i j ⟨board, node, res⟩) ⟨board, node', res ++ found⟩ ∧
      Collects q node (ReadAt base visited i j) node' found := by
  obtain ⟨items, rfl⟩ := hnode.isDict
  have hmark : board.get p ≠ '$' := fun he => by
    rw [Nested.get?_dict, he, hnode.mark] at hget
    cases hget
  have hfree : p ∉ visited := fun hp => hmark ((hmarked p).trans (if_pos hp))
  have hletter : board.get p = base.get p := (hmarked p).trans (if_neg hfree)
  have hhash : board.get p ≠ '#' := hletter ▸ hbase p
  obtain ⟨trie₁, found₁, hpop, hcollects₁⟩ := popWord_collects (hnode.child _ trie hhash hget) res
  obtain ⟨trie₂, found₂, hret, hcollects₂⟩ := calls_return (fun d => d.1 + i) (fun d => d.2 + j) direct
    (hnext hfree) hcollects₁.holds (res ++ found₁)
  have hend : (⟨(board.set p '$').set p (board.get p), putBack (.dict items) (board.get p) trie₂,
      res ++ found₁ ++ found₂⟩ : State m n) =
      ⟨board, putBack (.dict items) (board.get p) trie₂, res ++ (found₁ ++ found₂)⟩ := by
    rw [Grid.set_get_self, List.append_assoc]
  have hback := hret.map fun t : State m n =>
    (⟨t.board.set p (board.get p), putBack (.dict items) (board.get p) t.node, t.res⟩ : State m n)
  refine ⟨_, found₁ ++ found₂, Returns.call (fun fuel => ?_) (hend ▸ hback), ?_⟩
  · simp only [dfs, hcell, hget, hpop, Option.bind_some]
  · refine ((hcollects₁.trans hcollects₂).putBack hnode hhash hmark hget).congr fun path => ?_
    rw [readAt_iff hcell, hletter]
    simp only [hfree, not_false_eq_true, true_and]

/-- A call takes the words out of the trie that can be read from its cell, and leaves the board as it was. The
induction is on the number of cells that are not marked. -/
theorem dfs_returns {base : Board m n} (hbase : ∀ p, base.get p ≠ '#') {visited : Finset (Pos m n)} {board : Board m n}
    (hmarked : Marked base visited board) {q : Word} {node : Tree} (hnode : Holds q node) (res : List Word) (i j : ℤ) :
    ∃ node' found, Returns (fun fuel => dfs fuel i j ⟨board, node, res⟩) ⟨board, node', res ++ found⟩ ∧
      Collects q node (ReadAt base visited i j) node' found := by
  induction hk : visitedᶜ.card using Nat.strong_induction_on generalizing visited board q node res i j with
  | _ k ih =>
    have hstay : ∀ (hS : ∀ path, Ends node path → ¬ ReadAt base visited i j path),
        (∀ fuel, dfs (fuel + 1) i j ⟨board, node, res⟩ = some ⟨board, node, res⟩) → ∃ node' found,
          Returns (fun fuel => dfs fuel i j ⟨board, node, res⟩) ⟨board, node', res ++ found⟩ ∧
            Collects q node (ReadAt base visited i j) node' found := fun hS hdfs =>
      ⟨node, [], by rw [List.append_nil]; exact Returns.call hdfs (Returns.pure _), .nothing hnode hS⟩
    cases hcell : cell? (m + 1) (n + 1) i j with
    | none =>
      refine hstay (fun path _ hread => ?_) fun fuel => by simp only [dfs, hcell]
      obtain ⟨p, hp, -⟩ := hread
      rw [hcell] at hp
      cases hp
    | some p =>
      cases hget : node.get? (board.get p) with
      | none =>
        refine hstay (fun path he hread => ?_) fun fuel => by simp only [dfs, hcell, hget]
        obtain ⟨p', hp', htrail⟩ := hread
        obtain rfl : p = p' := Option.some.inj (hcell.symm.trans hp')
        obtain ⟨rest, rfl, hfree, -⟩ := trail_iff.1 htrail
        obtain ⟨-, child, hchild, -⟩ := he
        rw [hmarked p, if_neg hfree, hchild] at hget
        cases hget
      | some trie =>
        refine dfs_goes_on hbase hmarked hnode res hcell hget fun hfree {_} node res i j hnode => ?_
        have hlt : (insert p visited)ᶜ.card < k := by
          rw [← hk, Finset.compl_insert]
          exact Finset.card_erase_lt_of_mem (Finset.mem_compl.2 hfree)
        exact ih _ hlt (hmarked.set p) hnode res i j rfl

/-- The second solution returns every word that can be read on the board once, and leaves the board as it was. -/
theorem findWords_returns {board : Board m n} (hboard : ∀ p, board.get p ≠ '#') {words : List Word}
    (hwords : ∀ w ∈ words, w ≠ [] ∧ '#' ∉ w ∧ '$' ∉ w) :
    ∃ res, Returns (fun fuel => findWords fuel board words) (board, res) ∧ res.Nodup ∧
      ∀ w, w ∈ res ↔ w ∈ words ∧ Spelled board w := by
  obtain ⟨root, hroot, hholds, hends⟩ := buildTrie_spec fun w hw => (hwords w hw).2
  have hmarked : Marked board ∅ board := fun p => (if_neg (Finset.notMem_empty p)).symm
  obtain ⟨node, found, hret, hcollects⟩ := calls_return (fun p : Pos m n => (p.1 : ℤ)) (fun p => (p.2 : ℤ))
    (cells (m + 1) (n + 1)) (fun node res i j hnode => dfs_returns hboard hmarked hnode res i j) hholds []
  refine ⟨found, ?_, hcollects.nodup, fun w => ?_⟩
  · simp only [findWords, hroot, Option.bind_some]
    exact hret.map fun s => (s.board, s.res)
  · have hread : (∃ p ∈ cells (m + 1) (n + 1), ReadAt board ∅ p.1 p.2 w) ↔ ∃ p, Trail board ∅ p w := by
      constructor
      · rintro ⟨_, -, p, -, htrail⟩
        exact ⟨p, htrail⟩
      · rintro ⟨p, htrail⟩
        exact ⟨p, mem_cells p, p, cell?_eq_some.2 ⟨rfl, rfl⟩, htrail⟩
    rw [hcollects.mem]
    constructor
    · rintro ⟨_, rfl, he, hp⟩
      have hw := (hends _).1 he
      exact ⟨hw, (spelled_iff (hwords _ hw).1).2 (hread.1 hp)⟩
    · rintro ⟨hw, hspelled⟩
      exact ⟨w, rfl, (hends w).2 hw, hread.2 ((spelled_iff (hwords w hw).1).1 hspelled)⟩

end GoodGoodStudy.LeetCode.WordSearch.Solution2

namespace GoodGoodStudy.LeetCode.WordSearch

open GoodGoodStudy.Lib

variable {m n : ℕ}

/-- On every board and for all words without the two marks, the second solution returns each word that can be read
along different cells that share sides exactly once, and no other, leaves the board as it was, and the first one
returns the same words. -/
theorem findWords_exact (board : Board m n) (words : List Word) (hboard : ∀ p, board.get p ≠ '#' ∧ board.get p ≠ '$')
    (hwords : ∀ w ∈ words, w ≠ [] ∧ '#' ∉ w ∧ '$' ∉ w) :
    ∃ res res', Returns (fun fuel => Solution2.findWords fuel board words) (board, res) ∧ res.Nodup ∧
      (∀ w, w ∈ res ↔ w ∈ words ∧ Spelled board w) ∧
      Returns (fun fuel => Solution.findWords fuel board words) res' ∧ ∀ w, w ∈ res' ↔ w ∈ res := by
  obtain ⟨res, hret, hnodup, hres⟩ := Solution2.findWords_returns (fun p => (hboard p).1) hwords
  obtain ⟨res', hret', hres'⟩ := Solution.findWords_returns board fun w hw => (hwords w hw).1
  exact ⟨res, res', hret, hnodup, hres, hret', fun w => (hres' w).trans (hres w).symm⟩

/-- A board and words that it has and has not. -/
def square : Board 1 1 := ⟨#v[#v['o', 'a'], #v['t', 'h']]⟩

def someWords : List Word := [['o', 'a', 'h'], ['o', 't', 'o']]

theorem findWords_exact_square :
    ((∀ p, square.get p ≠ '#' ∧ square.get p ≠ '$') ∧ ∀ w ∈ someWords, w ≠ [] ∧ '#' ∉ w ∧ '$' ∉ w) ∧
    ∃ res res', Returns (fun fuel => Solution2.findWords fuel square someWords) (square, res) ∧ res.Nodup ∧
      (∀ w, w ∈ res ↔ w ∈ someWords ∧ Spelled square w) ∧
      Returns (fun fuel => Solution.findWords fuel square someWords) res' ∧ ∀ w, w ∈ res' ↔ w ∈ res :=
  have hsquare : ∀ p, square.get p ≠ '#' ∧ square.get p ≠ '$' := by decide
  have hwords : ∀ w ∈ someWords, w ≠ [] ∧ '#' ∉ w ∧ '$' ∉ w := by decide
  ⟨⟨hsquare, hwords⟩, findWords_exact square someWords hsquare hwords⟩

end GoodGoodStudy.LeetCode.WordSearch
