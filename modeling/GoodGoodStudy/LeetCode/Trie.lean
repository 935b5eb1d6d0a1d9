/-
The two tries of exercise 208, nested dictionaries with a mark for the end of a word. Over words without the marks both
are sets of words: `search` finds the words that were inserted, `startsWith` their prefixes, whatever the order in
which they came.
-/
import GoodGoodStudy.Lib.Nested

namespace GoodGoodStudy.LeetCode

open GoodGoodStudy.Lib

abbrev Text := List Char

/-- A dictionary, or the text that marks the end of a word. -/
abbrev Tree := Nested Char Text

/-! ## The functions

`none` is an exception, which a text raises that is treated as a dictionary. -/

/-- `a in tree`; for a text, whether it has the character. -/
def contains (tree : Tree) (a : Char) : Bool :=
  match tree with
  | .dict items => (items.lookup a).isSome
  | .leaf text => text.contains a

/-- `search` with the mark of the class. -/
def searchMark (mark : Char) : Tree → Text → Option Bool
  | tree, [] => some (contains tree mark)
  | tree, a :: word =>
    if contains tree a then (tree.get? a).bind fun child => searchMark mark child word else some false

/-- `startsWith`, which is the same in both classes. -/
def startsWith : Tree → Text → Option Bool
  | _, [] => some true
  | tree, a :: word => if contains tree a then (tree.get? a).bind fun child => startsWith child word else some false

/-- The words inserted one after the other. -/
def insertAll (insert : Tree → Text → Option Tree) (words : List Text) : Option Tree :=
  words.foldlM insert (.dict [])

namespace Trie

/-- `insert`, which goes down with `setdefault`. -/
def insert : Tree → Text → Option Tree
  | .dict items, [] => some (.dict (Nested.setItem items '#' (.leaf ['#'])))
  | .dict items, a :: word =>
    (insert ((items.lookup a).getD (.dict [])) word).map fun child => .dict (Nested.setItem items a child)
  | .leaf _, _ => none

def search : Tree → Text → Option Bool := searchMark '#'

end Trie

namespace Trie2

/-- `insert`, which puts a dictionary where there is none before it goes down. -/
def insert : Tree → Text → Option Tree
  | .dict items, [] => some (.dict (Nested.setItem items '$' (.leaf ['$'])))
  | .dict items, a :: word =>
    let items := if (items.lookup a).isNone then Nested.setItem items a (.dict []) else items
    (items.lookup a).bind fun child => (insert child word).map fun child => .dict (Nested.setItem items a child)
  | .leaf _, _ => none

def search : Tree → Text → Option Bool := searchMark '$'

end Trie2

/-! ## What the paths of a tree say -/

/-- Paths without the mark lead to dictionaries. -/
def Branches (mark : Char) (tree : Tree) : Prop :=
  ∀ path, mark ∉ path → ∀ v, tree.walk path = some v → ∃ items, v = .dict items

/-- The tree after an insertion: the paths along the word are there, and the word has its mark. -/
structure Inserted (mark : Char) (tree : Tree) (word : Text) (tree' : Tree) : Prop where
  branches : Branches mark tree'
  paths : ∀ path, mark ∉ path → ((tree'.walk path).isSome ↔ (tree.walk path).isSome ∨ path <+: word)
  ends : ∀ path, mark ∉ path →
    ((tree'.walk (path ++ [mark])).isSome ↔ (tree.walk (path ++ [mark])).isSome ∨ path = word)

variable {mark : Char}

theorem Branches.dict {tree : Tree} (h : Branches mark tree) : ∃ items, tree = .dict items :=
  h [] List.not_mem_nil tree (Nested.walk_nil tree)

theorem branches_empty : Branches mark (.dict []) := by
  intro path _ v hv
  by_cases hpath : path = []
  · subst hpath
    rw [Nested.walk_nil] at hv
    exact ⟨[], (Option.some.inj hv).symm⟩
  · rw [Nested.walk_empty hpath] at hv
    cases hv

/-- What is under another key than the mark. -/
theorem Branches.child {tree child : Tree} (h : Branches mark tree) {a : Char} (ha : a ≠ mark)
    (hchild : tree.get? a = some child) : Branches mark child := by
  intro path hpath v hv
  refine h (a :: path) ?_ v ((Nested.walk_cons_of_get hchild path).trans hv)
  rw [List.mem_cons, not_or]
  exact ⟨ha.symm, hpath⟩

/-- The mark at the end of a word. -/
theorem inserted_mark {items : List (Char × Tree)} (h : Branches mark (.dict items)) (text : Text) :
    Inserted mark (.dict items) [] (.dict (Nested.setItem items mark (.leaf text))) := by
  have hother : ∀ k path, k ≠ mark →
      (Nested.dict (Nested.setItem items mark (.leaf text))).walk (k :: path) = (Nested.dict items).walk (k :: path) :=
    fun k path hk => (Nested.walk_setItem items mark k _ path).trans (if_neg hk)
  constructor
  · intro path hpath v hv
    cases path with
    | nil => exact ⟨_, (Option.some.inj hv).symm⟩
    | cons k path =>
      rw [List.mem_cons, not_or] at hpath
      rw [hother k path (Ne.symm hpath.1)] at hv
      exact h (k :: path) (by rw [List.mem_cons, not_or]; exact hpath) v hv
  · intro path hpath
    cases path with
    | nil => simp
    | cons k path =>
      rw [List.mem_cons, not_or] at hpath
      rw [hother k path (Ne.symm hpath.1)]
      simp
  · intro path hpath
    cases path with
    | nil => simp [Nested.walk_setItem]
    | cons k path =>
      rw [List.mem_cons, not_or] at hpath
      rw [List.cons_append, hother k _ (Ne.symm hpath.1)]
      simp

/-- A child that was not there has no path but the empty one. -/
theorem walk_child (items : List (Char × Tree)) (a : Char) (path : Text) :
    (((items.lookup a).getD (.dict [])).walk path).isSome ↔
      ((Nested.dict items).walk (a :: path)).isSome ∨ (items.lookup a = none ∧ path = []) := by
  rcases hget : items.lookup a with _ | child
  · rw [Nested.walk_cons_of_none (by rwa [Nested.get?_dict])]
    by_cases hpath : path = []
    · simp [hpath]
    · simp [Nested.walk_empty hpath, hpath]
  · have hchild : (Nested.dict items).get? a = some child := by rwa [Nested.get?_dict]
    rw [Nested.walk_cons_of_get hchild]
    simp

/-- One step down: the child is the old one, or new and empty. -/
theorem inserted_cons {items : List (Char × Tree)} (h : Branches mark (.dict items)) {a : Char} (ha : a ≠ mark)
    {word : Text} {child' : Tree} (hchild : Inserted mark ((items.lookup a).getD (.dict [])) word child') :
    Inserted mark (.dict items) (a :: word) (.dict (Nested.setItem items a child')) := by
  have hwalk : ∀ k path, (Nested.dict (Nested.setItem items a child')).walk (k :: path) =
      if k = a then child'.walk path else (Nested.dict items).walk (k :: path) :=
    fun k path => Nested.walk_setItem items a k child' path
  have hold := walk_child items a
  constructor
  · intro path hpath v hv
    cases path with
    | nil => exact ⟨_, (Option.some.inj hv).symm⟩
    | cons k path =>
      rw [hwalk] at hv
      split_ifs at hv with hk
      · exact hchild.branches path (fun hm => hpath (List.mem_cons_of_mem k hm)) v hv
      · exact h (k :: path) hpath v hv
  · intro path hpath
    cases path with
    | nil => simp
    | cons k path =>
      rw [hwalk]
      by_cases hk : k = a
      · subst hk
        rw [if_pos rfl, hchild.paths path (fun hm => hpath (List.mem_cons_of_mem k hm)), hold, or_assoc,
          List.cons_prefix_cons, and_iff_right rfl]
        refine or_congr_right ⟨?_, Or.inr⟩
        rintro (⟨-, rfl⟩ | hpre)
        · exact List.nil_prefix
        · exact hpre
      · rw [if_neg hk, List.cons_prefix_cons]
        simp [hk]
  · intro path hpath
    cases path with
    | nil =>
      rw [List.nil_append, hwalk, if_neg (Ne.symm ha)]
      simp
    | cons k path =>
      rw [List.cons_append, hwalk]
      by_cases hk : k = a
      · subst hk
        rw [if_pos rfl, hchild.ends path (fun hm => hpath (List.mem_cons_of_mem k hm)), hold]
        simp
      · rw [if_neg hk]
        simp [hk]

/-- An insertion that goes down to the end of the word and sets the mark there. -/
theorem insert_inserted {insert : Tree → Text → Option Tree} {text : Text}
    (hnil : ∀ items, insert (.dict items) [] = some (.dict (Nested.setItem items mark (.leaf text))))
    (hcons : ∀ items a word, insert (.dict items) (a :: word) =
      (insert ((items.lookup a).getD (.dict [])) word).map fun child => .dict (Nested.setItem items a child))
    {tree : Tree} (h : Branches mark tree) {word : Text} (hword : mark ∉ word) :
    ∃ tree', insert tree word = some tree' ∧ Inserted mark tree word tree' := by
  induction word generalizing tree with
  | nil =>
    obtain ⟨items, rfl⟩ := h.dict
    exact ⟨_, hnil items, inserted_mark h text⟩
  | cons a word ih =>
    obtain ⟨items, rfl⟩ := h.dict
    rw [List.mem_cons, not_or] at hword
    have hchild : Branches mark ((items.lookup a).getD (.dict [])) := by
      rcases hget : items.lookup a with _ | child
      · exact branches_empty
      · exact h.child (Ne.symm hword.1) hget
    obtain ⟨child', hins, hspec⟩ := ih hchild hword.2
    refine ⟨_, ?_, inserted_cons h (Ne.symm hword.1) hspec⟩
    rw [hcons, hins, Option.map_some]

theorem Trie.insert_spec {tree : Tree} (h : Branches '#' tree) {word : Text} (hword : '#' ∉ word) :
    ∃ tree', Trie.insert tree word = some tree' ∧ Inserted '#' tree word tree' :=
  insert_inserted (fun _ => by rw [Trie.insert]) (fun _ _ _ => by rw [Trie.insert]) h hword

/-- The other way down comes to the same. -/
theorem Trie2.insert_cons (items : List (Char × Tree)) (a : Char) (word : Text) :
    Trie2.insert (.dict items) (a :: word) =
      (Trie2.insert ((items.lookup a).getD (.dict [])) word).map fun child => .dict (Nested.setItem items a child) := by
  rw [Trie2.insert]
  rcases hget : items.lookup a with _ | child
  · have hnew : (Nested.setItem items a (Nested.dict [] : Tree)).lookup a = some (.dict []) := by
      rw [Nested.lookup_setItem, if_pos rfl]
    simp only [Option.isNone_none, ↓reduceIte, hnew, Option.bind_some, Option.getD_none]
    exact congrArg (Option.map · _) (funext fun child => congrArg Nested.dict (Nested.setItem_setItem hget _ _))
  · simp [hget]

theorem Trie2.insert_spec {tree : Tree} (h : Branches '$' tree) {word : Text} (hword : '$' ∉ word) :
    ∃ tree', Trie2.insert tree word = some tree' ∧ Inserted '$' tree word tree' :=
  insert_inserted (fun _ => by rw [Trie2.insert]) Trie2.insert_cons h hword

/-! ## Sequences of insertions -/

/-- The tree of some words. -/
structure Stores (mark : Char) (words : List Text) (tree : Tree) : Prop where
  branches : Branches mark tree
  paths : ∀ path, path ≠ [] → mark ∉ path → ((tree.walk path).isSome ↔ ∃ word ∈ words, path <+: word)
  ends : ∀ path, mark ∉ path → ((tree.walk (path ++ [mark])).isSome ↔ path ∈ words)

theorem stores_empty : Stores mark [] (.dict []) where
  branches := branches_empty
  paths path hpath _ := by simp [Nested.walk_empty hpath]
  ends path _ := by simp [Nested.walk_empty (List.append_ne_nil_of_right_ne_nil path (List.cons_ne_nil mark []))]

theorem Stores.insert {words : List Text} {tree tree' : Tree} {word : Text} (h : Stores mark words tree)
    (hins : Inserted mark tree word tree') : Stores mark (words ++ [word]) tree' where
  branches := hins.branches
  paths path hne hpath := by
    rw [hins.paths path hpath, h.paths path hne hpath]
    simp [or_and_right, exists_or]
  ends path hpath := by
    rw [hins.ends path hpath, h.ends path hpath]
    simp

/-- Over words without the mark no insertion raises. -/
theorem insertAll_stores {insert : Tree → Text → Option Tree}
    (hinsert : ∀ tree word, Branches mark tree → mark ∉ word →
      ∃ tree', insert tree word = some tree' ∧ Inserted mark tree word tree')
    {words : List Text} (h : ∀ word ∈ words, mark ∉ word) :
    ∃ tree, insertAll insert words = some tree ∧ Stores mark words tree := by
  have hrun : ∀ (rest done : List Text) (tree : Tree), (∀ word ∈ rest, mark ∉ word) → Stores mark done tree →
      ∃ tree', rest.foldlM insert tree = some tree' ∧ Stores mark (done ++ rest) tree' := by
    intro rest
    induction rest with
    | nil => exact fun done tree _ hs => ⟨tree, rfl, by rwa [List.append_nil]⟩
    | cons word rest ih =>
      intro done tree hrest hs
      rw [List.forall_mem_cons] at hrest
      obtain ⟨tree', hins, hspec⟩ := hinsert tree word hs.branches hrest.1
      obtain ⟨tree'', hfold, hs''⟩ := ih (done ++ [word]) tree' hrest.2 (hs.insert hspec)
      refine ⟨tree'', ?_, ?_⟩
      · rw [List.foldlM_cons, hins]
        exact hfold
      · rwa [List.append_assoc, List.singleton_append] at hs''
  exact hrun words [] _ h stores_empty

/-! ## Queries -/

theorem contains_dict (items : List (Char × Tree)) (a : Char) :
    contains (.dict items) a = ((Nested.dict items).get? a).isSome := rfl

theorem searchMark_eq {tree : Tree} (h : Branches mark tree) {word : Text} (hword : mark ∉ word) :
    searchMark mark tree word = some (tree.walk (word ++ [mark])).isSome := by
  induction word generalizing tree with
  | nil =>
    obtain ⟨items, rfl⟩ := h.dict
    rw [searchMark, contains_dict, List.nil_append, Nested.walk_cons]
    cases (Nested.dict items).get? mark <;> simp
  | cons a word ih =>
    obtain ⟨items, rfl⟩ := h.dict
    rw [List.mem_cons, not_or] at hword
    rw [searchMark, contains_dict, List.cons_append, Nested.walk_cons]
    rcases hget : (Nested.dict items).get? a with _ | child
    · simp
    · simpa using ih (h.child (Ne.symm hword.1) hget) hword.2

theorem startsWith_eq {tree : Tree} (h : Branches mark tree) {word : Text} (hword : mark ∉ word) :
    startsWith tree word = some (tree.walk word).isSome := by
  induction word generalizing tree with
  | nil => simp [startsWith]
  | cons a word ih =>
    obtain ⟨items, rfl⟩ := h.dict
    rw [List.mem_cons, not_or] at hword
    rw [startsWith, contains_dict, Nested.walk_cons]
    rcases hget : (Nested.dict items).get? a with _ | child
    · simp
    · simpa using ih (h.child (Ne.symm hword.1) hget) hword.2

/-- The answers of the tree of some words. -/
theorem Stores.answers {words : List Text} {tree : Tree} (h : Stores mark words tree) {query : Text}
    (hquery : mark ∉ query) :
    searchMark mark tree query = some (decide (query ∈ words)) ∧
      startsWith tree query = some (decide (query = [] ∨ ∃ word ∈ words, query <+: word)) := by
  rw [searchMark_eq h.branches hquery, startsWith_eq h.branches hquery]
  refine ⟨congrArg some (Bool.eq_iff_iff.2 ?_), congrArg some (Bool.eq_iff_iff.2 ?_)⟩
  · rw [decide_eq_true_iff]
    exact h.ends query hquery
  · rw [decide_eq_true_iff]
    by_cases hne : query = []
    · simp [hne]
    · rw [h.paths query hne hquery]
      simp [hne]

/-- A text without the two marks. -/
@[ext] structure Word where
  text : Text
  noHash : '#' ∉ text
  noDollar : '$' ∉ text

theorem mem_map_text (words : List Word) (query : Word) : query.text ∈ words.map Word.text ↔ query ∈ words :=
  List.mem_map_of_injective fun _ _ => Word.ext

theorem Trie.insertAll_words (words : List Word) :
    ∃ tree, insertAll Trie.insert (words.map Word.text) = some tree ∧ Stores '#' (words.map Word.text) tree := by
  refine insertAll_stores (fun _ _ h hw => Trie.insert_spec h hw) fun word hword => ?_
  obtain ⟨w, -, rfl⟩ := List.mem_map.1 hword
  exact w.noHash

theorem Trie2.insertAll_words (words : List Word) :
    ∃ tree, insertAll Trie2.insert (words.map Word.text) = some tree ∧ Stores '$' (words.map Word.text) tree := by
  refine insertAll_stores (fun _ _ h hw => Trie2.insert_spec h hw) fun word hword => ?_
  obtain ⟨w, -, rfl⟩ := List.mem_map.1 hword
  exact w.noDollar

/-- No insertion raises, and both tries answer every query as the set of the words does; so the order of the
insertions makes no difference, nor does a repeated one, and the tries agree. -/
theorem tries_implement_set (words : List Word) :
    ∃ tree tree2, insertAll Trie.insert (words.map Word.text) = some tree ∧
      insertAll Trie2.insert (words.map Word.text) = some tree2 ∧
      (∀ query : Word,
        (∃ found, Trie.search tree query.text = some found ∧ (found = true ↔ query ∈ words)) ∧
        (query.text ≠ [] → ∃ found, startsWith tree query.text = some found ∧
          (found = true ↔ ∃ word ∈ words, query.text <+: word.text)) ∧
        Trie2.search tree2 query.text = Trie.search tree query.text ∧
        startsWith tree2 query.text = startsWith tree query.text) ∧
      ∀ words' : List Word, (∀ word, word ∈ words' ↔ word ∈ words) →
        ∃ tree', insertAll Trie.insert (words'.map Word.text) = some tree' ∧ ∀ query : Word,
          Trie.search tree' query.text = Trie.search tree query.text ∧
          startsWith tree' query.text = startsWith tree query.text := by
  obtain ⟨tree, hins, hs⟩ := Trie.insertAll_words words
  obtain ⟨tree2, hins2, hs2⟩ := Trie2.insertAll_words words
  refine ⟨tree, tree2, hins, hins2, fun query => ?_, fun words' hsame => ?_⟩
  · obtain ⟨hsearch, hstarts⟩ := hs.answers query.noHash
    obtain ⟨hsearch2, hstarts2⟩ := hs2.answers query.noDollar
    refine ⟨⟨_, hsearch, ?_⟩, fun hne => ⟨_, hstarts, ?_⟩, hsearch2.trans hsearch.symm, hstarts2.trans hstarts.symm⟩
    · rw [decide_eq_true_iff, mem_map_text]
    · simp [hne]
  · obtain ⟨tree', hins', hs'⟩ := Trie.insertAll_words words'
    have hwords : ∀ word, word ∈ words'.map Word.text ↔ word ∈ words.map Word.text := by
      intro word
      simp only [List.mem_map, hsame]
    refine ⟨tree', hins', fun query => ?_⟩
    obtain ⟨hsearch, hstarts⟩ := hs.answers query.noHash
    obtain ⟨hsearch', hstarts'⟩ := hs'.answers query.noHash
    simp only [hwords] at hsearch' hstarts'
    exact ⟨hsearch'.trans hsearch.symm, hstarts'.trans hstarts.symm⟩

end GoodGoodStudy.LeetCode
