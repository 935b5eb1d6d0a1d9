/-
The binary search tree operations of three exercises: `insertIntoBST`, `deleteNode` and `searchBST`.
Together they implement a finite set of integers as long as no key is inserted while it is in the tree:
the loop of `build` has no branch for an equal key, and goes round without moving when it meets one.

The descent of `build` is modelled by a pointer into the tree (the turns taken from the root and the
subtree reached), so that the node it creates is hung where the source assigns it.
-/
import GoodGoodStudy.Lib.Loop
import GoodGoodStudy.Lib.SearchTree

namespace GoodGoodStudy.LeetCode

open GoodGoodStudy.Lib BinaryTree

/-- A node with its value and its children; `nil` is `None`. -/
abbrev TreeNode := BinaryTree Int

/-! ## Insertion -/

/-- One round of `while root:` in `build`. The state is where `root` points; the result is the tree. -/
def buildRound (val : Int) : List (Turn Int) × TreeNode → Round (List (Turn Int) × TreeNode) TreeNode
  | (path, nil) => .leave (plug path nil)
  | (path, node v l r) =>
    if v > val then
      match l with
      | nil => .leave (plug path (node v (node val nil nil) r))
      | node _ _ _ => .again (.left v r :: path, l)
    else if v < val then
      match r with
      | nil => .leave (plug path (node v l (node val nil nil)))
      | node _ _ _ => .again (.right v l :: path, r)
    else .again (path, node v l r)

def build (fuel : Nat) (root : TreeNode) (val : Int) : Option TreeNode := loop (buildRound val) fuel ([], root)

def insertIntoBST (fuel : Nat) : TreeNode → Int → Option TreeNode
  | nil, val => some (node val nil nil)
  | root, val => build fuel root val

/-! ## Deletion -/

/-- `while tmp.left: tmp = tmp.left` for a node with value `v` and left child `l`; the value of the node
it stops at. -/
def leftmost : Int → TreeNode → Int
  | v, nil => v
  | _, node v l _ => leftmost v l

/-- `root.val = val`. -/
def setVal (val : Int) : TreeNode → TreeNode
  | nil => nil
  | node _ l r => node val l r

def deleteNode : Nat → TreeNode → Int → Option TreeNode
  | 0, _, _ => none
  | _ + 1, nil, _ => some nil
  | fuel + 1, node v l r, key =>
    if v = key then
      match l, r with
      | l, node w (node x a b) c =>
        -- the call for the smallest key to the right is made on the node itself, before its value changes
        let val := leftmost w (node x a b)
        (deleteNode fuel (node v l (node w (node x a b) c)) val).map (setVal val)
      | node x a b, nil => some (node x a b)
      | nil, node w nil c => some (node w nil c)
      | node x a b, node w nil c => some (node w (node x a b) c)
      | nil, nil => some nil
    else if v > key then (deleteNode fuel l key).map fun l' => node v l' r
    else (deleteNode fuel r key).map fun r' => node v l r'

/-! ## Search -/

def searchBST : TreeNode → Int → TreeNode
  | nil, _ => nil
  | node v l r, val =>
    if v = val then node v l r
    else if val < v then searchBST l val
    else if val > v then searchBST r val
    else nil

/-! ## What a call does on a search tree -/

/-- A key that is not there goes below the leaf where its search ends. -/
theorem build_returns {val : Int} {t : TreeNode} (ht : SearchTree t) (hne : t ≠ nil) (hval : val ∉ keys t)
    (path : List (Turn Int)) :
    Returns (fun fuel => loop (buildRound val) fuel (path, t)) (plug path (insertLeaf val t)) := by
  induction t generalizing path with
  | nil => exact absurd rfl hne
  | node v l r ihl ihr =>
    rcases lt_trichotomy val v with hlt | rfl | hlt
    · rw [ht.mem_left hlt] at hval
      cases l with
      | nil =>
        apply Returns.leave
        simp [buildRound, insertLeaf, hlt]
      | node x a b =>
        have hround : buildRound val (path, node v (node x a b) r) = .again (.left v r :: path, node x a b) := by
          simp [buildRound, hlt]
        have hplug : plug path (insertLeaf val (node v (node x a b) r)) =
            plug (.left v r :: path) (insertLeaf val (node x a b)) := by
          rw [insertLeaf, if_pos hlt, plug]
        rw [hplug]
        exact Returns.again hround (ihl ht.2.2.1 (by simp) hval _)
    · exact absurd (mem_keys_node.2 (.inl rfl)) hval
    · rw [ht.mem_right hlt] at hval
      have hle : ¬ val < v := lt_asymm hlt
      cases r with
      | nil =>
        apply Returns.leave
        simp [buildRound, insertLeaf, hlt, hle]
      | node x a b =>
        have hround : buildRound val (path, node v l (node x a b)) = .again (.right v l :: path, node x a b) := by
          simp [buildRound, hlt, hle]
        have hplug : plug path (insertLeaf val (node v l (node x a b))) =
            plug (.right v l :: path) (insertLeaf val (node x a b)) := by
          rw [insertLeaf, if_neg hle, plug]
        rw [hplug]
        exact Returns.again hround (ihr ht.2.2.2 (by simp) hval _)

/-- The pointer of `build` never leaves the subtrees that hold the key. -/
theorem build_diverges {val : Int} {t : TreeNode} (ht : SearchTree t) (hval : val ∈ keys t) :
    Diverges fun fuel => build fuel t val := by
  unfold build
  apply loop_diverges (I := fun s => SearchTree s.2 ∧ val ∈ keys s.2) _ ⟨ht, hval⟩
  rintro ⟨path, t⟩ ⟨ht, hval⟩
  cases t with
  | nil => exact absurd hval (Finset.notMem_empty val)
  | node v l r =>
    rcases lt_trichotomy val v with hlt | rfl | hlt
    · have hl := (ht.mem_left hlt).1 hval
      cases l with
      | nil => exact absurd hl (Finset.notMem_empty val)
      | node x a b => exact ⟨(.left v r :: path, node x a b), by simp [buildRound, hlt], ht.2.2.1, hl⟩
    · exact ⟨(path, node val l r), by simp [buildRound], ht, hval⟩
    · have hr := (ht.mem_right hlt).1 hval
      cases r with
      | nil => exact absurd hr (Finset.notMem_empty val)
      | node x a b =>
        exact ⟨(.right v l :: path, node x a b), by simp [buildRound, hlt, lt_asymm hlt], ht.2.2.2, hr⟩

theorem insertIntoBST_returns {val : Int} {t : TreeNode} (ht : SearchTree t) (hval : val ∉ keys t) :
    Returns (fun fuel => insertIntoBST fuel t val) (insertLeaf val t) := by
  cases t with
  | nil => exact Returns.pure _
  | node v l r => exact build_returns ht (by simp) hval []

theorem insertIntoBST_diverges {val : Int} {t : TreeNode} (ht : SearchTree t) (hval : val ∈ keys t) :
    Diverges fun fuel => insertIntoBST fuel t val := by
  cases t with
  | nil => exact absurd hval (Finset.notMem_empty val)
  | node v l r => exact build_diverges ht hval

theorem leftmost_spec {w : Int} {l : TreeNode} (r : TreeNode) (h : SearchTree (node w l r)) :
    leftmost w l ∈ keys (node w l r) ∧ ∀ b ∈ keys (node w l r), leftmost w l ≤ b := by
  induction l generalizing w r with
  | nil =>
    refine ⟨mem_keys_node.2 (.inl rfl), fun b hb => ?_⟩
    rcases mem_keys_node.1 hb with rfl | hb | hb
    · exact le_rfl
    · exact absurd hb (Finset.notMem_empty b)
    · exact le_of_lt (h.2.1 b hb)
  | node x a b iha _ =>
    obtain ⟨hl, hr, hsl, -⟩ := h
    obtain ⟨hmem, hmin⟩ := iha b hsl
    refine ⟨mem_keys_node.2 (.inr (.inl hmem)), fun c hc => ?_⟩
    have hlt : leftmost x a < w := hl _ hmem
    rcases mem_keys_node.1 hc with rfl | hc | hc
    · exact le_of_lt hlt
    · exact hmin c hc
    · exact le_of_lt (lt_trans hlt (hr c hc))

/-- A tree from which `key` was deleted. -/
def Deleted (t : TreeNode) (key : Int) (t' : TreeNode) : Prop :=
  SearchTree t' ∧ keys t' = (keys t).erase key

theorem Deleted.left {v key : Int} {l r l' : TreeNode} (h : SearchTree (node v l r)) (hlt : key < v)
    (hl' : Deleted l key l') : Deleted (node v l r) key (node v l' r) := by
  obtain ⟨hl, hr, -, hsr⟩ := h
  obtain ⟨hsl', hkeys⟩ := hl'
  refine ⟨⟨fun b hb => ?_, hr, hsl', hsr⟩, ?_⟩
  · rw [hkeys] at hb
    exact hl b (Finset.mem_of_mem_erase hb)
  · ext b
    simp only [mem_keys_node, hkeys, Finset.mem_erase]
    have hkey : key ∉ keys r := fun hk => lt_asymm hlt (hr key hk)
    constructor
    · rintro (rfl | ⟨hne, hb⟩ | hb)
      · exact ⟨ne_of_gt hlt, .inl rfl⟩
      · exact ⟨hne, .inr (.inl hb)⟩
      · exact ⟨fun he => hkey (he ▸ hb), .inr (.inr hb)⟩
    · rintro ⟨hne, rfl | hb | hb⟩
      · exact .inl rfl
      · exact .inr (.inl ⟨hne, hb⟩)
      · exact .inr (.inr hb)

theorem Deleted.right {v key : Int} {l r r' : TreeNode} (h : SearchTree (node v l r)) (hlt : v < key)
    (hr' : Deleted r key r') : Deleted (node v l r) key (node v l r') := by
  obtain ⟨hl, hr, hsl, -⟩ := h
  obtain ⟨hsr', hkeys⟩ := hr'
  refine ⟨⟨hl, fun b hb => ?_, hsl, hsr'⟩, ?_⟩
  · rw [hkeys] at hb
    exact hr b (Finset.mem_of_mem_erase hb)
  · ext b
    simp only [mem_keys_node, hkeys, Finset.mem_erase]
    have hkey : key ∉ keys l := fun hk => lt_asymm hlt (hl key hk)
    constructor
    · rintro (rfl | hb | ⟨hne, hb⟩)
      · exact ⟨ne_of_lt hlt, .inl rfl⟩
      · exact ⟨fun he => hkey (he ▸ hb), .inr (.inl hb)⟩
      · exact ⟨hne, .inr (.inr hb)⟩
    · rintro ⟨hne, rfl | hb | hb⟩
      · exact .inl rfl
      · exact .inr (.inl hb)
      · exact .inr (.inr ⟨hne, hb⟩)

/-- The root's key gives way to the smallest one to its right, which is deleted there. -/
theorem Deleted.replace {v m : Int} {l r r' : TreeNode} (h : SearchTree (node v l r)) (hm : m ∈ keys r)
    (hmin : ∀ b ∈ keys r, m ≤ b) (hr' : Deleted r m r') : Deleted (node v l r) v (node m l r') := by
  obtain ⟨hl, hr, hsl, -⟩ := h
  obtain ⟨hsr', hkeys⟩ := hr'
  refine ⟨⟨fun b hb => lt_trans (hl b hb) (hr m hm), fun b hb => ?_, hsl, hsr'⟩, ?_⟩
  · rw [hkeys, Finset.mem_erase] at hb
    exact lt_of_le_of_ne (hmin b hb.2) (Ne.symm hb.1)
  · ext b
    simp only [mem_keys_node, hkeys, Finset.mem_erase]
    constructor
    · rintro (rfl | hb | ⟨-, hb⟩)
      · exact ⟨ne_of_gt (hr b hm), .inr (.inr hm)⟩
      · exact ⟨ne_of_lt (hl b hb), .inr (.inl hb)⟩
      · exact ⟨ne_of_gt (hr b hb), .inr (.inr hb)⟩
    · rintro ⟨hne, rfl | hb | hb⟩
      · exact absurd rfl hne
      · exact .inr (.inl hb)
      · by_cases hbm : b = m
        · exact .inl hbm
        · exact .inr (.inr ⟨hbm, hb⟩)

/-- The smallest node on the right has no left child: the left subtree of the root can be hung there. -/
theorem Deleted.hang {v w : Int} {l c : TreeNode} (h : SearchTree (node v l (node w nil c))) :
    Deleted (node v l (node w nil c)) v (node w l c) := by
  obtain ⟨hl, hr, hsl, -, hc, -, hsc⟩ := h
  have hvw : v < w := hr w (mem_keys_node.2 (.inl rfl))
  refine ⟨⟨fun b hb => lt_trans (hl b hb) hvw, hc, hsl, hsc⟩, ?_⟩
  ext b
  simp only [mem_keys_node, Finset.mem_erase, keys_nil, Finset.notMem_empty, false_or]
  constructor
  · rintro (rfl | hb | hb)
    · exact ⟨ne_of_gt hvw, .inr (.inr (.inl rfl))⟩
    · exact ⟨ne_of_lt (hl b hb), .inr (.inl hb)⟩
    · exact ⟨ne_of_gt (lt_trans hvw (hc b hb)), .inr (.inr (.inr hb))⟩
  · rintro ⟨hne, rfl | hb | rfl | hb⟩
    · exact absurd rfl hne
    · exact .inr (.inl hb)
    · exact .inl rfl
    · exact .inr (.inr hb)

theorem Deleted.only_left {v : Int} {l : TreeNode} (h : SearchTree (node v l nil)) : Deleted (node v l nil) v l := by
  obtain ⟨hl, -, hsl, -⟩ := h
  refine ⟨hsl, ?_⟩
  ext b
  simp only [mem_keys_node, Finset.mem_erase, keys_nil, Finset.notMem_empty, or_false]
  constructor
  · intro hb
    exact ⟨ne_of_lt (hl b hb), .inr hb⟩
  · rintro ⟨hne, rfl | hb⟩
    · exact absurd rfl hne
    · exact hb

/-- A call for a greater key works on the right subtree. -/
theorem deleteNode_right {v key : Int} {l r r' : TreeNode} (hlt : v < key)
    (h : Returns (fun fuel => deleteNode fuel r key) r') :
    Returns (fun fuel => deleteNode fuel (node v l r) key) (node v l r') := by
  apply Returns.call _ (h.map fun r' => node v l r')
  intro fuel
  simp [deleteNode, ne_of_lt hlt, lt_asymm hlt]

theorem deleteNode_left {v key : Int} {l r l' : TreeNode} (hlt : key < v)
    (h : Returns (fun fuel => deleteNode fuel l key) l') :
    Returns (fun fuel => deleteNode fuel (node v l r) key) (node v l' r) := by
  apply Returns.call _ (h.map fun l' => node v l' r)
  intro fuel
  simp [deleteNode, ne_of_gt hlt, hlt]

/-- The recursion on the node itself ends: it is for another key, and so goes on in the right subtree. -/
theorem deleteNode_returns {t : TreeNode} (ht : SearchTree t) (key : Int) :
    ∃ t', Returns (fun fuel => deleteNode fuel t key) t' ∧ Deleted t key t' := by
  induction t generalizing key with
  | nil => exact ⟨nil, Returns.call (fun _ => rfl) (Returns.pure nil), searchTree_nil, by simp⟩
  | node v l r ihl ihr =>
    obtain ⟨-, hr, hsl, hsr⟩ := id ht
    rcases lt_trichotomy key v with hlt | rfl | hlt
    · obtain ⟨l', hl', hdel⟩ := ihl hsl key
      exact ⟨node v l' r, deleteNode_left hlt hl', hdel.left ht hlt⟩
    · rcases r with - | ⟨w, rl, c⟩
      · refine ⟨l, Returns.call (fun fuel => ?_) (Returns.pure l), Deleted.only_left ht⟩
        cases l <;> simp [deleteNode]
      · rcases rl with - | ⟨x, a, b⟩
        · refine ⟨node w l c, Returns.call (fun fuel => ?_) (Returns.pure _), Deleted.hang ht⟩
          cases l <;> simp [deleteNode]
        · obtain ⟨hmem, hmin⟩ := leftmost_spec c hsr
          obtain ⟨r', hr', hdel⟩ := ihr hsr (leftmost w (node x a b))
          refine ⟨node (leftmost w (node x a b)) l r', ?_, Deleted.replace ht hmem hmin hdel⟩
          apply Returns.call _ ((deleteNode_right (l := l) (hr _ hmem) hr').map (setVal (leftmost w (node x a b))))
          intro fuel
          simp [deleteNode]
    · obtain ⟨r', hr', hdel⟩ := ihr hsr key
      exact ⟨node v l r', deleteNode_right hlt hr', hdel.right ht hlt⟩

/-- A search stops at the node with the key, or at `None`. -/
theorem searchBST_spec {t : TreeNode} (ht : SearchTree t) (val : Int) :
    if val ∈ keys t then ∃ path l r, searchBST t val = node val l r ∧ plug path (node val l r) = t
    else searchBST t val = nil := by
  induction t with
  | nil => rfl
  | node v l r ihl ihr =>
    unfold searchBST
    rcases lt_trichotomy val v with hlt | rfl | hlt
    · simp only [if_neg (ne_of_gt hlt), if_pos hlt, ht.mem_left hlt]
      split_ifs with hval
      · obtain ⟨path, a, b, hs, rfl⟩ := by simpa only [if_pos hval] using ihl ht.2.2.1
        exact ⟨path ++ [.left v r], a, b, hs, plug_append path [.left v r] _⟩
      · simpa only [if_neg hval] using ihl ht.2.2.1
    · rw [if_pos (mem_keys_node.2 (.inl rfl)), if_pos rfl]
      exact ⟨[], l, r, rfl, rfl⟩
    · simp only [if_neg (ne_of_lt hlt), if_neg (lt_asymm hlt), if_pos hlt, ht.mem_right hlt]
      split_ifs with hval
      · obtain ⟨path, a, b, hs, rfl⟩ := by simpa only [if_pos hval] using ihr ht.2.2.2
        exact ⟨path ++ [.right v l], a, b, hs, plug_append path [.right v l] _⟩
      · simpa only [if_neg hval] using ihr ht.2.2.2

/-! ## Sequences of calls -/

inductive Call
  | insert (key : Int)
  | delete (key : Int)
  | search (key : Int)
  deriving DecidableEq, Repr

/-- A call on the current tree: the tree after it, and what it returns. -/
def call (fuel : Nat) (root : TreeNode) : Call → Option (TreeNode × TreeNode)
  | .insert key => (insertIntoBST fuel root key).map fun root => (root, root)
  | .delete key => (deleteNode fuel root key).map fun root => (root, root)
  | .search key => some (root, searchBST root key)

/-- The set that the tree stands for. -/
def apply (s : Finset Int) : Call → Finset Int
  | .insert key => Insert.insert key s
  | .delete key => s.erase key
  | .search _ => s

/-- What a call has to return when `s` is the set and `root` the tree after it: a search returns the node
of the tree that holds the key, or `None` if the key is not in the set. -/
def Answers (s : Finset Int) (root : TreeNode) : Call → TreeNode → Prop
  | .search key, answer =>
    if key ∈ s then ∃ path l r, answer = node key l r ∧ plug path (node key l r) = root else answer = nil
  | _, answer => answer = root

/-- Each of the calls returns, leaves a strict search tree of the abstract set, and answers right. -/
def Implements : TreeNode → Finset Int → List Call → Prop
  | _, _, [] => True
  | root, s, c :: calls =>
    ∃ root' answer, Returns (fun fuel => call fuel root c) (root', answer) ∧ SearchTree root' ∧
      keys root' = apply s c ∧ Answers s root' c answer ∧ Implements root' (apply s c) calls

/-- No key is inserted while it is in the set. -/
def FreshInserts : Finset Int → List Call → Prop
  | _, [] => True
  | s, c :: calls => (∀ key ∈ s, c ≠ .insert key) ∧ FreshInserts (apply s c) calls

/-- What one call does, unless it inserts a key that is there. -/
theorem call_returns {root : TreeNode} (h : SearchTree root) {c : Call} (hc : ∀ key ∈ keys root, c ≠ .insert key) :
    ∃ root' answer, Returns (fun fuel => call fuel root c) (root', answer) ∧ SearchTree root' ∧
      keys root' = apply (keys root) c ∧ Answers (keys root) root' c answer := by
  cases c with
  | insert key =>
    have hkey : key ∉ keys root := fun hk => hc key hk rfl
    exact ⟨_, _, (insertIntoBST_returns h hkey).map _, h.insertLeaf hkey, keys_insertLeaf key root, rfl⟩
  | delete key =>
    obtain ⟨root', hr, hs, hk⟩ := deleteNode_returns h key
    exact ⟨_, _, hr.map _, hs, hk, rfl⟩
  | search key => exact ⟨root, _, Returns.pure _, h, rfl, searchBST_spec h key⟩

/-- An insertion of a key that is there does not return. -/
theorem call_insert_diverges {root : TreeNode} (h : SearchTree root) {key : Int} (hkey : key ∈ keys root) :
    Diverges fun fuel => call fuel root (.insert key) := by
  intro fuel
  have hnone : insertIntoBST fuel root key = none := insertIntoBST_diverges h hkey fuel
  simp only [call, hnone, Option.map_none]

theorem implements_iff {root : TreeNode} (h : SearchTree root) (calls : List Call) :
    Implements root (keys root) calls ↔ FreshInserts (keys root) calls := by
  induction calls generalizing root with
  | nil => exact Iff.rfl
  | cons c calls ih =>
    constructor
    · rintro ⟨root', answer, hr, hs, hk, -, hrest⟩
      refine ⟨fun key hkey he => ?_, ?_⟩
      · subst he
        exact hr.not_diverges (call_insert_diverges h hkey)
      · rw [← hk] at hrest ⊢
        exact (ih hs).1 hrest
    · rintro ⟨hc, hrest⟩
      obtain ⟨root', answer, hr, hs, hk, ha⟩ := call_returns h hc
      refine ⟨root', answer, hr, hs, hk, ha, ?_⟩
      rw [← hk] at hrest ⊢
      exact (ih hs).2 hrest

/-- Starting from the empty tree, the three operations implement a finite set of integers over a sequence
of calls exactly if the sequence inserts no key that is in the set. -/
theorem bst_implements_set_iff (calls : List Call) : Implements nil ∅ calls ↔ FreshInserts ∅ calls :=
  implements_iff searchTree_nil calls

/-- Inserting a key a second time does not return. -/
theorem insert_twice_diverges : ¬ Implements nil ∅ [.insert 1, .insert 1] := by
  rintro ⟨root₁, _, -, hs₁, hk₁, -, root₂, answer, hr, -⟩
  have hkey : 1 ∈ keys root₁ := by
    rw [hk₁]
    exact Finset.mem_insert_self 1 ∅
  exact hr.not_diverges (call_insert_diverges hs₁ hkey)

end GoodGoodStudy.LeetCode
