/-
Binary search trees over a linear order: the keys of a tree, the search order, insertion below a leaf,
and the pointer into a tree that an iterative descent moves, as the turns taken on the way down.
-/
import Mathlib.Data.Finset.Lattice.Lemmas
import Mathlib.Data.Finset.Erase
import Mathlib.Data.Tree.Basic
import GoodGoodStudy.Lib.Traversal

namespace GoodGoodStudy.Lib

variable {α : Type*} [LinearOrder α]

open BinaryTree

/-- The values of the nodes. -/
def keys : BinaryTree α → Finset α
  | nil => ∅
  | node a l r => insert a (keys l ∪ keys r)

/-- Every node is greater than all nodes to its left and smaller than all nodes to its right. -/
def SearchTree : BinaryTree α → Prop
  | nil => True
  | node a l r => (∀ b ∈ keys l, b < a) ∧ (∀ b ∈ keys r, a < b) ∧ SearchTree l ∧ SearchTree r

@[simp] theorem keys_nil : keys (nil : BinaryTree α) = ∅ := rfl

@[simp] theorem mem_keys_node {a b : α} {l r : BinaryTree α} :
    b ∈ keys (node a l r) ↔ b = a ∨ b ∈ keys l ∨ b ∈ keys r := by
  rw [keys, Finset.mem_insert, Finset.mem_union]

@[simp] theorem searchTree_nil : SearchTree (nil : BinaryTree α) := trivial

theorem mem_inorder {a : α} {t : BinaryTree α} : a ∈ inorder t ↔ a ∈ keys t := by
  induction t with
  | nil => simp [inorder]
  | node b l r ihl ihr => rw [inorder, List.mem_append, List.mem_cons, mem_keys_node, ihl, ihr, or_left_comm]

/-- The inorder traversal of a search tree is increasing. -/
theorem searchTree_iff_inorder {t : BinaryTree α} : SearchTree t ↔ (inorder t).Pairwise (· < ·) := by
  induction t with
  | nil => exact iff_of_true trivial List.Pairwise.nil
  | node a l r ihl ihr => simp only [SearchTree, pairwise_inorder_node, ihl, ihr, mem_inorder]

/-- The same order for trees in which a value may come more than once. -/
def WeakSearchTree : BinaryTree α → Prop
  | nil => True
  | node a l r => (∀ b ∈ keys l, b ≤ a) ∧ (∀ b ∈ keys r, a ≤ b) ∧ WeakSearchTree l ∧ WeakSearchTree r

theorem weakSearchTree_iff_inorder {t : BinaryTree α} : WeakSearchTree t ↔ (inorder t).Pairwise (· ≤ ·) := by
  induction t with
  | nil => exact iff_of_true trivial List.Pairwise.nil
  | node a l r ihl ihr => simp only [WeakSearchTree, pairwise_inorder_node, ihl, ihr, mem_inorder]

theorem SearchTree.leaf (a : α) : SearchTree (node a nil nil) := by
  simp [SearchTree]

/-! ## The search order decides where a key is -/

theorem SearchTree.mem_left {a b : α} {l r : BinaryTree α} (h : SearchTree (node a l r)) (hb : b < a) :
    b ∈ keys (node a l r) ↔ b ∈ keys l := by
  obtain ⟨-, hr, -, -⟩ := h
  rw [mem_keys_node]
  constructor
  · rintro (rfl | hbl | hbr)
    · exact absurd hb (lt_irrefl b)
    · exact hbl
    · exact absurd hb (lt_asymm (hr b hbr))
  · intro hbl
    exact .inr (.inl hbl)

theorem SearchTree.mem_right {a b : α} {l r : BinaryTree α} (h : SearchTree (node a l r)) (hb : a < b) :
    b ∈ keys (node a l r) ↔ b ∈ keys r := by
  obtain ⟨hl, -, -, -⟩ := h
  rw [mem_keys_node]
  constructor
  · rintro (rfl | hbl | hbr)
    · exact absurd hb (lt_irrefl b)
    · exact absurd hb (lt_asymm (hl b hbl))
    · exact hbr
  · intro hbr
    exact .inr (.inr hbr)

/-! ## Insertion -/

/-- Put a key where the search for it falls out of the tree. -/
def insertLeaf (a : α) : BinaryTree α → BinaryTree α
  | nil => node a nil nil
  | node b l r => if a < b then node b (insertLeaf a l) r else node b l (insertLeaf a r)

theorem keys_insertLeaf (a : α) (t : BinaryTree α) : keys (insertLeaf a t) = insert a (keys t) := by
  induction t with
  | nil => rfl
  | node b l r ihl ihr =>
    unfold insertLeaf
    ext c
    split_ifs with h
    · simp only [mem_keys_node, ihl, Finset.mem_insert]
      tauto
    · simp only [mem_keys_node, ihr, Finset.mem_insert]
      tauto

theorem SearchTree.insertLeaf {a : α} {t : BinaryTree α} (h : SearchTree t) (ha : a ∉ keys t) :
    SearchTree (insertLeaf a t) := by
  induction t with
  | nil => exact SearchTree.leaf a
  | node b l r ihl ihr =>
    obtain ⟨hl, hr, hsl, hsr⟩ := h
    simp only [mem_keys_node, not_or] at ha
    obtain ⟨hab, hal, har⟩ := ha
    unfold Lib.insertLeaf
    split_ifs with hlt
    · refine ⟨fun c hc => ?_, hr, ihl hsl hal, hsr⟩
      rcases Finset.mem_insert.1 (keys_insertLeaf a l ▸ hc) with rfl | hc
      · exact hlt
      · exact hl c hc
    · refine ⟨hl, fun c hc => ?_, hsl, ihr hsr har⟩
      rcases Finset.mem_insert.1 (keys_insertLeaf a r ▸ hc) with rfl | hc
      · exact lt_of_le_of_ne (not_lt.1 hlt) (Ne.symm hab)
      · exact hr c hc

/-! ## A pointer into a tree -/

/-- A turn on the way down: the node passed, and its child on the other side. -/
inductive Turn (α : Type*)
  | left (a : α) (right : BinaryTree α)
  | right (a : α) (left : BinaryTree α)
  deriving DecidableEq, Repr

/-- The whole tree, seen from a node below which `t` hangs; the last turn comes first. -/
def plug : List (Turn α) → BinaryTree α → BinaryTree α
  | [], t => t
  | .left a r :: path, t => plug path (node a t r)
  | .right a l :: path, t => plug path (node a l t)

omit [LinearOrder α] in
theorem plug_append (path above : List (Turn α)) (t : BinaryTree α) :
    plug (path ++ above) t = plug above (plug path t) := by
  induction path generalizing t with
  | nil => rfl
  | cons turn path ih => cases turn <;> exact ih _

end GoodGoodStudy.Lib
