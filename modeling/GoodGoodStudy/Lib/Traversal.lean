/-
The three depth-first traversals of a binary tree. They list the same values, so a subtree takes up as much room in one
of them as in another.
-/
import Mathlib.Data.List.Nodup
import Mathlib.Data.Tree.Basic

namespace GoodGoodStudy.Lib

variable {α : Type*}

open BinaryTree

def preorder : BinaryTree α → List α
  | nil => []
  | node a l r => a :: (preorder l ++ preorder r)

def inorder : BinaryTree α → List α
  | nil => []
  | node a l r => inorder l ++ a :: inorder r

def postorder : BinaryTree α → List α
  | nil => []
  | node a l r => postorder l ++ postorder r ++ [a]

theorem inorder_map {β : Type*} (f : α → β) (t : BinaryTree α) : inorder (t.map f) = (inorder t).map f := by
  induction t with
  | nil => rfl
  | node a l r ihl ihr => rw [BinaryTree.map, inorder, inorder, ihl, ihr, List.map_append, List.map_cons]

theorem length_preorder (t : BinaryTree α) : (preorder t).length = (inorder t).length := by
  induction t with
  | nil => rfl
  | node a l r ihl ihr =>
    simp only [preorder, inorder, List.length_cons, List.length_append, ihl, ihr]
    omega

theorem length_postorder (t : BinaryTree α) : (postorder t).length = (inorder t).length := by
  induction t with
  | nil => rfl
  | node a l r ihl ihr =>
    simp only [postorder, inorder, List.length_cons, List.length_append, List.length_nil, ihl, ihr]
    omega

theorem mem_inorder_node {a b : α} {l r : BinaryTree α} :
    b ∈ inorder (node a l r) ↔ b ∈ inorder l ∨ b = a ∨ b ∈ inorder r := by
  rw [inorder, List.mem_append, List.mem_cons]

/-- With distinct values, the two subtrees of a node have no value in common. -/
theorem disjoint_inorder_node {a : α} {l r : BinaryTree α} (h : (inorder (node a l r)).Nodup) :
    a ∉ inorder l ∧ a ∉ inorder r ∧ ∀ x ∈ inorder l, x ∉ inorder r := by
  obtain ⟨-, hr, hne⟩ := List.nodup_append.1 h
  exact ⟨fun hmem => hne a hmem a List.mem_cons_self rfl, (List.nodup_cons.1 hr).1,
    fun x hl hr => hne x hl x (List.mem_cons_of_mem a hr) rfl⟩

/-- What distinct values mean for a node: the root is in neither subtree, and both have distinct values. -/
theorem nodup_inorder_node {a : α} {l r : BinaryTree α} (h : (inorder (node a l r)).Nodup) :
    a ∉ inorder l ∧ (inorder l).Nodup ∧ (inorder r).Nodup := by
  obtain ⟨hl, hr, hne⟩ := List.nodup_append.1 h
  exact ⟨fun hmem => hne a hmem a List.mem_cons_self rfl, hl, (List.nodup_cons.1 hr).2⟩

/-- What an order of the inorder list means for a node: it holds between the root and both subtrees, and in both. -/
theorem pairwise_inorder_node {R : α → α → Prop} [IsTrans α R] {a : α} {l r : BinaryTree α} :
    (inorder (node a l r)).Pairwise R ↔ (∀ b ∈ inorder l, R b a) ∧ (∀ b ∈ inorder r, R a b) ∧
      (inorder l).Pairwise R ∧ (inorder r).Pairwise R := by
  rw [inorder, List.pairwise_append, List.pairwise_cons]
  constructor
  · rintro ⟨hl, ⟨hroot, hr⟩, hcross⟩
    exact ⟨fun b hb => hcross b hb a List.mem_cons_self, hroot, hl, hr⟩
  · rintro ⟨hleft, hroot, hl, hr⟩
    refine ⟨hl, ⟨hroot, hr⟩, fun b hb c hc => ?_⟩
    rcases List.mem_cons.1 hc with rfl | hc
    · exact hleft b hb
    · exact trans_of R (hleft b hb) (hroot c hc)

end GoodGoodStudy.Lib
