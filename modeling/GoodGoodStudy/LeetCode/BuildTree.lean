/-
The three functions that build a binary tree from two of its traversals: from preorder and inorder in the exercise 105
and in the exercise 07 of the second collection, from inorder and postorder in the exercise 106. A call looks the root
up in the inorder list and takes the slices on both sides of it. The first function takes one element too many for the
left subtree; as it looks a root up from the front and stops when the preorder slice is empty, what lies behind the
subtree in the inorder list never matters.
-/
import GoodGoodStudy.Lib.Traversal

namespace GoodGoodStudy.LeetCode.BuildTree

open GoodGoodStudy.Lib BinaryTree

variable {α : Type} [DecidableEq α]

/-- A node with its value and its children; `nil` is `None`. -/
abbrev TreeNode (α : Type) := BinaryTree α

/-- `list.index` of a value that is not there, and an index out of range. -/
inductive Exc
  | valueError
  | indexError
  deriving DecidableEq, Repr

/-- `xs.index(a)` -/
def index (xs : List α) (a : α) : Except Exc (Fin xs.length) :=
  if h : a ∈ xs then .ok ⟨xs.idxOf a, List.idxOf_lt_length_of_mem h⟩ else .error .valueError

/-- `xs[i:j]` for indices that are not negative. -/
def slice (xs : List α) (i j : ℕ) : List α := (xs.take j).drop i

/-- `buildTree` of the two exercises that are given the preorder: the inorder slice of the left subtree ends `extra`
elements behind those of the subtree. -/
def buildTreeWith (extra : ℕ) : (preorder inorder : List α) → Except Exc (TreeNode α)
  | [], _ => .ok nil
  | a :: preorder, inorder => do
    let i ← index inorder a
    let left ← buildTreeWith extra (slice (a :: preorder) 1 (i + 1)) (inorder.take (i + extra))
    let right ← buildTreeWith extra ((a :: preorder).drop (i + 1)) (inorder.drop (i + 1))
    return node a left right
termination_by preorder => preorder.length
decreasing_by
  · simp only [slice, List.length_drop, List.length_take, List.length_cons]
    omega
  · simp only [List.length_drop, List.length_cons]
    omega

/-- The exercise 105. -/
def Preorder.buildTree (preorder inorder : List α) : Except Exc (TreeNode α) := buildTreeWith 1 preorder inorder

/-- The exercise 07. -/
def Offer.buildTree (preorder inorder : List α) : Except Exc (TreeNode α) := buildTreeWith 0 preorder inorder

/-- The exercise 106; `postorder[-1]` is the last element. -/
def Postorder.buildTree : (inorder postorder : List α) → Except Exc (TreeNode α)
  | [], _ => .ok nil
  | b :: inorder, postorder =>
    match postorder.getLast? with
    | none => .error .indexError
    | some a => do
      let i ← index (b :: inorder) a
      let left ← buildTree ((b :: inorder).take i) (postorder.take i)
      let right ← buildTree ((b :: inorder).drop (i + 1)) (slice postorder i (postorder.length - 1))
      return node a left right
termination_by inorder => inorder.length
decreasing_by
  · simp only [List.length_take, List.length_cons]
    exact Nat.lt_of_le_of_lt (Nat.min_le_left _ _) i.isLt
  · simp only [List.length_drop, List.length_cons]
    omega

/-! ## From a traversal back to the tree -/

/-- The root is found behind the left subtree, if it does not occur there. -/
theorem index_root {l : List α} {a : α} (ha : a ∉ l) (rest : List α) :
    ∃ h, index (l ++ a :: rest) a = .ok ⟨l.length, h⟩ := by
  have hidx : (l ++ a :: rest).idxOf a = l.length := by
    rw [List.idxOf_append_of_notMem ha, List.idxOf_cons_self, Nat.add_zero]
  refine ⟨by simp, ?_⟩
  rw [index, dif_pos (by simp)]
  simp only [hidx]

/-- Elements behind the inorder list of the tree do not matter. -/
theorem buildTreeWith_traversals (extra : ℕ) (t : TreeNode α) (h : (inorder t).Nodup)
    (surplus : List α) : buildTreeWith extra (preorder t) (inorder t ++ surplus) = .ok t := by
  induction t generalizing surplus with
  | nil => rw [preorder, buildTreeWith]
  | node a l r ihl ihr =>
    obtain ⟨ha, hl, hr⟩ := nodup_inorder_node h
    obtain ⟨hlt, hindex⟩ := index_root ha (inorder r ++ surplus)
    have hin : inorder (node a l r) ++ surplus = inorder l ++ a :: (inorder r ++ surplus) := by
      rw [inorder, List.append_assoc, List.cons_append]
    -- the preorder slice of the left subtree is exact, its inorder slice may end with the root
    have hpre : slice (a :: (preorder l ++ preorder r)) 1 ((inorder l).length + 1) = preorder l := by
      rw [slice, List.take_succ_cons, ← length_preorder, List.take_left]
      rfl
    have hrest : (a :: (preorder l ++ preorder r)).drop ((inorder l).length + 1) = preorder r := by
      rw [List.drop_succ_cons, ← length_preorder, List.drop_left]
    have hleft : (inorder l ++ a :: (inorder r ++ surplus)).take ((inorder l).length + extra) =
        inorder l ++ (a :: (inorder r ++ surplus)).take extra := List.take_length_add_append _
    have hright : (inorder l ++ a :: (inorder r ++ surplus)).drop ((inorder l).length + 1) = inorder r ++ surplus := by
      rw [List.drop_length_add_append, List.drop_one, List.tail_cons]
    rw [hin, preorder, buildTreeWith, hindex]
    simp only [bind, Except.bind, hpre, hrest, hleft, hright, ihl hl, ihr hr]
    rfl
/-- A call that finds its root, from the calls for the two subtrees. -/
theorem postorder_buildTree_root {inorder postorder : List α} {a : α} {i : Fin inorder.length} {l r : TreeNode α}
    (hlast : postorder.getLast? = some a) (hindex : index inorder a = .ok i)
    (hl : Postorder.buildTree (inorder.take i) (postorder.take i) = .ok l)
    (hr : Postorder.buildTree (inorder.drop (i + 1)) (slice postorder i (postorder.length - 1)) = .ok r) :
    Postorder.buildTree inorder postorder = .ok (node a l r) := by
  cases inorder with
  | nil => exact i.elim0
  | cons b inorder =>
    rw [Postorder.buildTree, hlast]
    simp only [hindex, hl, hr, bind, Except.bind]
    rfl

theorem postorder_buildTree_traversals (t : TreeNode α) (h : (inorder t).Nodup) :
    Postorder.buildTree (inorder t) (postorder t) = .ok t := by
  induction t with
  | nil => rw [inorder, Postorder.buildTree]
  | node a l r ihl ihr =>
    obtain ⟨ha, hl, hr⟩ := nodup_inorder_node h
    obtain ⟨hlt, hindex⟩ := index_root ha (inorder r)
    have hlast : (postorder (node a l r)).getLast? = some a := List.getLast?_concat
    have hpost : (postorder (node a l r)).take (inorder l).length = postorder l := by
      rw [postorder, List.append_assoc, ← length_postorder, List.take_left]
    have hrest : slice (postorder (node a l r)) (inorder l).length ((postorder (node a l r)).length - 1) =
        postorder r := by
      rw [slice, postorder, List.length_append, List.length_singleton, Nat.add_sub_cancel, List.take_left,
        ← length_postorder, List.drop_left]
    have hleft : (inorder l ++ a :: inorder r).take (inorder l).length = inorder l := List.take_left
    have hright : (inorder l ++ a :: inorder r).drop ((inorder l).length + 1) = inorder r := by
      rw [List.drop_length_add_append, List.drop_one, List.tail_cons]
    rw [inorder]
    refine postorder_buildTree_root hlast hindex ?_ ?_
    · rw [hleft, hpost, ihl hl]
    · rw [hright, hrest, ihr hr]

/-- Each of the three functions gives back the tree whose traversals it is given, if its values are distinct. -/
theorem buildTree_traversals (t : TreeNode α) (h : (inorder t).Nodup) :
    Preorder.buildTree (preorder t) (inorder t) = .ok t ∧ Offer.buildTree (preorder t) (inorder t) = .ok t ∧
      Postorder.buildTree (inorder t) (postorder t) = .ok t := by
  have hwith : ∀ extra, buildTreeWith extra (preorder t) (inorder t) = .ok t := by
    intro extra
    have hsurplus := buildTreeWith_traversals extra t h []
    rwa [List.append_nil] at hsurplus
  exact ⟨hwith 1, hwith 0, postorder_buildTree_traversals t h⟩

theorem buildTree_traversals_three :
    let t : TreeNode ℕ := node 3 (node 9 nil nil) (node 20 (node 15 nil nil) (node 7 nil nil))
    Preorder.buildTree [3, 9, 20, 15, 7] [9, 3, 15, 20, 7] = .ok t ∧
      Offer.buildTree [3, 9, 20, 15, 7] [9, 3, 15, 20, 7] = .ok t ∧
      Postorder.buildTree [9, 3, 15, 20, 7] [9, 15, 7, 20, 3] = .ok t :=
  buildTree_traversals (node 3 (node 9 nil nil) (node 20 (node 15 nil nil) (node 7 nil nil))) (by decide)

end GoodGoodStudy.LeetCode.BuildTree
