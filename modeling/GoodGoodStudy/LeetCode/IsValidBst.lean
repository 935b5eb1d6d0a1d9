/-
The three `isValidBST` of the exercise 98: a walk through the tree in order, with a stack and the value that came
before, and two recursions that pass down the bounds between which the values of a subtree must lie.
-/
import GoodGoodStudy.Lib.Loop
import GoodGoodStudy.Lib.SearchTree

namespace GoodGoodStudy.LeetCode.IsValidBst

open GoodGoodStudy.Lib BinaryTree

/-- A node with its value and its children; `nil` is `None`. -/
abbrev TreeNode := BinaryTree ℤ

/-- An integer, `float('-inf')` or `float('inf')`. -/
inductive Extended
  | negInf
  | int (v : ℤ)
  | inf
  deriving DecidableEq, Repr

namespace Extended

instance : Coe ℤ Extended := ⟨int⟩

protected def Lt : Extended → Extended → Prop
  | negInf, int _ => True
  | negInf, inf => True
  | int v, int w => v < w
  | int _, inf => True
  | _, _ => False

instance : LT Extended := ⟨Extended.Lt⟩

instance : DecidableRel Extended.Lt
  | negInf, negInf => isFalse id
  | negInf, int _ => isTrue trivial
  | negInf, inf => isTrue trivial
  | int _, negInf => isFalse id
  | int v, int w => inferInstanceAs (Decidable (v < w))
  | int _, inf => isTrue trivial
  | inf, _ => isFalse id

instance (a b : Extended) : Decidable (a < b) := inferInstanceAs (Decidable (Extended.Lt a b))

/-- Numbers are compared, and none of them is `nan`. -/
instance : LE Extended := ⟨fun a b => ¬ b < a⟩

instance (a b : Extended) : Decidable (a ≤ b) := inferInstanceAs (Decidable (¬ b < a))

protected theorem not_le {a b : Extended} : ¬ a ≤ b ↔ b < a := not_not

protected theorem lt_trans : ∀ {a b c : Extended}, a < b → b < c → a < c
  | int _, int _, int _, h, h' => Int.lt_trans h h'
  | negInf, int _, int _, _, _ => trivial
  | negInf, int _, inf, _, _ => trivial
  | int _, int _, inf, _, _ => trivial

instance : IsTrans Extended (· < ·) := ⟨fun _ _ _ => Extended.lt_trans⟩

end Extended

open Extended

/-! ## The walk with a stack -/

namespace Solution

/-- What is read of a node on the stack: its value and its right child. The top of the stack comes first. -/
abbrev Stack := List (ℤ × TreeNode)

/-- `while root: stack.append(root); root = root.left` -/
def descend : TreeNode → Stack → Stack
  | nil, stack => stack
  | node v l r, stack => descend l ((v, r) :: stack)

/-- A round of `while stack or root`, with `inorder`. `none` would be a `pop` from an empty stack. -/
def round : TreeNode × Stack × Extended → Round (TreeNode × Stack × Extended) (Option Bool)
  | (root, stack, inorder) =>
    if stack ≠ [] ∨ root ≠ nil then
      match descend root stack with
      | [] => .leave none
      | (v, right) :: stack => if int v ≤ inorder then .leave (some false) else .again (right, stack, v)
    else .leave (some true)

def isValidBST (root : TreeNode) (fuel : ℕ) : Option (Option Bool) := loop round fuel (root, [], negInf)

end Solution

/-! ## The recursions -/

namespace Solution2

def dfs : TreeNode → Extended → Extended → Bool
  | nil, _, _ => true
  | node v l r, left, right =>
    if left < int v ∧ int v < right then dfs l left v && dfs r v right else false

def isValidBST (root : TreeNode) : Bool := dfs root negInf inf

end Solution2

namespace Solution3

def helper : TreeNode → Extended → Extended → Bool
  | nil, _, _ => true
  | node v l r, lower, upper =>
    if int v ≤ lower ∨ upper ≤ int v then false
    else if !helper l lower v then false
    else if !helper r v upper then false
    else true

def isValidBST (root : TreeNode) : Bool := helper root negInf inf

end Solution3

/-! ## The values that the walk has still to come to -/

namespace Solution

def toCome (root : TreeNode) (stack : Stack) : List ℤ := inorder root ++ stack.flatMap fun e => e.1 :: inorder e.2

theorem toCome_descend (root : TreeNode) (stack : Stack) : toCome nil (descend root stack) = toCome root stack := by
  induction root generalizing stack with
  | nil => rfl
  | node v l r ihl _ =>
    rw [descend, ihl]
    simp [toCome, inorder]

/-- The next value, and those behind it. -/
theorem descend_cases (root : TreeNode) (stack : Stack) :
    (stack = [] ∧ root = nil) ∨ ((stack ≠ [] ∨ root ≠ nil) ∧ ∃ v right stack',
      descend root stack = (v, right) :: stack' ∧ toCome root stack = v :: toCome right stack') := by
  cases hd : descend root stack with
  | nil =>
    have hnone : toCome root stack = [] := by rw [← toCome_descend, hd]; rfl
    left
    cases stack with
    | cons e stack => simp [toCome] at hnone
    | nil =>
      cases root with
      | nil => exact ⟨rfl, rfl⟩
      | node v l r => simp [toCome, inorder] at hnone
  | cons e stack' =>
    refine Or.inr ⟨?_, e.1, e.2, stack', rfl, ?_⟩
    · by_contra hnot
      rw [not_or, not_not, not_not] at hnot
      rw [hnot.1, hnot.2] at hd
      cases hd
    · rw [← toCome_descend, hd]
      rfl

/-- The walk finds out whether the values that come are increasing, from the one before on. -/
theorem loop_round (l : List ℤ) (root : TreeNode) (stack : Stack) (before : Extended) (hl : toCome root stack = l) :
    ∃ b, Returns (fun fuel => loop round fuel (root, stack, before)) (some b) ∧
      (b = true ↔ (before :: l.map fun v : ℤ => int v).IsChain (· < ·)) := by
  induction l generalizing root stack before with
  | nil =>
    rcases descend_cases root stack with ⟨rfl, rfl⟩ | ⟨-, v, right, stack', -, hcome⟩
    · exact ⟨true, Returns.leave (by simp [round]), iff_of_true rfl (.singleton before)⟩
    · rw [hl] at hcome
      cases hcome
  | cons x l ih =>
    rcases descend_cases root stack with ⟨rfl, rfl⟩ | ⟨hgo, v, right, stack', hd, hcome⟩
    · cases hl
    · obtain ⟨rfl, rfl⟩ := List.cons.inj (hl.symm.trans hcome)
      rw [List.map_cons, List.isChain_cons_cons]
      by_cases hle : int x ≤ before
      · refine ⟨false, Returns.leave ?_, iff_of_false Bool.false_ne_true fun h => hle h.1⟩
        simp only [round, if_pos hgo, hd, if_pos hle]
      · obtain ⟨b, hreturns, hb⟩ := ih right stack' x rfl
        refine ⟨b, Returns.again ?_ hreturns, ?_⟩
        · simp only [round, if_pos hgo, hd, if_neg hle]
        · rw [hb]
          exact (and_iff_right (Extended.not_le.1 hle)).symm

theorem isValidBST_returns (root : TreeNode) :
    ∃ b, Returns (isValidBST root) (some b) ∧ (b = true ↔ SearchTree root) := by
  obtain ⟨b, hreturns, hb⟩ := loop_round (inorder root) root [] negInf (by simp [toCome])
  refine ⟨b, hreturns, hb.trans ?_⟩
  rw [searchTree_iff_inorder, List.isChain_iff_pairwise, List.pairwise_cons, List.pairwise_map]
  refine and_iff_right fun b hb => ?_
  obtain ⟨v, -, rfl⟩ := List.mem_map.1 hb
  exact trivial

end Solution

/-! ## The bounds -/

/-- The values of a subtree lie between two bounds. -/
def Within (root : TreeNode) (left right : Extended) : Prop := ∀ v ∈ keys root, left < int v ∧ int v < right

theorem searchTree_within_node {v : ℤ} {l r : TreeNode} {left right : Extended} :
    SearchTree (node v l r) ∧ Within (node v l r) left right ↔ (left < int v ∧ int v < right) ∧
      (SearchTree l ∧ Within l left v) ∧ SearchTree r ∧ Within r v right := by
  constructor
  · rintro ⟨⟨hleft, hright, hl, hr⟩, h⟩
    refine ⟨h v (by simp), ⟨hl, fun w hw => ⟨(h w (by simp [hw])).1, ?_⟩⟩, hr, fun w hw => ⟨?_, (h w (by simp [hw])).2⟩⟩
    · exact hleft w hw
    · exact hright w hw
  · rintro ⟨⟨hlv, hvr⟩, ⟨hl, hwl⟩, hr, hwr⟩
    refine ⟨⟨fun w hw => ?_, fun w hw => ?_, hl, hr⟩, fun w hw => ?_⟩
    · exact (hwl w hw).2
    · exact (hwr w hw).1
    · rcases mem_keys_node.1 hw with rfl | hw | hw
      · exact ⟨hlv, hvr⟩
      · exact ⟨(hwl w hw).1, Extended.lt_trans (hwl w hw).2 hvr⟩
      · exact ⟨Extended.lt_trans hlv (hwr w hw).1, (hwr w hw).2⟩

theorem Solution2.dfs_iff (root : TreeNode) (left right : Extended) :
    dfs root left right = true ↔ SearchTree root ∧ Within root left right := by
  induction root generalizing left right with
  | nil => simp [dfs, Within]
  | node v l r ihl ihr =>
    rw [searchTree_within_node, ← ihl, ← ihr, dfs]
    split_ifs with hv
    · simp [hv]
    · simp [hv]

theorem Solution3.helper_eq (root : TreeNode) (lower upper : Extended) :
    helper root lower upper = Solution2.dfs root lower upper := by
  induction root generalizing lower upper with
  | nil => rfl
  | node v l r ihl ihr =>
    have hout : (int v ≤ lower ∨ upper ≤ int v) ↔ ¬ (lower < int v ∧ int v < upper) := by
      rw [not_and_or]
      exact Iff.rfl
    rw [helper, Solution2.dfs, ihl, ihr]
    by_cases hv : lower < int v ∧ int v < upper
    · rw [if_neg (mt hout.1 (not_not.2 hv)), if_pos hv]
      cases Solution2.dfs l lower v <;> cases Solution2.dfs r v upper <;> rfl
    · rw [if_pos (hout.2 hv), if_neg hv]

/-- The three functions return, and what they say is whether every node is greater than all nodes to its left and
smaller than all nodes to its right. -/
theorem isValidBST_agree (root : TreeNode) : ∃ b, Returns (Solution.isValidBST root) (some b) ∧
    Solution2.isValidBST root = b ∧ Solution3.isValidBST root = b ∧ (b = true ↔ SearchTree root) := by
  obtain ⟨b, hreturns, hb⟩ := Solution.isValidBST_returns root
  have hwithin : Within root negInf inf := fun v _ => ⟨trivial, trivial⟩
  have hdfs : Solution2.isValidBST root = b := by
    rw [Bool.eq_iff_iff, hb, Solution2.isValidBST, Solution2.dfs_iff, and_iff_left hwithin]
  exact ⟨b, hreturns, hdfs, (Solution3.helper_eq root _ _).trans hdfs, hb⟩

/-- Each child is on the right side of its parent, and the leaf on the wrong side of the root. -/
example : Solution.isValidBST (node 5 (node 1 nil nil) (node 6 (node 3 nil nil) nil)) 5 = some (some false) := by
  decide

end GoodGoodStudy.LeetCode.IsValidBst
