/-
The two methods of the exercise 54 of the second collection that look for the `k`-th largest value of a binary search
tree. `kthLargest` appends the values of the tree to a list of the class, which no call clears and all objects share,
and takes the `k`-th element from its end; `kthLargest2` counts down in an attribute of the object and stops at zero.
-/
import Mathlib.Data.List.Sort
import GoodGoodStudy.Lib.Run
import GoodGoodStudy.Lib.SearchTree
import GoodGoodStudy.Lib.Sequence

namespace GoodGoodStudy.LeetCode.KthLargest

open GoodGoodStudy.Lib BinaryTree

/-- A node with its value and its children; `nil` is `None`. -/
abbrev TreeNode := BinaryTree ℤ

/-- What `kthLargest2` sets on an object. `ans` is not there before a first value was found. -/
structure Attrs where
  k : ℤ := 0
  ans : Option ℤ := none

/-- The list of the class, and the attributes of every object. -/
structure State where
  res : List ℤ := []
  objects : ℕ → Attrs := fun _ => {}

/-! ## The methods -/

def inorder : TreeNode → List ℤ → List ℤ
  | nil, res => res
  | node v l r, res => inorder r (inorder l res ++ [v])

/-- `none` is an index out of range. -/
def kthLargest (s : State) (root : TreeNode) (k : ℕ) : Option (State × ℤ) :=
  let s := { s with res := inorder root s.res }
  (item? s.res (-k)).map fun v => (s, v)

def dfs : TreeNode → Attrs → Attrs
  | nil, self => self
  | node v l r, self =>
    let self := dfs r self
    if self.k = 0 then self
    else
      let self := { self with k := self.k - 1 }
      dfs l (if self.k = 0 then { self with ans := some v } else self)

/-- `none` is an attribute that is not there. -/
def kthLargest2 (s : State) (object : ℕ) (root : TreeNode) (k : ℕ) : Option (State × ℤ) :=
  let self := dfs root { s.objects object with k := k }
  self.ans.map fun v => ({ s with objects := Function.update s.objects object self }, v)

inductive Method
  | kthLargest
  | kthLargest2
  deriving DecidableEq, Repr

structure Call where
  method : Method
  object : ℕ
  root : TreeNode
  k : ℕ

def call (s : State) (c : Call) : Option (State × ℤ) :=
  match c.method with
  | .kthLargest => kthLargest s c.root c.k
  | .kthLargest2 => kthLargest2 s c.object c.root c.k

/-! ## What the methods return -/

/-- The values of the tree in descending order have `v` at the `k`-th place, counted from one. -/
def IsKthLargest (root : TreeNode) (k : ℕ) (v : ℤ) : Prop :=
  ((preorder root).insertionSort (· ≥ ·))[k - 1]? = some v

theorem preorder_perm_inorder (t : TreeNode) : (preorder t).Perm (Lib.inorder t) := by
  induction t with
  | nil => exact .refl []
  | node v l r ihl ihr => exact ((ihl.append ihr).cons v).trans List.perm_middle.symm

/-- From right to left a search tree is descending. -/
theorem isKthLargest_iff {root : TreeNode} (h : WeakSearchTree root) (k : ℕ) (v : ℤ) :
    IsKthLargest root k v ↔ (Lib.inorder root).reverse[k - 1]? = some v := by
  have hdesc : (Lib.inorder root).reverse.Pairwise (· ≥ ·) :=
    List.pairwise_reverse.2 (weakSearchTree_iff_inorder.1 h)
  have hperm : ((preorder root).insertionSort (· ≥ ·)).Perm (Lib.inorder root).reverse :=
    (List.perm_insertionSort _ _).trans ((preorder_perm_inorder root).trans (List.reverse_perm _).symm)
  rw [IsKthLargest, hperm.eq_of_pairwise' (List.pairwise_insertionSort _ _) hdesc]

theorem inorder_eq (t : TreeNode) (res : List ℤ) : inorder t res = res ++ Lib.inorder t := by
  induction t generalizing res with
  | nil => exact (List.append_nil res).symm
  | node v l r ihl ihr => rw [inorder, ihr, ihl, Lib.inorder, List.append_assoc, List.append_assoc]; rfl

theorem length_inorder (t : TreeNode) : (Lib.inorder t).length = t.numNodes := by
  induction t with
  | nil => rfl
  | node v l r ihl ihr =>
    rw [Lib.inorder, List.length_append, List.length_cons, ihl, ihr, numNodes]
    omega

theorem exists_reverse_getElem? {root : TreeNode} {k : ℕ} (hpos : 0 < k) (hk : k ≤ root.numNodes) :
    ∃ v, (Lib.inorder root).reverse[k - 1]? = some v := by
  rw [← length_inorder] at hk
  exact ⟨_, List.getElem?_eq_getElem (by rw [List.length_reverse]; omega)⟩

/-- What earlier calls have left in the list stands before the values of the tree. -/
theorem kthLargest_spec (s : State) {root : TreeNode} {k : ℕ} (hpos : 0 < k) (hk : k ≤ root.numNodes) {v : ℤ}
    (hv : (Lib.inorder root).reverse[k - 1]? = some v) : ∃ s', kthLargest s root k = some (s', v) := by
  rw [← length_inorder] at hk
  have hlen : k ≤ (s.res ++ Lib.inorder root).length := by
    rw [List.length_append]
    omega
  refine ⟨{ s with res := inorder root s.res }, ?_⟩
  rw [kthLargest]
  simp only [inorder_eq, item?_neg hpos hlen, List.reverse_append]
  rw [List.getElem?_append_left (by rw [List.length_reverse]; omega), hv]
  rfl

/-- What `dfs` does at one node. -/
def visit (self : Attrs) (v : ℤ) : Attrs :=
  if self.k = 0 then self else { k := self.k - 1, ans := if self.k - 1 = 0 then some v else self.ans }

theorem foldl_visit_zero {self : Attrs} (h : self.k = 0) (xs : List ℤ) : xs.foldl visit self = self := by
  induction xs with
  | nil => rfl
  | cons v xs ih => rw [List.foldl_cons, visit, if_pos h, ih]

/-- The nodes are visited from right to left. -/
theorem dfs_eq (t : TreeNode) (self : Attrs) : dfs t self = (Lib.inorder t).reverse.foldl visit self := by
  induction t generalizing self with
  | nil => rfl
  | node v l r ihl ihr =>
    rw [Lib.inorder, List.reverse_append, List.reverse_cons, List.append_assoc, List.foldl_append, List.foldl_append,
      ← ihr, ← ihl, dfs, List.foldl_cons, List.foldl_nil]
    by_cases hk : (dfs r self).k = 0
    · rw [if_pos hk, visit, if_pos hk, ihl, foldl_visit_zero hk]
    · rw [if_neg hk, visit, if_neg hk]
      by_cases hone : (dfs r self).k - 1 = 0
      · simp only [if_pos hone]
      · simp only [if_neg hone]

theorem ans_foldl_visit {xs : List ℤ} {k : ℕ} (hpos : 0 < k) (hk : k ≤ xs.length) (ans : Option ℤ) :
    (xs.foldl visit ⟨k, ans⟩).ans = xs[k - 1]? := by
  induction xs generalizing k ans with
  | nil => exact absurd hk (Nat.not_le.2 hpos)
  | cons v xs ih =>
    have hne : (k : ℤ) ≠ 0 := by omega
    rw [List.foldl_cons, visit, if_neg hne]
    obtain ⟨j, rfl⟩ : ∃ j, k = j + 1 := ⟨k - 1, by omega⟩
    have hj : ((j + 1 : ℕ) : ℤ) - 1 = j := by omega
    rw [hj, Nat.add_sub_cancel]
    rcases Nat.eq_zero_or_pos j with rfl | hj
    · rw [foldl_visit_zero rfl]
      rfl
    · rw [if_neg (by omega), ih hj (Nat.le_of_succ_le_succ hk), ← List.getElem?_cons_succ (a := v),
        Nat.sub_add_cancel hj]

theorem kthLargest2_spec (s : State) (object : ℕ) {root : TreeNode} {k : ℕ} (hpos : 0 < k) (hk : k ≤ root.numNodes)
    {v : ℤ} (hv : (Lib.inorder root).reverse[k - 1]? = some v) :
    ∃ s', kthLargest2 s object root k = some (s', v) := by
  have hans : (dfs root { s.objects object with k := k }).ans = some v := by
    rw [dfs_eq, ans_foldl_visit hpos (by rw [List.length_reverse, length_inorder]; exact hk), hv]
  exact ⟨_, by rw [kthLargest2, hans]; rfl⟩

/-- In every sequence of calls of the two methods, on any objects and from any state that earlier calls have left, every
call returns the `k`-th largest value of its own tree. -/
theorem kthLargest_calls (s : State) {calls : List Call}
    (h : ∀ c ∈ calls, WeakSearchTree c.root ∧ 1 ≤ c.k ∧ c.k ≤ c.root.numNodes) :
    ∃ s' answers, runOut call s calls = some (s', answers) ∧
      List.Forall₂ (fun c v => IsKthLargest c.root c.k v) calls answers := by
  refine runOut_forall₂ (fun c hc s => ?_) s
  obtain ⟨htree, hpos, hk⟩ := h c hc
  obtain ⟨v, hv⟩ := exists_reverse_getElem? hpos hk
  rw [call]
  cases c.method with
  | kthLargest =>
    obtain ⟨s', heq⟩ := kthLargest_spec s hpos hk hv
    exact ⟨s', v, heq, (isKthLargest_iff htree c.k v).2 hv⟩
  | kthLargest2 =>
    obtain ⟨s', heq⟩ := kthLargest2_spec s c.object hpos hk hv
    exact ⟨s', v, heq, (isKthLargest_iff htree c.k v).2 hv⟩

/-- The second call finds the value of the first tree in the list. -/
theorem kthLargest_calls_two :
    let calls : List Call := [⟨.kthLargest, 0, node 7 nil nil, 1⟩, ⟨.kthLargest, 1, node 2 (node 1 nil nil) nil, 2⟩,
      ⟨.kthLargest2, 1, node 2 (node 1 nil nil) nil, 2⟩]
    ∃ s' answers, runOut call {} calls = some (s', answers) ∧
      List.Forall₂ (fun c v => IsKthLargest c.root c.k v) calls answers :=
  kthLargest_calls {} (by simp [WeakSearchTree, numNodes])

end GoodGoodStudy.LeetCode.KthLargest
