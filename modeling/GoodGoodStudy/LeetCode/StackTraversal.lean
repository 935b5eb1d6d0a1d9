/-
The three depth-first traversals of the exercise 94, with a stack of the nodes whose other child is still to be
visited. The post-order walk goes to the right first, and its result is reversed.
-/
import GoodGoodStudy.Lib.Loop
import GoodGoodStudy.Lib.Traversal

namespace GoodGoodStudy.LeetCode.StackTraversal

open GoodGoodStudy.Lib BinaryTree

variable {α : Type*}

/-- The child to which a walk goes first. -/
inductive Side
  | left
  | right

def Side.far : Side → BinaryTree α → BinaryTree α → BinaryTree α
  | left, _, r => r
  | right, l, _ => l

/-- When `res.append` is called: as a node is put on the stack, or as it is popped. -/
inductive Moment
  | push
  | pop

def Moment.onPush : Moment → α → List α
  | push, a => [a]
  | pop, _ => []

def Moment.onPop : Moment → α → List α
  | push, _ => []
  | pop, a => [a]

/-- The nodes on the stack, with their values and their two children. The top comes first. -/
abbrev Stack (α : Type*) := List (α × BinaryTree α × BinaryTree α)

variable (side : Side) (moment : Moment)

/-- `while cur` -/
def descend : BinaryTree α → Stack α → List α → Stack α × List α
  | nil, stack, res => (stack, res)
  | node a l r, stack, res =>
    match side with
    | .left => descend l ((a, l, r) :: stack) (res ++ moment.onPush a)
    | .right => descend r ((a, l, r) :: stack) (res ++ moment.onPush a)

/-- A round of `while stack or cur`. `none` would be a `pop` from an empty stack. -/
def round : BinaryTree α × Stack α × List α → Round (BinaryTree α × Stack α × List α) (Option (List α))
  | (nil, [], res) => .leave (some res)
  | (cur, stack, res) =>
    match descend side moment cur stack res with
    | ([], _) => .leave none
    | ((a, l, r) :: stack, res) => .again (side.far l r, stack, res ++ moment.onPop a)

def traversal (root : BinaryTree α) (fuel : ℕ) : Option (Option (List α)) :=
  loop (round side moment) fuel (root, [], [])

def preorderTraversal (root : BinaryTree α) : ℕ → Option (Option (List α)) := traversal .left .push root

/-- `return res[::-1]` -/
def postorderTraversal (root : BinaryTree α) (fuel : ℕ) : Option (Option (List α)) :=
  (traversal .right .push root fuel).map fun res => res.map List.reverse

def inorderTraversal (root : BinaryTree α) : ℕ → Option (Option (List α)) := traversal .left .pop root

/-! ## What a walk has still to append -/

/-- The values of a tree in the order in which a walk appends them. -/
def order : BinaryTree α → List α
  | nil => []
  | node a l r =>
    match side with
    | .left => moment.onPush a ++ (order l ++ (moment.onPop a ++ order r))
    | .right => moment.onPush a ++ (order r ++ (moment.onPop a ++ order l))

def owed (cur : BinaryTree α) (stack : Stack α) : List α :=
  order side moment cur ++ stack.flatMap fun e => moment.onPop e.1 ++ order side moment (side.far e.2.1 e.2.2)

@[simp] theorem owed_nil (stack : Stack α) : owed side moment nil stack =
    stack.flatMap fun e => moment.onPop e.1 ++ order side moment (side.far e.2.1 e.2.2) := rfl

theorem owed_descend (cur : BinaryTree α) (stack : Stack α) (res : List α) :
    (descend side moment cur stack res).2 ++ owed side moment nil (descend side moment cur stack res).1 =
      res ++ owed side moment cur stack := by
  induction cur generalizing stack res with
  | nil => rfl
  | node a l r ihl ihr =>
    cases side with
    | left =>
      unfold descend
      rw [ihl]
      simp [owed, order, Side.far]
    | right =>
      unfold descend
      rw [ihr]
      simp [owed, order, Side.far]

/-- The nodes that are still to be popped are the same ones. -/
theorem pops_descend (cur : BinaryTree α) (stack : Stack α) (res : List α) :
    owed side .pop nil (descend side moment cur stack res).1 = owed side .pop cur stack := by
  induction cur generalizing stack res with
  | nil => rfl
  | node a l r ihl ihr =>
    cases side with
    | left =>
      unfold descend
      rw [ihl]
      simp [owed, order, Side.far, Moment.onPush, Moment.onPop]
    | right =>
      unfold descend
      rw [ihr]
      simp [owed, order, Side.far, Moment.onPush, Moment.onPop]

/-- What a round does: it ends the walk when nothing is owed, and otherwise pops a node. -/
theorem round_cases (cur : BinaryTree α) (stack : Stack α) (res : List α) :
    (round side moment (cur, stack, res) = .leave (some res) ∧ owed side moment cur stack = []) ∨
      ∃ cur' stack' res', round side moment (cur, stack, res) = .again (cur', stack', res') ∧
        res' ++ owed side moment cur' stack' = res ++ owed side moment cur stack ∧
        (owed side .pop cur' stack').length + 1 = (owed side .pop cur stack).length := by
  have howed := owed_descend side moment cur stack res
  have hpops := pops_descend side moment cur stack res
  unfold round
  split
  · rename_i h
    cases h
    exact .inl ⟨rfl, rfl⟩
  · rename_i cur₁ stack₁ res₁ hgo h
    cases h
    right
    cases hd : descend side moment cur stack res with
    | mk stack' res' =>
      rw [hd] at howed hpops
      cases stack' with
      | nil =>
        cases cur with
        | nil =>
          cases stack with
          | nil => exact (hgo rfl rfl).elim
          | cons e stack => simp [Moment.onPop] at hpops
        | node a l r => cases side <;> simp [owed, order, Moment.onPop] at hpops
      | cons e stack' =>
        obtain ⟨a, l, r⟩ := e
        refine ⟨_, _, _, rfl, ?_, ?_⟩
        · rw [← howed]
          simp [owed, order]
        · rw [← hpops]
          simp [owed, order, Moment.onPop]

theorem traversal_returns (root : BinaryTree α) :
    Returns (traversal side moment root) (some (order side moment root)) := by
  obtain ⟨r, hreturns, hr⟩ : ∃ r, Returns (traversal side moment root) r ∧ r = some (order side moment root) :=
    Returns.loop_of_measure (fun s => (owed side .pop s.1 s.2.1).length)
    (I := fun s => s.2.2 ++ owed side moment s.1 s.2.1 = order side moment root) (fun s hs => by
      obtain ⟨cur, stack, res⟩ := s
      rcases round_cases side moment cur stack res with ⟨hleave, hnone⟩ | ⟨cur', stack', res', hagain, howed, hpops⟩
      · refine .inr ⟨some res, hleave, ?_⟩
        rw [← hs, hnone, List.append_nil]
      · exact .inl ⟨(cur', stack', res'), hagain, howed.trans hs, Nat.lt_of_succ_le hpops.le⟩)
    (s := (root, [], [])) (by simp [owed])
  exact hr ▸ hreturns

/-! ## The three orders -/

theorem order_left_push (root : BinaryTree α) : order .left .push root = preorder root := by
  induction root with
  | nil => rfl
  | node a l r ihl ihr =>
    unfold order preorder
    rw [ihl, ihr]
    rfl

theorem order_left_pop (root : BinaryTree α) : order .left .pop root = inorder root := by
  induction root with
  | nil => rfl
  | node a l r ihl ihr =>
    unfold order inorder
    rw [ihl, ihr]
    rfl

theorem order_right_push (root : BinaryTree α) : (order .right .push root).reverse = postorder root := by
  induction root with
  | nil => rfl
  | node a l r ihl ihr =>
    unfold order postorder
    rw [← ihl, ← ihr]
    simp [Moment.onPush, Moment.onPop]

/-- The three walks end, and their results are those of the recursive traversals. -/
theorem traversals_return (root : BinaryTree α) :
    Returns (preorderTraversal root) (some (preorder root)) ∧
      Returns (postorderTraversal root) (some (postorder root)) ∧
      Returns (inorderTraversal root) (some (inorder root)) := by
  refine ⟨?_, ?_, ?_⟩
  · rw [← order_left_push]
    exact traversal_returns .left .push root
  · rw [← order_right_push]
    exact (traversal_returns .right .push root).map fun res => res.map List.reverse
  · rw [← order_left_pop]
    exact traversal_returns .left .pop root

end GoodGoodStudy.LeetCode.StackTraversal
