/-
The three classes of the exercise 112 that ask whether the values on some way from the root to a leaf have a given sum:
a recursion that takes the values off the sum, a breadth-first search with two queues side by side, and a depth-first
search that raises a flag of the object when it has found a path. No call lowers the flag again.
-/
import Mathlib.Algebra.GroupWithZero.Nat
import Mathlib.Algebra.Ring.Int.Defs
import Mathlib.Data.Tree.Basic
import GoodGoodStudy.Lib.Loop
import GoodGoodStudy.Lib.Run

namespace GoodGoodStudy.LeetCode.HasPathSum

open GoodGoodStudy.Lib BinaryTree

/-- A node with its value and its children; `nil` is `None`. -/
abbrev TreeNode := BinaryTree ℤ

/-! ## The three classes -/

def Solution.hasPathSum : TreeNode → ℤ → Bool
  | nil, _ => false
  | node v nil nil, sum => decide (sum = v)
  | node v l r, sum => hasPathSum l (sum - v) || hasPathSum r (sum - v)

namespace Solution2

/-- `if child: queue.append(child); all_res.append(res + child.val)` -/
def append (res : ℤ) : TreeNode → List TreeNode × List ℤ → List TreeNode × List ℤ
  | nil, queues => queues
  | node v l r, (queue, allRes) => (queue ++ [node v l r], allRes ++ [res + v])

/-- A round of `while queue`. `none` is an error: `None` has no attributes, and there is nothing to take from an empty
queue. -/
def round (sum : ℤ) : List TreeNode × List ℤ → Round (List TreeNode × List ℤ) (Option Bool)
  | ([], _) => .leave (some false)
  | (node _ l r :: queue, res :: allRes) =>
    if l = nil ∧ r = nil ∧ res = sum then .leave (some true)
    else .again (append res r (append res l (queue, allRes)))
  | (_ :: _, _) => .leave none

def hasPathSum (root : TreeNode) (sum : ℤ) (fuel : ℕ) : Option (Option Bool) :=
  match root with
  | nil => some (some false)
  | node v l r => loop (round sum) fuel ([node v l r], [v])

end Solution2

namespace Solution3

/-- The call `dfs(child, path + child.val)` for a child that is not `None`. -/
def descend (dfs : ℤ → Bool → Bool) (path : ℤ) : TreeNode → Bool → Bool
  | nil, flag => flag
  | node v _ _, flag => dfs (path + v) flag

/-- `dfs(root, path)`, with `self.flag` before and after the call. -/
def dfs (sum : ℤ) : TreeNode → ℤ → Bool → Bool
  | nil, _, flag => flag
  | node _ l r, path, flag =>
    if flag then flag
    else
      let flag := if l = nil ∧ r = nil ∧ path = sum then true else flag
      let flag := descend (dfs sum l) path l flag
      descend (dfs sum r) path r flag

/-- `self.flag` after the call, and the result. -/
def hasPathSum (flag : Bool) : TreeNode × ℤ → Bool × Bool
  | (nil, _) => (flag, false)
  | (node v l r, sum) =>
    let flag := dfs sum (node v l r) v flag
    (flag, flag)

end Solution3

/-! ## Ways from the root to a leaf -/

/-- The values on a way from the root to a leaf. -/
inductive RootToLeaf : TreeNode → List ℤ → Prop
  | leaf (v : ℤ) : RootToLeaf (node v nil nil) [v]
  | left {v : ℤ} {l r : TreeNode} {path : List ℤ} (h : RootToLeaf l path) : RootToLeaf (node v l r) (v :: path)
  | right {v : ℤ} {l r : TreeNode} {path : List ℤ} (h : RootToLeaf r path) : RootToLeaf (node v l r) (v :: path)

def HasSum (root : TreeNode) (sum : ℤ) : Prop := ∃ path, RootToLeaf root path ∧ path.sum = sum

theorem not_hasSum_nil (sum : ℤ) : ¬ HasSum nil sum := by
  rintro ⟨path, h, -⟩
  cases h

theorem hasSum_leaf {v sum : ℤ} : HasSum (node v nil nil) sum ↔ v = sum := by
  constructor
  · rintro ⟨path, h, rfl⟩
    cases h with
    | leaf => simp
    | left h => cases h
    | right h => cases h
  · rintro rfl
    exact ⟨[v], .leaf v, by simp⟩

theorem hasSum_node {v sum : ℤ} {l r : TreeNode} (hne : ¬ (l = nil ∧ r = nil)) :
    HasSum (node v l r) sum ↔ HasSum l (sum - v) ∨ HasSum r (sum - v) := by
  constructor
  · rintro ⟨path, h, rfl⟩
    cases h with
    | leaf => exact absurd ⟨rfl, rfl⟩ hne
    | left h => exact Or.inl ⟨_, h, by rw [List.sum_cons]; omega⟩
    | right h => exact Or.inr ⟨_, h, by rw [List.sum_cons]; omega⟩
  · rintro (⟨path, h, hsum⟩ | ⟨path, h, hsum⟩)
    · exact ⟨v :: path, .left h, by rw [List.sum_cons, hsum]; omega⟩
    · exact ⟨v :: path, .right h, by rw [List.sum_cons, hsum]; omega⟩

theorem Solution.hasPathSum_iff (root : TreeNode) (sum : ℤ) : hasPathSum root sum = true ↔ HasSum root sum := by
  induction root, sum using hasPathSum.induct with
  | case1 sum => exact iff_of_false Bool.false_ne_true (not_hasSum_nil sum)
  | case2 v sum => rw [hasPathSum, decide_eq_true_iff, hasSum_leaf, eq_comm]
  | case3 v l r sum hne ihl ihr =>
    have hnot : ¬ (l = nil ∧ r = nil) := fun h => hne h.1 h.2
    rw [hasPathSum, Bool.or_eq_true, ihl, ihr, hasSum_node hnot]
    exact hne

/-! ## The two queues -/

namespace Solution2

/-- What is queued of a node: the sum of the values above it, its own value, and its children. -/
structure Entry where
  above : ℤ
  val : ℤ
  left : TreeNode
  right : TreeNode

namespace Entry

def tree (e : Entry) : TreeNode := node e.val e.left e.right

/-- The queues for a list of entries. -/
def queues (es : List Entry) : List TreeNode × List ℤ := (es.map tree, es.map fun e => e.above + e.val)

def Leads (sum : ℤ) (e : Entry) : Prop := HasSum e.tree (sum - e.above)

def ofChild (above : ℤ) : TreeNode → List Entry
  | nil => []
  | node v l r => [⟨above, v, l, r⟩]

theorem append_queues (above : ℤ) (t : TreeNode) (es : List Entry) :
    append above t (queues es) = queues (es ++ ofChild above t) := by
  cases t with
  | nil => simp [append, ofChild]
  | node v l r => simp [append, ofChild, queues, tree]

theorem exists_leads_ofChild {sum above : ℤ} {t : TreeNode} :
    (∃ e ∈ ofChild above t, e.Leads sum) ↔ HasSum t (sum - above) := by
  cases t with
  | nil => exact iff_of_false (fun ⟨e, he, _⟩ => List.not_mem_nil he) (not_hasSum_nil _)
  | node v l r => simp [ofChild, Leads, tree]

def size (es : List Entry) : ℕ := (es.map fun e => e.tree.numNodes).sum

theorem size_append (es es' : List Entry) : size (es ++ es') = size es + size es' := by simp [size]

theorem size_ofChild (above : ℤ) (t : TreeNode) : size (ofChild above t) = t.numNodes := by
  cases t <;> simp [size, ofChild, tree]

end Entry

open Entry

/-- The search finds out whether one of the nodes in the queue leads to a leaf with the right sum. -/
theorem loop_round (sum : ℤ) (es : List Entry) :
    ∃ b, Returns (fun fuel => loop (round sum) fuel (queues es)) (some b) ∧ (b = true ↔ ∃ e ∈ es, e.Leads sum) := by
  induction hn : size es using Nat.strongRecOn generalizing es with
  | _ n ih =>
    cases es with
    | nil => exact ⟨false, Returns.leave rfl, iff_of_false Bool.false_ne_true fun ⟨e, he, _⟩ => List.not_mem_nil he⟩
    | cons e es =>
      obtain ⟨above, v, l, r⟩ := e
      rw [List.exists_mem_cons_iff]
      by_cases hleaf : l = nil ∧ r = nil ∧ above + v = sum
      · refine ⟨true, Returns.leave ?_, iff_of_true rfl (Or.inl ?_)⟩
        · simp only [round, queues, List.map_cons, tree, if_pos hleaf]
        · obtain ⟨rfl, rfl, hv⟩ := hleaf
          show HasSum (node v nil nil) (sum - above)
          exact hasSum_leaf.2 (by omega)
      · have hround : round sum (queues (⟨above, v, l, r⟩ :: es)) =
            .again (queues ((es ++ ofChild (above + v) l) ++ ofChild (above + v) r)) := by
          rw [← append_queues, ← append_queues]
          simp only [round, queues, List.map_cons, tree, if_neg hleaf]
        have hsize : size ((es ++ ofChild (above + v) l) ++ ofChild (above + v) r) < n := by
          rw [size_append, size_append, size_ofChild, size_ofChild, ← hn]
          simp only [size, List.map_cons, List.sum_cons, tree, numNodes]
          omega
        obtain ⟨b, hreturns, hb⟩ := ih _ hsize _ rfl
        refine ⟨b, Returns.again hround hreturns, hb.trans ?_⟩
        have hsum : sum - (above + v) = sum - above - v := by omega
        simp only [List.mem_append, or_and_right, exists_or, exists_leads_ofChild, hsum]
        rw [or_assoc, or_comm]
        refine or_congr_left ?_
        by_cases hnil : l = nil ∧ r = nil
        · obtain ⟨rfl, rfl⟩ := hnil
          refine iff_of_false (fun h => h.elim (not_hasSum_nil _) (not_hasSum_nil _)) fun h => hleaf ⟨rfl, rfl, ?_⟩
          have hv : v = sum - above := hasSum_leaf.1 h
          omega
        · exact (hasSum_node hnil).symm

theorem hasPathSum_returns (root : TreeNode) (sum : ℤ) :
    ∃ b, Returns (hasPathSum root sum) (some b) ∧ (b = true ↔ HasSum root sum) := by
  cases root with
  | nil => exact ⟨false, Returns.pure _, iff_of_false Bool.false_ne_true (not_hasSum_nil sum)⟩
  | node v l r =>
    obtain ⟨b, hreturns, hb⟩ := loop_round sum [⟨0, v, l, r⟩]
    refine ⟨b, ?_, hb.trans ?_⟩
    · show Returns (fun fuel => loop (round sum) fuel ([node v l r], [v])) (some b)
      simpa [queues, tree] using hreturns
    · simp [Entry.Leads, tree]

end Solution2

/-! ## The flag -/

namespace Solution3

theorem descend_iff {dfs : ℤ → Bool → Bool} {path sum : ℤ} {t : TreeNode}
    (h : ∀ above v l r flag, t = node v l r → (dfs (above + v) flag = true ↔ flag = true ∨ HasSum t (sum - above)))
    (flag : Bool) : descend dfs path t flag = true ↔ flag = true ∨ HasSum t (sum - path) := by
  cases t with
  | nil => exact (or_iff_left (not_hasSum_nil _)).symm
  | node v l r => exact h path v l r flag rfl

/-- A call for a node, with the sum of the values down to it. -/
theorem dfs_iff (sum : ℤ) (t : TreeNode) (above v : ℤ) (l r : TreeNode) (flag : Bool) (ht : t = node v l r) :
    dfs sum t (above + v) flag = true ↔ flag = true ∨ HasSum t (sum - above) := by
  induction t generalizing above v l r flag with
  | nil => cases ht
  | node w a b iha ihb =>
    cases ht
    cases flag with
    | true => simp [dfs]
    | false =>
      have hsum : sum - (above + w) = sum - above - w := by omega
      rw [dfs, if_neg Bool.false_ne_true]
      simp only [descend_iff (fun above v l r flag => ihb above v l r flag),
        descend_iff (fun above v l r flag => iha above v l r flag), hsum]
      by_cases hnil : a = nil ∧ b = nil
      · obtain ⟨rfl, rfl⟩ := hnil
        have hiff : above + w = sum ↔ w = sum - above := by omega
        simp only [hasSum_leaf, not_hasSum_nil, true_and, or_false, hiff]
        by_cases hv : w = sum - above
        · simp [hv]
        · simp [hv]
      · have hno : ¬ (a = nil ∧ b = nil ∧ above + w = sum) := fun h => hnil ⟨h.1, h.2.1⟩
        rw [if_neg hno, hasSum_node hnil, or_assoc]

theorem hasPathSum_node (flag : Bool) (v : ℤ) (l r : TreeNode) (sum : ℤ) :
    hasPathSum flag (node v l r, sum) =
      (flag || Solution.hasPathSum (node v l r) sum, flag || Solution.hasPathSum (node v l r) sum) := by
  have hdfs : dfs sum (node v l r) v flag = (flag || Solution.hasPathSum (node v l r) sum) := by
    have h := dfs_iff sum (node v l r) 0 v l r flag rfl
    rw [Int.zero_add, Int.sub_zero, ← Solution.hasPathSum_iff, ← Bool.or_eq_true] at h
    exact Bool.eq_iff_iff.2 h
  rw [hasPathSum]
  simp only [hdfs]

end Solution3

/-! ## Runs -/

/-- At every call the three objects return the same, and it is whether some way to a leaf has the sum. -/
def Agree (calls : List (TreeNode × ℤ)) : Prop :=
  List.Forall₂ (fun c b => Solution.hasPathSum c.1 c.2 = b ∧ Returns (Solution2.hasPathSum c.1 c.2) (some b) ∧
    (b = true ↔ HasSum c.1 c.2)) calls (outputs Solution3.hasPathSum false calls)

theorem answer_iff {c : TreeNode × ℤ} {b : Bool} :
    (Solution.hasPathSum c.1 c.2 = b ∧ Returns (Solution2.hasPathSum c.1 c.2) (some b) ∧
      (b = true ↔ HasSum c.1 c.2)) ↔ Solution.hasPathSum c.1 c.2 = b := by
  refine ⟨And.left, ?_⟩
  rintro rfl
  obtain ⟨b, hreturns, hb⟩ := Solution2.hasPathSum_returns c.1 c.2
  have hiff := Solution.hasPathSum_iff c.1 c.2
  obtain rfl : Solution.hasPathSum c.1 c.2 = b := Bool.eq_iff_iff.2 (hiff.trans hb.symm)
  exact ⟨rfl, hreturns, hiff⟩

/-- What goes wrong with a raised flag: a tree without a path that is not empty. -/
def Fails (c : TreeNode × ℤ) : Prop := c.1 ≠ nil ∧ ¬ HasSum c.1 c.2

theorem forall₂_outputs_iff (calls : List (TreeNode × ℤ)) (flag : Bool) :
    List.Forall₂ (fun c b => Solution.hasPathSum c.1 c.2 = b) calls (outputs Solution3.hasPathSum flag calls) ↔
      (flag = true → ∀ c ∈ calls, ¬ Fails c) ∧ calls.Pairwise fun d c => HasSum d.1 d.2 → ¬ Fails c := by
  induction calls generalizing flag with
  | nil => simp [outputs]
  | cons c calls ih =>
    obtain ⟨root, sum⟩ := c
    rw [outputs, List.forall₂_cons, ih, List.forall_mem_cons, List.pairwise_cons]
    cases root with
    | nil =>
      have hfails : ¬ Fails (nil, sum) := fun h => h.1 rfl
      simp [Solution3.hasPathSum, Solution.hasPathSum, hfails, not_hasSum_nil]
    | node v l r =>
      have hfails : Fails (node v l r, sum) ↔ ¬ HasSum (node v l r) sum := and_iff_right (by simp)
      rw [Solution3.hasPathSum_node, hfails, not_not, ← Solution.hasPathSum_iff]
      cases flag with
      | true =>
        cases hb : Solution.hasPathSum (node v l r) sum with
        | true => simp
        | false => simp
      | false =>
        cases hb : Solution.hasPathSum (node v l r) sum with
        | true => simp
        | false => simp

/-- The three objects agree over a run if and only if no tree without a path comes after a tree with one, other than
the empty tree. -/
theorem hasPathSum_agree_iff (calls : List (TreeNode × ℤ)) :
    Agree calls ↔ calls.Pairwise fun d c => HasSum d.1 d.2 → c.1 = nil ∨ HasSum c.1 c.2 := by
  simp only [Agree, answer_iff, forall₂_outputs_iff, Bool.false_eq_true, false_implies, true_and, Fails, not_and,
    not_not, or_iff_not_imp_left, ne_eq]

/-- The sum of the second call is not there, and the flag of the first call is still raised. -/
theorem hasPathSum_disagree : ¬ Agree [(node 1 nil nil, 1), (node 1 nil nil, 2)] := by
  intro h
  have hanswers := (List.forall₂_cons.1 (List.forall₂_cons.1 h).2).1.1
  exact absurd hanswers (by decide)

end GoodGoodStudy.LeetCode.HasPathSum
