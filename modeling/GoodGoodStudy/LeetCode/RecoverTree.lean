/-
The exercise 99, recover a search tree in which two values have been exchanged. The inorder walk remembers the first
node of the first descent, and the second node of the last one. If the values were those of neighbours there is one
descent, otherwise there are two, and in both cases these are the two nodes.
-/
import Mathlib.Logic.Equiv.Basic
import GoodGoodStudy.LeetCode.DeleteNode

namespace GoodGoodStudy.LeetCode.RecoverTree

open GoodGoodStudy.Lib BinaryTree
open DeleteNode (Nodes fields StoredTree)

/-! ## The code -/

/-- The attributes of the object. -/
structure Walk where
  wrong1 : Option ℕ := none
  wrong2 : Option ℕ := none
  pre : Option ℕ := none
  deriving DecidableEq, Repr

/-- What `dfs` does with a node between its two calls. -/
def visit (m : Nodes) (st : Walk) (root : ℕ) : Walk :=
  match st.pre with
  | none => { st with pre := some root }
  | some pre =>
    let st := if (m.get pre).val > (m.get root).val then
        { st with wrong2 := some root, wrong1 := if st.wrong1 = none then some pre else st.wrong1 }
      else st
    { st with pre := some root }

def dfs (m : Nodes) : ℕ → Option ℕ → Walk → Option Walk
  | 0, _, _ => none
  | _ + 1, none, st => some st
  | fuel + 1, some root, st => do
    let st ← dfs m fuel (m.get root).left st
    dfs m fuel (m.get root).right (visit m st root)

/-- `a.val, b.val = b.val, a.val` -/
def exchange (m : Nodes) (a b : ℕ) : Nodes :=
  DeleteNode.setVal (DeleteNode.setVal m a (m.get b).val) b (m.get a).val

def recoverTree (m : Nodes) (root : Option ℕ) (fuel : ℕ) : Option Nodes := do
  let st ← dfs m fuel root {}
  match st.wrong1, st.wrong2 with
  | some wrong1, some wrong2 => some (exchange m wrong1 wrong2)
  | _, _ => some m

variable {m : Nodes} {p : Option ℕ} {s : BinaryTree ℕ} {t : TreeNode} {st : Walk} {a b x y : ℕ} {l l₁ l₂ l₃ : List ℕ}

/-! ## Two values are exchanged -/

theorem get_exchange (m : Nodes) (a b x : ℕ) :
    (exchange m a b).get x = { m.get x with val := (m.get (Equiv.swap a b x)).val } := by
  unfold exchange DeleteNode.setVal
  simp only [Memory.get_set]
  by_cases hb : x = b
  · subst hb
    rw [if_pos rfl, Equiv.swap_apply_right]
    split_ifs with ha
    · rw [ha]
    · rfl
  · rw [if_neg hb]
    by_cases ha : x = a
    · subst ha
      rw [if_pos rfl, Equiv.swap_apply_left]
    · rw [if_neg ha, Equiv.swap_apply_of_ne_of_ne ha hb]

theorem exchange_exchange (m : Nodes) (a b : ℕ) : exchange (exchange m a b) a b = m := by
  have hget : (exchange (exchange m a b) a b).get = m.get := by
    funext x
    simp only [get_exchange, Equiv.swap_apply_self]
  exact congrArg₂ Memory.mk hget rfl

theorem exchange_self (m : Nodes) (a : ℕ) : exchange m a a = m := by
  have hget : (exchange m a a).get = m.get := by
    funext x
    rw [get_exchange, Equiv.swap_self]
    rfl
  exact congrArg₂ Memory.mk hget rfl

theorem exchange_comm (m : Nodes) (a b : ℕ) : exchange m a b = exchange m b a := by
  have hget : (exchange m a b).get = (exchange m b a).get := by
    funext x
    rw [get_exchange, get_exchange, Equiv.swap_comm]
  exact congrArg₂ Memory.mk hget rfl

/-! ## The walk -/

/-- The nodes are visited in the inorder of the tree. -/
theorem dfs_returns (h : LinkedTree fields m p s) (st : Walk) :
    Returns (fun fuel => dfs m fuel p st) ((inorder s).foldl (visit m) st) := by
  induction s generalizing p st with
  | nil =>
    obtain rfl : p = none := h
    exact Returns.call (fun _ => rfl) (Returns.pure st)
  | node root l r ihl ihr =>
    obtain ⟨rfl, hl, hr⟩ := h
    rw [inorder, List.foldl_append, List.foldl_cons]
    exact Returns.call (fun _ => rfl) ((ihl hl st).bind
      (g := fun st fuel => dfs m fuel (m.get root).right (visit m st root)) (ihr hr _))

/-- The value of the first node is below the one of the second. -/
def Rises (m : Nodes) (x y : ℕ) : Prop := (m.get x).val < (m.get y).val

theorem visit_rises (st : Walk) (h : ∀ y ∈ st.pre, Rises m y x) : visit m st x = { st with pre := some x } := by
  unfold visit
  cases hpre : st.pre with
  | none => rfl
  | some y => simp only [if_neg (lt_asymm (h y hpre))]

theorem visit_falls (st : Walk) (hpre : st.pre = some y) (h : Rises m x y) :
    visit m st x = ⟨if st.wrong1 = none then some y else st.wrong1, some x, some x⟩ := by
  unfold visit
  rw [hpre]
  simp only [if_pos (show (m.get y).val > (m.get x).val from h)]

/-- Where the values go up nothing is found. -/
theorem foldl_rises (st : Walk) (h : (st.pre.toList ++ l).Pairwise (Rises m)) :
    l.foldl (visit m) st = { st with pre := (st.pre.toList ++ l).getLast? } := by
  induction l generalizing st with
  | nil =>
    obtain ⟨wrong1, wrong2, _ | pre⟩ := st
    · rfl
    · rfl
  | cons x l ih =>
    obtain ⟨-, hl, hcross⟩ := List.pairwise_append.1 h
    have hvisit := visit_rises st fun y hy => hcross y (Option.mem_toList.2 hy) x List.mem_cons_self
    rw [List.foldl_cons, hvisit, ih { st with pre := some x } hl]
    simp [List.getLast?_cons]

/-- The walk finds the node in front of the first descent, and the one behind the last. -/
theorem foldl_falls (h₁ : (l₁ ++ [a]).Pairwise (Rises m)) (h₂ : l₂.Pairwise (Rises m))
    (h₃ : (b :: l₃).Pairwise (Rises m)) (ha : ∀ x ∈ l₂ ++ [b], Rises m x a) (hb : ∀ x ∈ a :: l₂, Rises m b x) :
    ∃ pre, (l₁ ++ a :: (l₂ ++ b :: l₃)).foldl (visit m) {} = ⟨some a, some b, pre⟩ := by
  have hfirst : (l₁ ++ [a]).foldl (visit m) {} = ⟨none, none, some a⟩ := by
    have hlast : (l₁ ++ [a]).getLast? = some a := List.getLast?_concat
    exact (foldl_rises {} h₁).trans (congrArg (Walk.mk none none) hlast)
  have hsecond : (l₂ ++ [b]).foldl (visit m) ⟨none, none, some a⟩ = ⟨some a, some b, some b⟩ := by
    rw [List.foldl_append]
    cases l₂ with
    | nil => exact visit_falls ⟨none, none, some a⟩ rfl (ha b List.mem_cons_self)
    | cons c l₂ =>
      have hfall : visit m ⟨none, none, some a⟩ c = ⟨some a, some c, some c⟩ :=
        visit_falls ⟨none, none, some a⟩ rfl (ha c List.mem_cons_self)
      have hlast : (c :: l₂).getLast? = some ((c :: l₂).getLast (List.cons_ne_nil c l₂)) :=
        List.getLast?_eq_some_getLast _
      have hmem := List.mem_cons_of_mem a (List.getLast_mem (List.cons_ne_nil c l₂))
      generalize (c :: l₂).getLast (List.cons_ne_nil c l₂) = d at hlast hmem
      have hrises : l₂.foldl (visit m) ⟨some a, some c, some c⟩ = ⟨some a, some c, some d⟩ :=
        hlast ▸ foldl_rises ⟨some a, some c, some c⟩ h₂
      have hfoldl : (c :: l₂).foldl (visit m) ⟨none, none, some a⟩ = ⟨some a, some c, some d⟩ := by
        rw [List.foldl_cons, hfall, hrises]
      rw [hfoldl]
      exact visit_falls ⟨some a, some c, some d⟩ rfl (hb d hmem)
  have hsplit : l₁ ++ a :: (l₂ ++ b :: l₃) = (l₁ ++ [a]) ++ (l₂ ++ [b]) ++ l₃ := by simp
  refine ⟨(b :: l₃).getLast?, ?_⟩
  rw [hsplit, List.foldl_append, List.foldl_append, hfirst, hsecond]
  exact foldl_rises ⟨some a, some b, some b⟩ h₃

theorem Rises.ne (h : Rises m x y) : x ≠ y := by
  rintro rfl
  exact lt_irrefl _ h

theorem rises_exchange : Rises (exchange m a b) x y ↔ Rises m (Equiv.swap a b x) (Equiv.swap a b y) := by
  unfold Rises
  rw [get_exchange, get_exchange]

theorem pairwise_exchange (hl : ∀ x ∈ l, Equiv.swap a b x = x) (h : l.Pairwise (Rises m)) :
    l.Pairwise (Rises (exchange m a b)) := by
  refine h.imp_of_mem fun hx hy hrises => ?_
  rw [rises_exchange, hl _ hx, hl _ hy]
  exact hrises

/-- The values go up until two of them are exchanged. -/
theorem foldl_exchange (h : (l₁ ++ a :: (l₂ ++ b :: l₃)).Pairwise (Rises m)) :
    ∃ pre, (l₁ ++ a :: (l₂ ++ b :: l₃)).foldl (visit (exchange m a b)) {} = ⟨some a, some b, pre⟩ := by
  obtain ⟨h₁, h, hcross₁⟩ := List.pairwise_append.1 h
  obtain ⟨ha, h⟩ := List.pairwise_cons.1 h
  obtain ⟨h₂, h, hcross₂⟩ := List.pairwise_append.1 h
  obtain ⟨hb, h₃⟩ := List.pairwise_cons.1 h
  have hab : Rises m a b := ha b (List.mem_append_right l₂ List.mem_cons_self)
  have h₁b : ∀ x ∈ l₁, Rises m x b := fun x hx => lt_trans (hcross₁ x hx a List.mem_cons_self) hab
  have h₂a : ∀ x ∈ l₂, Rises m a x := fun x hx => ha x (List.mem_append_left _ hx)
  have h₂b : ∀ x ∈ l₂, Rises m x b := fun x hx => hcross₂ x hx b List.mem_cons_self
  have h₃a : ∀ x ∈ l₃, Rises m a x := fun x hx => lt_trans hab (hb x hx)
  have hswap₁ : ∀ x ∈ l₁, Equiv.swap a b x = x := fun x hx =>
    Equiv.swap_apply_of_ne_of_ne (hcross₁ x hx a List.mem_cons_self).ne (h₁b x hx).ne
  have hswap₂ : ∀ x ∈ l₂, Equiv.swap a b x = x := fun x hx =>
    Equiv.swap_apply_of_ne_of_ne (h₂a x hx).ne.symm (h₂b x hx).ne
  have hswap₃ : ∀ x ∈ l₃, Equiv.swap a b x = x := fun x hx =>
    Equiv.swap_apply_of_ne_of_ne (h₃a x hx).ne.symm (hb x hx).ne.symm
  refine foldl_falls ?_ (pairwise_exchange hswap₂ h₂)
    (List.pairwise_cons.2 ⟨fun x hx => ?_, pairwise_exchange hswap₃ h₃⟩) (fun x hx => ?_) fun x hx => ?_
  · refine List.pairwise_append.2 ⟨pairwise_exchange hswap₁ h₁, List.pairwise_singleton _ a, fun x hx y hy => ?_⟩
    rw [List.mem_singleton.1 hy, rises_exchange, hswap₁ x hx, Equiv.swap_apply_left]
    exact h₁b x hx
  · rw [rises_exchange, Equiv.swap_apply_right, hswap₃ x hx]
    exact h₃a x hx
  · rw [rises_exchange, Equiv.swap_apply_left]
    rcases List.mem_append.1 hx with hx | hx
    · rw [hswap₂ x hx]
      exact h₂b x hx
    · rw [List.mem_singleton.1 hx, Equiv.swap_apply_right]
      exact hab
  · rw [rises_exchange, Equiv.swap_apply_right]
    rcases List.mem_cons.1 hx with rfl | hx
    · rw [Equiv.swap_apply_left]
      exact hab
    · rw [hswap₂ x hx]
      exact h₂a x hx

/-! ## The result -/

theorem pairwise_rises (h : StoredTree m p s t) (ht : SearchTree t) : (inorder s).Pairwise (Rises m) := by
  have hpairwise := searchTree_iff_inorder.1 ht
  rw [h.inorder_eq, List.pairwise_map] at hpairwise
  exact hpairwise

theorem linkedTree_exchange (h : LinkedTree fields m p s) (a b : ℕ) : LinkedTree fields (exchange m a b) p s :=
  h.congr (fun x => by rw [get_exchange]; rfl) fun x => by rw [get_exchange]; rfl

/-- The second node comes behind the first one. -/
theorem recoverTree_returns (h : StoredTree m p s t) (ht : SearchTree t) (hs : inorder s = l₁ ++ a :: (l₂ ++ b :: l₃)) :
    Returns (recoverTree (exchange m a b) p) m := by
  have hrises := pairwise_rises h ht
  rw [hs] at hrises
  obtain ⟨pre, hwalk⟩ := foldl_exchange hrises
  have hdfs := dfs_returns (linkedTree_exchange h.linked a b) {}
  rw [hs, hwalk] at hdfs
  refine hdfs.bind (g := fun st _ => match st.wrong1, st.wrong2 with
    | some wrong1, some wrong2 => some (exchange (exchange m a b) wrong1 wrong2)
    | _, _ => some (exchange m a b)) ?_
  exact Returns.const_iff.2 (congrArg some (exchange_exchange m a b))

/-- Whichever values of a search tree have been exchanged, the memory is as it was before. -/
theorem recoverTree_restores (m : Nodes) (p : Option ℕ) (s : BinaryTree ℕ) (t : TreeNode) (h : StoredTree m p s t)
    (ht : SearchTree t) (a b : ℕ) (ha : a ∈ inorder s) (hb : b ∈ inorder s) :
    Returns (recoverTree (exchange m a b) p) m := by
  obtain ⟨l₁, l, hl⟩ := List.append_of_mem ha
  rw [hl] at hb
  rcases List.mem_append.1 hb with hb | hb
  · obtain ⟨l₀, l₁', rfl⟩ := List.append_of_mem hb
    rw [exchange_comm]
    exact recoverTree_returns h ht (hl.trans (by simp) : inorder s = l₀ ++ b :: (l₁' ++ a :: l))
  · rcases List.mem_cons.1 hb with rfl | hb
    · -- nothing has been exchanged, and nothing is found
      have hdfs := dfs_returns h.linked {}
      rw [foldl_rises {} (pairwise_rises h ht)] at hdfs
      rw [exchange_self]
      exact hdfs.bind (g := fun st _ => match st.wrong1, st.wrong2 with
        | some wrong1, some wrong2 => some (exchange m wrong1 wrong2)
        | _, _ => some m) (Returns.pure m)
    · obtain ⟨l₂, l₃, rfl⟩ := List.append_of_mem hb
      exact recoverTree_returns h ht hl

/-- The root 2 and its child 1. -/
theorem recoverTree_restores_root :
    Returns (recoverTree (exchange ⟨fun a => if a = 0 then ⟨2, some 1, none⟩ else ⟨1, none, none⟩, 2⟩ 0 1) (some 0))
      ⟨fun a => if a = 0 then ⟨2, some 1, none⟩ else ⟨1, none, none⟩, 2⟩ :=
  recoverTree_restores ⟨fun a => if a = 0 then ⟨2, some 1, none⟩ else ⟨1, none, none⟩, 2⟩ (some 0)
    (node 0 (node 1 nil nil) nil) (node 2 (node 1 nil nil) nil) ⟨⟨rfl, ⟨rfl, rfl, rfl⟩, rfl⟩, by decide, rfl⟩
    (by simp [SearchTree]) 0 1 (by decide) (by decide)

end GoodGoodStudy.LeetCode.RecoverTree
