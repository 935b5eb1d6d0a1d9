/-
Nodes of a binary tree that are named by the way down to them. The nodes that have two given values below them or in
themselves lie on one way, and the deepest of them is where the ways to the two values part, or where one value is met.
-/
import GoodGoodStudy.Lib.Traversal

namespace GoodGoodStudy.Lib

variable {α : Type*}

open BinaryTree

inductive Side
  | left
  | right
  deriving DecidableEq, Repr

/-- The subtree to which a way down from the root leads. -/
def subtree : BinaryTree α → List Side → Option (BinaryTree α)
  | t, [] => some t
  | nil, _ :: _ => none
  | node _ l _, .left :: path => subtree l path
  | node _ _ r, .right :: path => subtree r path

/-- The way leads to a node with the value `v`, whose subtree contains both values. -/
def Above (t : BinaryTree α) (a b : α) (path : List Side) (v : α) : Prop :=
  ∃ l r, subtree t path = some (node v l r) ∧ a ∈ inorder (node v l r) ∧ b ∈ inorder (node v l r)

/-- No node whose subtree contains both values is deeper. -/
structure Deepest (t : BinaryTree α) (a b : α) (path : List Side) (v : α) : Prop where
  above : Above t a b path v
  deepest : ∀ path' v', Above t a b path' v' → path'.length ≤ path.length

variable {a b v w : α} {l r t : BinaryTree α} {path : List Side}

theorem notMem_right (h : (inorder (node w l r)).Nodup) (ha : a ∈ inorder l) : a ∉ inorder r :=
  (disjoint_inorder_node h).2.2 a ha

theorem not_above_nil : ¬Above (nil : BinaryTree α) a b path v := by
  rintro ⟨l, r, hsub, -⟩
  cases path with
  | nil => cases hsub
  | cons side path => cases hsub

theorem above_root : Above (node w l r) a b [] v ↔ v = w ∧ a ∈ inorder (node w l r) ∧ b ∈ inorder (node w l r) := by
  constructor
  · rintro ⟨l', r', hsub, ha, hb⟩
    cases hsub
    exact ⟨rfl, ha, hb⟩
  · rintro ⟨rfl, ha, hb⟩
    exact ⟨l, r, rfl, ha, hb⟩

theorem above_left : Above (node w l r) a b (.left :: path) v ↔ Above l a b path v := Iff.rfl

theorem above_right : Above (node w l r) a b (.right :: path) v ↔ Above r a b path v := Iff.rfl

theorem Above.mem (h : Above t a b path v) : a ∈ inorder t ∧ b ∈ inorder t := by
  induction t generalizing path with
  | nil => exact absurd h not_above_nil
  | node w l r ihl ihr =>
    rcases path with _ | ⟨_ | _, path⟩
    · exact (above_root.1 h).2
    · obtain ⟨ha, hb⟩ := ihl (above_left.1 h)
      exact ⟨mem_inorder_node.2 (Or.inl ha), mem_inorder_node.2 (Or.inl hb)⟩
    · obtain ⟨ha, hb⟩ := ihr (above_right.1 h)
      exact ⟨mem_inorder_node.2 (Or.inr (Or.inr ha)), mem_inorder_node.2 (Or.inr (Or.inr hb))⟩

/-- A subtree that contains both values has a root. -/
theorem exists_above (ha : a ∈ inorder t) (hb : b ∈ inorder t) : ∃ v, Above t a b [] v := by
  cases t with
  | nil => cases ha
  | node w l r => exact ⟨w, above_root.2 ⟨rfl, ha, hb⟩⟩

/-- The deepest node is the root, unless one of the two subtrees contains both values. -/
theorem deepest_root (h : Deepest (node w l r) a b [] v) :
    v = w ∧ ¬(a ∈ inorder l ∧ b ∈ inorder l) ∧ ¬(a ∈ inorder r ∧ b ∈ inorder r) := by
  refine ⟨(above_root.1 h.above).1, ?_, ?_⟩
  · rintro ⟨ha, hb⟩
    obtain ⟨v', hv'⟩ := exists_above ha hb
    exact absurd (h.deepest [.left] v' (above_left.2 hv')) (Nat.not_succ_le_zero 0)
  · rintro ⟨ha, hb⟩
    obtain ⟨v', hv'⟩ := exists_above ha hb
    exact absurd (h.deepest [.right] v' (above_right.2 hv')) (Nat.not_succ_le_zero 0)

theorem deepest_left (h : Deepest (node w l r) a b (.left :: path) v) : Deepest l a b path v :=
  ⟨above_left.1 h.above, fun path' v' h' => Nat.le_of_succ_le_succ (h.deepest (.left :: path') v' (above_left.2 h'))⟩

theorem deepest_right (h : Deepest (node w l r) a b (.right :: path) v) : Deepest r a b path v :=
  ⟨above_right.1 h.above,
    fun path' v' h' => Nat.le_of_succ_le_succ (h.deepest (.right :: path') v' (above_right.2 h'))⟩

/-- If the values are distinct, all nodes above both values lie on one way, so two of them at one depth are the same. -/
theorem Above.unique (hnodup : (inorder t).Nodup) {path' : List Side} {v' : α} (h : Above t a b path v)
    (h' : Above t a b path' v') (hlen : path.length = path'.length) : path = path' ∧ v = v' := by
  induction t generalizing path path' with
  | nil => exact absurd h not_above_nil
  | node w l r ihl ihr =>
    obtain ⟨-, hl, hr⟩ := nodup_inorder_node hnodup
    rcases path with _ | ⟨_ | _, path⟩ <;> rcases path' with _ | ⟨_ | _, path'⟩ <;> try cases hlen
    · exact ⟨rfl, (above_root.1 h).1.trans (above_root.1 h').1.symm⟩
    · obtain ⟨rfl, rfl⟩ := ihl hl h h' (Nat.succ.inj hlen)
      exact ⟨rfl, rfl⟩
    · exact absurd (Above.mem (above_right.1 h')).1 (notMem_right hnodup (Above.mem (above_left.1 h)).1)
    · exact absurd (Above.mem (above_right.1 h)).1 (notMem_right hnodup (Above.mem (above_left.1 h')).1)
    · obtain ⟨rfl, rfl⟩ := ihr hr h h' (Nat.succ.inj hlen)
      exact ⟨rfl, rfl⟩

theorem Deepest.unique (hnodup : (inorder t).Nodup) {path' : List Side} {v' : α} (h : Deepest t a b path v)
    (h' : Deepest t a b path' v') : path = path' ∧ v = v' :=
  h.above.unique hnodup h'.above (Nat.le_antisymm (h'.deepest path v h.above) (h.deepest path' v' h'.above))

/-- Two values of a tree have a deepest node above them. -/
theorem exists_deepest (hnodup : (inorder t).Nodup) (ha : a ∈ inorder t) (hb : b ∈ inorder t) :
    ∃ path v, Deepest t a b path v := by
  induction t with
  | nil => cases ha
  | node w l r ihl ihr =>
    obtain ⟨-, hl, hr⟩ := nodup_inorder_node hnodup
    by_cases hleft : a ∈ inorder l ∧ b ∈ inorder l
    · obtain ⟨path, v, h⟩ := ihl hl hleft.1 hleft.2
      refine ⟨.left :: path, v, above_left.2 h.above, fun path' v' h' => ?_⟩
      rcases path' with _ | ⟨_ | _, path'⟩
      · exact Nat.zero_le _
      · exact Nat.succ_le_succ (h.deepest path' v' h')
      · exact absurd (Above.mem (above_right.1 h')).1 (notMem_right hnodup hleft.1)
    · by_cases hright : a ∈ inorder r ∧ b ∈ inorder r
      · obtain ⟨path, v, h⟩ := ihr hr hright.1 hright.2
        refine ⟨.right :: path, v, above_right.2 h.above, fun path' v' h' => ?_⟩
        rcases path' with _ | ⟨_ | _, path'⟩
        · exact Nat.zero_le _
        · exact absurd (Above.mem (above_left.1 h')) hleft
        · exact Nat.succ_le_succ (h.deepest path' v' h')
      · refine ⟨[], w, above_root.2 ⟨rfl, ha, hb⟩, fun path' v' h' => ?_⟩
        rcases path' with _ | ⟨_ | _, path'⟩
        · exact Nat.le_refl 0
        · exact absurd (Above.mem (above_left.1 h')) hleft
        · exact absurd (Above.mem (above_right.1 h')) hright

end GoodGoodStudy.Lib
