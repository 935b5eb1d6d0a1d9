/-
Binary trees in a memory: the records have a value and two pointers, and a tree is reached from a pointer to its root.
The tree of the addresses says which records belong to it.
-/
import GoodGoodStudy.Lib.Memory
import GoodGoodStudy.Lib.Traversal

namespace GoodGoodStudy.Lib

open BinaryTree

variable {N α : Type*}

/-- What is read of a record. -/
structure Fields (N α : Type*) where
  val : N → α
  left : N → Option ℕ
  right : N → Option ℕ

/-- The pointers lead from `p` to the addresses of `s`. -/
def LinkedTree (f : Fields N α) (m : Memory N) : Option ℕ → BinaryTree ℕ → Prop
  | p, nil => p = none
  | p, node a l r => p = some a ∧ LinkedTree f m (f.left (m.get a)) l ∧ LinkedTree f m (f.right (m.get a)) r

/-- The tree `t` is stored at the addresses of `s`, each of which is used once. -/
structure Stored (f : Fields N α) (m : Memory N) (p : Option ℕ) (s : BinaryTree ℕ) (t : BinaryTree α) : Prop where
  linked : LinkedTree f m p s
  nodup : (inorder s).Nodup
  vals : s.map (fun a => f.val (m.get a)) = t

variable {f : Fields N α} {m m' : Memory N} {p : Option ℕ} {s sl sr : BinaryTree ℕ} {t l r : BinaryTree α} {a : ℕ}

/-- Only the pointers matter. -/
theorem LinkedTree.congr (h : LinkedTree f m p s) (hl : ∀ x, f.left (m'.get x) = f.left (m.get x))
    (hr : ∀ x, f.right (m'.get x) = f.right (m.get x)) : LinkedTree f m' p s := by
  induction s generalizing p with
  | nil => exact h
  | node a sl sr ihl ihr =>
    obtain ⟨hp, hleft, hright⟩ := h
    exact ⟨hp, ihl ((hl a).symm ▸ hleft), ihr ((hr a).symm ▸ hright)⟩

theorem Stored.inorder_eq (h : Stored f m p s t) : inorder t = (inorder s).map fun a => f.val (m.get a) := by
  rw [← h.vals, inorder_map]

/-- Only the records of the tree matter. -/
theorem Stored.congr (h : Stored f m p s t) (heq : ∀ x ∈ inorder s, m'.get x = m.get x) : Stored f m' p s t := by
  induction s generalizing p t with
  | nil => exact ⟨h.linked, h.nodup, h.vals⟩
  | node a sl sr ihl ihr =>
    obtain ⟨⟨hp, hl, hr⟩, hnodup, hvals⟩ := h
    obtain ⟨-, hnl, hnr⟩ := nodup_inorder_node hnodup
    have hleft := ihl ⟨hl, hnl, rfl⟩ fun x hx => heq x (mem_inorder_node.2 (.inl hx))
    have hright := ihr ⟨hr, hnr, rfl⟩ fun x hx => heq x (mem_inorder_node.2 (.inr (.inr hx)))
    have ha := heq a (mem_inorder_node.2 (.inr (.inl rfl)))
    refine ⟨⟨hp, ?_, ?_⟩, hnodup, ?_⟩
    · rw [ha]
      exact hleft.linked
    · rw [ha]
      exact hright.linked
    · rw [← hvals, BinaryTree.map, BinaryTree.map, hleft.vals, hright.vals, ha]

theorem Stored.set (h : Stored f m p s t) (ha : a ∉ inorder s) (n : N) : Stored f (m.set a n) p s t := by
  apply h.congr
  intro x hx
  rw [Memory.get_set, if_neg]
  rintro rfl
  exact ha hx

theorem stored_nil : Stored f m none nil nil := ⟨rfl, List.nodup_nil, rfl⟩

theorem Stored.node (hnodup : (inorder (node a sl sr)).Nodup) (hl : Stored f m (f.left (m.get a)) sl l)
    (hr : Stored f m (f.right (m.get a)) sr r) : Stored f m (some a) (node a sl sr) (node (f.val (m.get a)) l r) :=
  ⟨⟨rfl, hl.linked, hr.linked⟩, hnodup, by rw [BinaryTree.map, hl.vals, hr.vals]⟩

theorem Stored.of_nil (h : Stored f m p s nil) : p = none ∧ s = nil := by
  cases s with
  | nil => exact ⟨h.linked, rfl⟩
  | node a sl sr => cases h.vals

theorem Stored.of_node {v : α} (h : Stored f m p s (.node v l r)) : ∃ a sl sr, p = some a ∧ s = .node a sl sr ∧
    f.val (m.get a) = v ∧ Stored f m (f.left (m.get a)) sl l ∧ Stored f m (f.right (m.get a)) sr r := by
  cases s with
  | nil => cases h.vals
  | node a sl sr =>
    obtain ⟨⟨hp, hl, hr⟩, hnodup, hvals⟩ := h
    obtain ⟨-, hnl, hnr⟩ := nodup_inorder_node hnodup
    cases hvals
    exact ⟨a, sl, sr, hp, rfl, rfl, ⟨hl, hnl, rfl⟩, hr, hnr, rfl⟩

end GoodGoodStudy.Lib
