/-
The exercise 236, the lowest common ancestor of two nodes that are given by their values. The recursion returns a value
for "found" and `None` for "not found", and combines what the two subtrees return by its truth value. The value 0 is
false like `None`: where it is found, the call above takes it for nothing, and may lose it.
-/
import Mathlib.Algebra.Ring.Int.Defs
import GoodGoodStudy.Lib.Ancestor

namespace GoodGoodStudy.LeetCode.LowestCommonAncestor

open GoodGoodStudy.Lib BinaryTree

/-- A node with its value and its children; `nil` is `None`. -/
abbrev TreeNode := BinaryTree ℤ

/-! ## The code -/

/-- The truth value of an integer or of `None`. -/
def truthy : Option ℤ → Bool
  | none => false
  | some v => v != 0

/-- `x or y` -/
def pyOr (x y : Option ℤ) : Option ℤ := if truthy x then x else y

def Solution2.lowestCommonAncestor (o1 o2 : ℤ) : TreeNode → Option ℤ
  | nil => none
  | node val l r =>
    if o1 = val then some o1
    else if o2 = val then some o2
    else
      let left := lowestCommonAncestor o1 o2 l
      let right := lowestCommonAncestor o1 o2 r
      if truthy left && truthy right then some val else pyOr left right

open Solution2

example : lowestCommonAncestor 5 1 (node 3 (node 5 nil nil) (node 1 nil nil)) = some 3 := by decide

/-! ## What is found -/

variable {o1 o2 v val : ℤ} {l r root : TreeNode} {path : List Side}

theorem pyOr_none_right {x : Option ℤ} : pyOr x none = some v ↔ x = some v ∧ v ≠ 0 := by
  unfold pyOr
  rcases x with _ | w
  · exact iff_of_false (fun h => by cases h) fun h => by cases h.1
  · by_cases hw : w = 0
    · rw [if_neg (by simp [truthy, hw]), Option.some_inj]
      exact iff_of_false (fun h => by cases h) fun h => h.2 (h.1.symm.trans hw)
    · rw [if_pos (by simp [truthy, hw]), Option.some_inj]
      exact ⟨fun h => ⟨h, h ▸ hw⟩, fun h => h.1⟩

theorem pyOr_of_not {x : Option ℤ} (hx : truthy x = false) (y : Option ℤ) : pyOr x y = y := by
  unfold pyOr
  rw [hx]
  rfl

theorem lowestCommonAncestor_root (h : val = o1 ∨ val = o2) (l r : TreeNode) :
    lowestCommonAncestor o1 o2 (node val l r) = some val := by
  unfold lowestCommonAncestor
  by_cases h1 : o1 = val
  · rw [if_pos h1, h1]
  · have h2 : o2 = val := (h.resolve_left (Ne.symm h1)).symm
    rw [if_neg h1, if_pos h2, h2]

theorem lowestCommonAncestor_node (h1 : val ≠ o1) (h2 : val ≠ o2) (l r : TreeNode) :
    lowestCommonAncestor o1 o2 (node val l r) =
      if truthy (lowestCommonAncestor o1 o2 l) && truthy (lowestCommonAncestor o1 o2 r) then some val
      else pyOr (lowestCommonAncestor o1 o2 l) (lowestCommonAncestor o1 o2 r) := by
  rw [lowestCommonAncestor, if_neg h1.symm, if_neg h2.symm]

/-- A subtree without the two values. -/
theorem lowestCommonAncestor_none (h1 : o1 ∉ inorder root) (h2 : o2 ∉ inorder root) :
    lowestCommonAncestor o1 o2 root = none := by
  induction root with
  | nil => rfl
  | node val l r ihl ihr =>
    simp only [mem_inorder_node, not_or] at h1 h2
    rw [lowestCommonAncestor_node (Ne.symm h1.2.1) (Ne.symm h2.2.1), ihl h1.1 h2.1, ihr h1.2.2 h2.2.2]
    rfl

/-- The call above a subtree, if the other subtree has none of the two values. -/
theorem lowestCommonAncestor_left (h1 : val ≠ o1) (h2 : val ≠ o2) (hr1 : o1 ∉ inorder r) (hr2 : o2 ∉ inorder r) :
    lowestCommonAncestor o1 o2 (node val l r) = pyOr (lowestCommonAncestor o1 o2 l) none := by
  rw [lowestCommonAncestor_node h1 h2, lowestCommonAncestor_none hr1 hr2, if_neg]
  simp [truthy]

theorem lowestCommonAncestor_right (h1 : val ≠ o1) (h2 : val ≠ o2) (hl1 : o1 ∉ inorder l) (hl2 : o2 ∉ inorder l) :
    lowestCommonAncestor o1 o2 (node val l r) = lowestCommonAncestor o1 o2 r := by
  rw [lowestCommonAncestor_node h1 h2, lowestCommonAncestor_none hl1 hl2]
  rfl

/-- What a call returns for a tree with one value of the two: the value, or something false if the value is 0. -/
def Found (w : ℤ) (x : Option ℤ) : Prop := (w ≠ 0 → x = some w) ∧ (w = 0 → truthy x = false)

theorem Found.truthy_iff {w : ℤ} {x : Option ℤ} (h : Found w x) : truthy x = true ↔ w ≠ 0 := by
  by_cases hw : w = 0
  · rw [h.2 hw]
    exact iff_of_false Bool.false_ne_true (not_not.2 hw)
  · rw [h.1 hw]
    exact iff_of_true (bne_iff_ne.2 hw) hw

theorem Found.ne {w : ℤ} {x : Option ℤ} (h : Found w x) (hne : val ≠ w) : x ≠ some val := by
  rintro rfl
  have hval := h.truthy_iff
  unfold truthy at hval
  by_cases hw : w = 0
  · exact hne (by rw [hw]; simpa [hw] using hval)
  · exact hne (Option.some.inj (h.1 hw))

/-- A subtree with one of the two values. -/
theorem found_one {w : ℤ} (hnodup : (inorder root).Nodup) (hw : w = o1 ∨ w = o2) (hmem : w ∈ inorder root)
    (honly : ∀ x ∈ inorder root, x = o1 ∨ x = o2 → x = w) : Found w (lowestCommonAncestor o1 o2 root) := by
  induction root with
  | nil => cases hmem
  | node val l r ihl ihr =>
    obtain ⟨-, hl, hr⟩ := nodup_inorder_node hnodup
    by_cases hval : val = o1 ∨ val = o2
    · rw [lowestCommonAncestor_root hval, honly val (mem_inorder_node.2 (Or.inr (Or.inl rfl))) hval]
      exact ⟨fun _ => rfl, fun hzero => by rw [hzero]; rfl⟩
    · obtain ⟨h1, h2⟩ := not_or.1 hval
      rcases mem_inorder_node.1 hmem with hwl | rfl | hwr
      · -- the right subtree has none of the two, since it does not have `w`
        have hright : ∀ x, x = o1 ∨ x = o2 → x ∉ inorder r := fun x hx hxr => notMem_right hnodup hwl
          (honly x (mem_inorder_node.2 (Or.inr (Or.inr hxr))) hx ▸ hxr)
        obtain ⟨hne, hzero⟩ := ihl hl hwl fun x hx => honly x (mem_inorder_node.2 (Or.inl hx))
        rw [lowestCommonAncestor_left h1 h2 (hright o1 (Or.inl rfl)) (hright o2 (Or.inr rfl))]
        exact ⟨fun hw0 => pyOr_none_right.2 ⟨hne hw0, hw0⟩, fun hw0 => by rw [pyOr_of_not (hzero hw0)]; rfl⟩
      · exact absurd hw hval
      · have hleft : ∀ x, x = o1 ∨ x = o2 → x ∉ inorder l := fun x hx hxl => notMem_right hnodup hxl
          (honly x (mem_inorder_node.2 (Or.inl hxl)) hx ▸ hwr)
        rw [lowestCommonAncestor_right h1 h2 (hleft o1 (Or.inl rfl)) (hleft o2 (Or.inr rfl))]
        exact ihr hr hwr fun x hx => honly x (mem_inorder_node.2 (Or.inr (Or.inr hx)))

/-- The node where the ways to the two values part. -/
theorem lowestCommonAncestor_parts {x y : ℤ} (hnodup : (inorder (node val l r)).Nodup)
    (hxy : x = o1 ∧ y = o2 ∨ x = o2 ∧ y = o1) (hvx : val ≠ x) (hvy : val ≠ y) (hx : x ∈ inorder l)
    (hy : y ∈ inorder r) : lowestCommonAncestor o1 o2 (node val l r) = some val ↔ x ≠ 0 ∧ y ≠ 0 := by
  obtain ⟨-, hl, hr⟩ := nodup_inorder_node hnodup
  have hpair : ∀ z, z = o1 ∨ z = o2 ↔ z = x ∨ z = y := fun z => by
    rcases hxy with ⟨rfl, rfl⟩ | ⟨rfl, rfl⟩
    · rfl
    · exact or_comm
  have hleft : Found x (lowestCommonAncestor o1 o2 l) := found_one hl ((hpair x).2 (Or.inl rfl)) hx fun z hz hz' =>
    ((hpair z).1 hz').resolve_right fun hzy => notMem_right hnodup hz (hzy ▸ hy)
  have hright : Found y (lowestCommonAncestor o1 o2 r) := found_one hr ((hpair y).2 (Or.inr rfl)) hy fun z hz hz' =>
    ((hpair z).1 hz').resolve_left fun hzx => notMem_right hnodup hx (hzx ▸ hz)
  have h1 : val ≠ o1 := fun h => ((hpair val).1 (Or.inl h)).elim hvx hvy
  have h2 : val ≠ o2 := fun h => ((hpair val).1 (Or.inr h)).elim hvx hvy
  rw [lowestCommonAncestor_node h1 h2, ← hleft.truthy_iff, ← hright.truthy_iff, ← Bool.and_eq_true]
  split_ifs with hboth
  · exact iff_of_true rfl hboth
  · -- one of the two is 0, and the other one is returned
    refine iff_of_false ?_ hboth
    unfold pyOr
    split_ifs
    · exact hleft.ne hvx
    · exact hright.ne hvy

/-! ## The deepest node above both values -/

/-- If 0 is one of the values, one node must be above the other; 0 is returned only to the root or from the right. -/
def Kept (o1 o2 v : ℤ) (path : List Side) : Prop :=
  (o1 = 0 ∨ o2 = 0 → v = o1 ∨ v = o2) ∧ (v = 0 → ∀ side ∈ path, side = .right)

instance (o1 o2 v : ℤ) (path : List Side) : Decidable (Kept o1 o2 v path) := inferInstanceAs (Decidable (_ ∧ _))

theorem kept_left : Kept o1 o2 v (.left :: path) ↔ Kept o1 o2 v path ∧ v ≠ 0 := by
  unfold Kept
  rw [and_assoc]
  refine and_congr_right fun _ => ⟨fun h => ?_, fun h hv => absurd hv h.2⟩
  have hv : v ≠ 0 := fun hv => by cases h hv .left List.mem_cons_self
  exact ⟨fun hv0 => absurd hv0 hv, hv⟩

theorem kept_right : Kept o1 o2 v (.right :: path) ↔ Kept o1 o2 v path := by
  unfold Kept
  simp only [List.forall_mem_cons, true_and]

theorem kept_nil (hv : ¬(v = o1 ∨ v = o2)) : Kept o1 o2 v [] ↔ o1 ≠ 0 ∧ o2 ≠ 0 := by
  unfold Kept
  refine ⟨fun h => not_or.1 fun hzero => hv (h.1 hzero), fun h => ⟨fun hzero => absurd hzero (not_or.2 h), ?_⟩⟩
  exact fun _ side hside => by cases hside

/-- What the recursion returns is the value of the deepest node above both values, exactly if no 0 is lost. -/
theorem lowestCommonAncestor_eq_iff (hnodup : (inorder root).Nodup) (hdeep : Deepest root o1 o2 path v) :
    lowestCommonAncestor o1 o2 root = some v ↔ Kept o1 o2 v path := by
  induction root generalizing path with
  | nil => exact absurd hdeep.above not_above_nil
  | node val l r ihl ihr =>
    obtain ⟨hroot, hl, hr⟩ := nodup_inorder_node hnodup
    rcases path with _ | ⟨_ | _, path⟩
    · obtain ⟨rfl, hnl, hnr⟩ := deepest_root hdeep
      by_cases hv : v = o1 ∨ v = o2
      · rw [lowestCommonAncestor_root hv]
        exact iff_of_true rfl ⟨fun _ => hv, fun _ side h => by cases h⟩
      · obtain ⟨h1, h2⟩ := not_or.1 hv
        rw [kept_nil hv]
        -- neither value is in the root, and they are not in one subtree
        obtain ⟨-, hmem1, hmem2⟩ := above_root.1 hdeep.above
        have hside1 := (or_left_comm.1 (mem_inorder_node.1 hmem1)).resolve_left (Ne.symm h1)
        have hside2 := (or_left_comm.1 (mem_inorder_node.1 hmem2)).resolve_left (Ne.symm h2)
        rcases hside1 with hl1 | hr1 <;> rcases hside2 with hl2 | hr2
        · exact absurd ⟨hl1, hl2⟩ hnl
        · exact lowestCommonAncestor_parts hnodup (Or.inl ⟨rfl, rfl⟩) h1 h2 hl1 hr2
        · rw [lowestCommonAncestor_parts hnodup (Or.inr ⟨rfl, rfl⟩) h2 h1 hl2 hr1, and_comm]
        · exact absurd ⟨hr1, hr2⟩ hnr
    · obtain ⟨h1, h2⟩ := Above.mem (above_left.1 hdeep.above)
      have hne : ∀ x ∈ inorder l, val ≠ x := fun x hx heq => hroot (heq ▸ hx)
      rw [lowestCommonAncestor_left (hne o1 h1) (hne o2 h2) (notMem_right hnodup h1) (notMem_right hnodup h2),
        pyOr_none_right, ihl hl (deepest_left hdeep), kept_left]
    · obtain ⟨h1, h2⟩ := Above.mem (above_right.1 hdeep.above)
      have hne : ∀ x ∈ inorder r, val ≠ x := fun x hx heq => (disjoint_inorder_node hnodup).2.1 (heq ▸ hx)
      rw [lowestCommonAncestor_right (hne o1 h1) (hne o2 h2) (fun h => notMem_right hnodup h h1)
        (fun h => notMem_right hnodup h h2), ihr hr (deepest_right hdeep), kept_right]

/-- For two values of a tree with distinct values. -/
theorem lowestCommonAncestor_deepest_iff (hnodup : (inorder root).Nodup) (h1 : o1 ∈ inorder root)
    (h2 : o2 ∈ inorder root) :
    ∃ path v, Deepest root o1 o2 path v ∧ (∀ path' v', Deepest root o1 o2 path' v' → path' = path ∧ v' = v) ∧
      (lowestCommonAncestor o1 o2 root = some v ↔ Kept o1 o2 v path) := by
  obtain ⟨path, v, hdeep⟩ := exists_deepest hnodup h1 h2
  exact ⟨path, v, hdeep, fun path' v' h' => h'.unique hnodup hdeep, lowestCommonAncestor_eq_iff hnodup hdeep⟩

theorem lowestCommonAncestor_deepest_iff_three :
    ∃ path v, Deepest (node 3 (node 5 nil nil) (node 1 nil nil)) 5 1 path v ∧
      (∀ path' v', Deepest (node 3 (node 5 nil nil) (node 1 nil nil)) 5 1 path' v' → path' = path ∧ v' = v) ∧
        (lowestCommonAncestor 5 1 (node 3 (node 5 nil nil) (node 1 nil nil)) = some v ↔ Kept 5 1 v path) :=
  lowestCommonAncestor_deepest_iff (by decide) (by decide) (by decide)

/-- The value 0 in a left subtree: the root is above both values, and the other value is returned. -/
theorem lowestCommonAncestor_zero : lowestCommonAncestor 0 1 (node 3 (node 0 nil nil) (node 1 nil nil)) = some 1 ∧
    ∃ path v, Deepest (node 3 (node 0 nil nil) (node 1 nil nil)) 0 1 path v ∧
      lowestCommonAncestor 0 1 (node 3 (node 0 nil nil) (node 1 nil nil)) ≠ some v := by
  refine ⟨by decide, [], 3, ⟨above_root.2 ⟨rfl, by decide, by decide⟩, fun path' v' h' => ?_⟩, by decide⟩
  rcases path' with _ | ⟨_ | _, path'⟩
  · exact Nat.le_refl 0
  · exact absurd (Above.mem (above_left.1 h')).2 (by decide)
  · exact absurd (Above.mem (above_right.1 h')).1 (by decide)

end GoodGoodStudy.LeetCode.LowestCommonAncestor
