/-
`deleteNode` of the exercise 450 on the nodes themselves: a call changes their fields, and returns the root of what is
left. If the node is to take over the smallest key to its right, that key is deleted by a call on the node itself, which
still has its old value, and only then the value is overwritten. The calls do what the function on trees does.
-/
import GoodGoodStudy.LeetCode.Bst
import GoodGoodStudy.Lib.LinkedTree

namespace GoodGoodStudy.LeetCode.DeleteNode

open GoodGoodStudy.Lib BinaryTree

structure Node where
  val : ℤ
  left : Option ℕ := none
  right : Option ℕ := none

abbrev Nodes := Memory Node

def setVal (m : Nodes) (l : ℕ) (val : ℤ) : Nodes := m.set l { m.get l with val }

def setLeft (m : Nodes) (l : ℕ) (left : Option ℕ) : Nodes := m.set l { m.get l with left }

def setRight (m : Nodes) (l : ℕ) (right : Option ℕ) : Nodes := m.set l { m.get l with right }

/-- `while tmp.left: tmp = tmp.left` -/
def leftmost (m : Nodes) (tmp fuel : ℕ) : Option ℕ :=
  loop (fun tmp =>
    match (m.get tmp).left with
    | some left => .again left
    | none => .leave tmp) fuel tmp

def deleteNode : ℕ → Nodes → Option ℕ → ℤ → Option (Option ℕ × Nodes)
  | 0, _, _, _ => none
  | _ + 1, m, none, _ => some (none, m)
  | fuel + 1, m, some root, key =>
    if (m.get root).val = key then
      match (m.get root).left, (m.get root).right with
      | left, some right =>
        if (m.get right).left ≠ none then do
          let tmp ← leftmost m right fuel
          -- `root.val, tmp = tmp.val, self.deleteNode(root, tmp.val)`: the right side is evaluated first
          let val := (m.get tmp).val
          let (_, m) ← deleteNode fuel m (some root) val
          some (some root, setVal m root val)
        else
          match left with
          | none => some (some right, m)
          | some left => some (some right, setLeft m right (some left))
      | some left, none => some (some left, m)
      | none, none => some (none, m)
    else if (m.get root).val > key then do
      let (left, m) ← deleteNode fuel m (m.get root).left key
      some (some root, setLeft m root left)
    else do
      let (right, m) ← deleteNode fuel m (m.get root).right key
      some (some root, setRight m root right)

def fields : Fields Node ℤ := ⟨Node.val, Node.left, Node.right⟩

/-- The tree of values at a pointer; `s` are the addresses of its nodes. -/
abbrev StoredTree (m : Nodes) (p : Option ℕ) (s : BinaryTree ℕ) (t : TreeNode) : Prop := Stored fields m p s t

/-- After a call for the nodes of `s` what is left of them holds `t'`, and no other node has changed. -/
def After (m : Nodes) (s : BinaryTree ℕ) (t' : TreeNode) (out : Option ℕ × Nodes) : Prop :=
  ∃ s', StoredTree out.2 out.1 s' t' ∧ (inorder s').Sublist (inorder s) ∧ ∀ x ∉ inorder s, out.2.get x = m.get x

variable {m : Nodes} {p : Option ℕ} {s sl sr : BinaryTree ℕ} {t l r t' : TreeNode} {a : ℕ} {v key : ℤ}

/-! ## The parts of a call -/

theorem leftmost_returns {w : ℤ} {l r : TreeNode} (h : StoredTree m (some a) s (node w l r)) :
    ∃ tmp, Returns (leftmost m a) tmp ∧ (m.get tmp).val = LeetCode.leftmost w l := by
  induction l generalizing a s w r with
  | nil =>
    obtain ⟨b, sl, sr, hb, -, hval, hl, -⟩ := h.of_node
    cases hb
    have hnone : (m.get a).left = none := hl.of_nil.1
    refine ⟨a, Returns.leave ?_, hval⟩
    simp only [hnone]
  | node v l r' ih _ =>
    obtain ⟨b, sl, sr, hb, -, -, hl, -⟩ := h.of_node
    cases hb
    obtain ⟨c, -, -, hc, -⟩ := hl.of_node
    have hleft : (m.get a).left = some c := hc
    obtain ⟨tmp, hreturns, hval⟩ := ih (hc ▸ hl)
    refine ⟨tmp, Returns.again ?_ hreturns, hval⟩
    simp only [hleft]

/-- A subtree is exchanged for what is left of it. -/
theorem After.left (h : StoredTree m (some a) (node a sl sr) (node v l r)) {l' : TreeNode} {out : Option ℕ × Nodes}
    (hout : After m sl l' out) :
    After m (node a sl sr) (node v l' r) (some a, setLeft out.2 a out.1) := by
  obtain ⟨s', hs', hsub, hframe⟩ := hout
  obtain ⟨b, sl₁, sr₁, hb, hs, hval, -, hr⟩ := h.of_node
  cases hb
  cases hs
  obtain ⟨hal, har, hlr⟩ := disjoint_inorder_node h.nodup
  have hsub' : (inorder (node a s' sr)).Sublist (inorder (node a sl sr)) := hsub.append_right _
  have hget : ∀ x, (setLeft out.2 a out.1).get x = if x = a then { out.2.get a with left := out.1 } else out.2.get x :=
    fun x => Memory.get_set _ _ _ _
  have ha : (setLeft out.2 a out.1).get a = { m.get a with left := out.1 } := by rw [hget, if_pos rfl, hframe a hal]
  refine ⟨node a s' sr, ?_, hsub', fun x hx => ?_⟩
  · have hl' : StoredTree (setLeft out.2 a out.1) ((setLeft out.2 a out.1).get a).left s' l' := by
      rw [ha]
      exact hs'.set (fun hmem => hal (hsub.subset hmem)) _
    have hr' : StoredTree (setLeft out.2 a out.1) ((setLeft out.2 a out.1).get a).right sr r := by
      rw [ha]
      exact (hr.congr fun x hx => hframe x fun hmem => hlr x hmem hx).set har _
    have hnode := Stored.node (h.nodup.sublist hsub') hl' hr'
    rwa [show fields.val ((setLeft out.2 a out.1).get a) = v by rw [ha]; exact hval] at hnode
  · rw [mem_inorder_node, not_or, not_or] at hx
    rw [hget, if_neg hx.2.1]
    exact hframe x hx.1

theorem After.right (h : StoredTree m (some a) (node a sl sr) (node v l r)) {r' : TreeNode} {out : Option ℕ × Nodes}
    (hout : After m sr r' out) :
    After m (node a sl sr) (node v l r') (some a, setRight out.2 a out.1) := by
  obtain ⟨s', hs', hsub, hframe⟩ := hout
  obtain ⟨b, sl₁, sr₁, hb, hs, hval, hl, -⟩ := h.of_node
  cases hb
  cases hs
  obtain ⟨hal, har, hlr⟩ := disjoint_inorder_node h.nodup
  have hsub' : (inorder (node a sl s')).Sublist (inorder (node a sl sr)) :=
    List.Sublist.append_left (hsub.cons_cons a) _
  have hget : ∀ x, (setRight out.2 a out.1).get x =
      if x = a then { out.2.get a with right := out.1 } else out.2.get x := fun x => Memory.get_set _ _ _ _
  have ha : (setRight out.2 a out.1).get a = { m.get a with right := out.1 } := by rw [hget, if_pos rfl, hframe a har]
  refine ⟨node a sl s', ?_, hsub', fun x hx => ?_⟩
  · have hl' : StoredTree (setRight out.2 a out.1) ((setRight out.2 a out.1).get a).left sl l := by
      rw [ha]
      exact (hl.congr fun x hx => hframe x fun hmem => hlr x hx hmem).set hal _
    have hr' : StoredTree (setRight out.2 a out.1) ((setRight out.2 a out.1).get a).right s' r' := by
      rw [ha]
      exact hs'.set (fun hmem => har (hsub.subset hmem)) _
    have hnode := Stored.node (h.nodup.sublist hsub') hl' hr'
    rwa [show fields.val ((setRight out.2 a out.1).get a) = v by rw [ha]; exact hval] at hnode
  · rw [mem_inorder_node, not_or, not_or] at hx
    rw [hget, if_neg hx.2.1]
    exact hframe x hx.2.2

/-- The value of the root is overwritten. -/
theorem After.setVal {s : BinaryTree ℕ} {m' : Nodes} (hout : After m s t' (some a, m')) (ha : a ∈ inorder s) (val : ℤ) :
    After m s (LeetCode.setVal val t') (some a, setVal m' a val) := by
  obtain ⟨s', hs', hsub, hframe⟩ := hout
  have hget : ∀ x, (DeleteNode.setVal m' a val).get x = if x = a then { m'.get a with val } else m'.get x :=
    fun x => Memory.get_set _ _ _ _
  refine ⟨s', ?_, hsub, fun x hx => ?_⟩
  · cases t' with
    | nil => cases hs'.of_nil.1
    | node v l r =>
      obtain ⟨b, sl, sr, hb, rfl, -, hl, hr⟩ := hs'.of_node
      cases hb
      obtain ⟨hal, har, -⟩ := disjoint_inorder_node hs'.nodup
      have hroot : (DeleteNode.setVal m' a val).get a = { m'.get a with val } := by rw [hget, if_pos rfl]
      have hnode := Stored.node (f := fields) (m := DeleteNode.setVal m' a val) hs'.nodup
        (by rw [hroot]; exact hl.set hal _) (by rw [hroot]; exact hr.set har _)
      rwa [show fields.val ((DeleteNode.setVal m' a val).get a) = val by rw [hroot]; rfl] at hnode
  · have hne : x ≠ a := by
      rintro rfl
      exact hx ha
    rw [hget, if_neg hne]
    exact hframe x hx

/-- The left subtree of the root is hung below its right child. -/
theorem After.hang {b : ℕ} {sc : BinaryTree ℕ} {w : ℤ} {c : TreeNode} {left : Option ℕ}
    (hnodup : (inorder (node a sl (node b nil sc))).Nodup) (hl : StoredTree m left sl l)
    (hr : StoredTree m (some b) (node b nil sc) (node w nil c)) :
    After m (node a sl (node b nil sc)) (node w l c) (some b, setLeft m b left) := by
  obtain ⟨b', sl', sc', hb, hs, hval, -, hc⟩ := hr.of_node
  cases hb
  cases hs
  have hsub : (inorder (node b sl sc)).Sublist (inorder (node a sl (node b nil sc))) :=
    List.Sublist.append_left (List.sublist_cons_self a _) _
  obtain ⟨hbl, hbc, -⟩ := disjoint_inorder_node (hnodup.sublist hsub)
  have hget : ∀ x, (setLeft m b left).get x = if x = b then { m.get b with left } else m.get x :=
    fun x => Memory.get_set _ _ _ _
  have hb : (setLeft m b left).get b = { m.get b with left } := by rw [hget, if_pos rfl]
  refine ⟨node b sl sc, ?_, hsub, fun x hx => ?_⟩
  · have hnode := Stored.node (f := fields) (m := setLeft m b left) (hnodup.sublist hsub)
      (by rw [hb]; exact hl.set hbl _) (by rw [hb]; exact hc.set hbc _)
    rwa [show fields.val ((setLeft m b left).get b) = w by rw [hb]; exact hval] at hnode
  · rw [hget, if_neg]
    rintro rfl
    exact hx (mem_inorder_node.2 (.inr (.inr (mem_inorder_node.2 (.inr (.inl rfl))))))

/-! ## The calls on the nodes do what the function on trees does -/

/-- If the smallest key to the right is the key itself, the call on the node does not end. -/
theorem deleteNode_self {w x : ℤ} {a b c : TreeNode} (hv : LeetCode.leftmost w (node x a b) = v) (fuel : ℕ) :
    LeetCode.deleteNode fuel (node v l (node w (node x a b) c)) v = none := by
  induction fuel with
  | zero => rfl
  | succ fuel ih =>
    unfold LeetCode.deleteNode
    rw [if_pos rfl]
    simp only [hv, ih, Option.map_none]

theorem deleteNode_noRight (h : StoredTree m (some a) s (node v l nil)) :
    ∃ out, Returns (fun fuel => deleteNode fuel m (some a) v) out ∧ After m s l out := by
  obtain ⟨b, sl, sr, hb, rfl, hval, hl, hr⟩ := h.of_node
  cases hb
  have hval : (m.get a).val = v := hval
  have hright : (m.get a).right = none := hr.of_nil.1
  have hsub : (inorder sl).Sublist (inorder (node a sl sr)) := List.sublist_append_left _ _
  refine ⟨((m.get a).left, m), ?_, sl, hl, hsub, fun _ _ => rfl⟩
  refine Returns.call (fun fuel => ?_) (Returns.pure _)
  rw [deleteNode, if_pos hval, hright]
  cases (m.get a).left <;> rfl

theorem deleteNode_hang {w : ℤ} {c : TreeNode} (h : StoredTree m (some a) s (node v l (node w nil c))) :
    ∃ out, Returns (fun fuel => deleteNode fuel m (some a) v) out ∧ After m s (node w l c) out := by
  obtain ⟨a', sl, sr, ha, rfl, hval, hl, hr⟩ := h.of_node
  cases ha
  obtain ⟨b, sb, sc, hb, rfl, -, hnil, -⟩ := hr.of_node
  have hval : (m.get a).val = v := hval
  have hright : (m.get a).right = some b := hb
  have hnone : (m.get b).left = none := hnil.of_nil.1
  obtain rfl := hnil.of_nil.2
  have hafter := After.hang h.nodup hl (hb ▸ hr)
  refine ⟨(some b, setLeft m b (m.get a).left), ?_, hafter⟩
  refine Returns.call (fun fuel => ?_) (Returns.pure _)
  rw [deleteNode, if_pos hval, hright]
  simp only [hnone, ne_eq, not_true_eq_false, if_false]
  cases hleft : (m.get a).left with
  | none =>
    have hsame : setLeft m b none = m := by
      unfold setLeft
      rw [← hnone]
      exact Memory.set_get_self m b
    rw [hsame]
  | some left => rfl

theorem deleteNode_replace {w x : ℤ} {d b c : TreeNode} {m' : Nodes}
    (h : StoredTree m (some a) s (node v l (node w (node x d b) c)))
    (hrec : Returns (fun fuel => deleteNode fuel m (some a) (LeetCode.leftmost w (node x d b))) (some a, m'))
    (hafter : After m s t' (some a, m')) :
    ∃ m₂, Returns (fun fuel => deleteNode fuel m (some a) v) (some a, m₂) ∧
      After m s (LeetCode.setVal (LeetCode.leftmost w (node x d b)) t') (some a, m₂) := by
  obtain ⟨a', sl, sr, ha, rfl, hval, -, hr⟩ := h.of_node
  cases ha
  obtain ⟨e, se, sc, he, -, -, hleft, -⟩ := hr.of_node
  obtain ⟨g, sg, sd, hg, -⟩ := hleft.of_node
  have hval : (m.get a).val = v := hval
  have hright : (m.get a).right = some e := he
  have hsome : (m.get e).left = some g := hg
  obtain ⟨tmp, htmp, hmin⟩ := leftmost_returns (he ▸ hr)
  refine ⟨_, ?_, hafter.setVal (mem_inorder_node.2 (.inr (.inl rfl))) _⟩
  rw [← hmin] at hrec ⊢
  refine Returns.call (fun fuel => ?_) (htmp.bind (g := fun tmp fuel =>
    (deleteNode fuel m (some a) (m.get tmp).val).bind fun out => some (some a, setVal out.2 a (m.get tmp).val))
    (hrec.bind (g := fun out _ => some (some a, setVal out.2 a (m.get tmp).val)) (Returns.pure _)))
  rw [deleteNode, if_pos hval, hright]
  simp only [hsome, ne_eq, reduceCtorEq, not_false_eq_true, if_true]
  rfl

/-- The key is looked for to the right. -/
theorem deleteNode_below_right (hlt : (m.get a).val < key) {out : Option ℕ × Nodes}
    (hrec : Returns (fun fuel => deleteNode fuel m (m.get a).right key) out) :
    Returns (fun fuel => deleteNode fuel m (some a) key) (some a, setRight out.2 a out.1) := by
  refine Returns.call (fun fuel => ?_) (hrec.bind
    (g := fun out _ => some (some a, setRight out.2 a out.1)) (Returns.pure _))
  rw [deleteNode, if_neg (ne_of_lt hlt), if_neg (lt_asymm hlt)]
  rfl

theorem deleteNode_below_left (hgt : key < (m.get a).val) {out : Option ℕ × Nodes}
    (hrec : Returns (fun fuel => deleteNode fuel m (m.get a).left key) out) :
    Returns (fun fuel => deleteNode fuel m (some a) key) (some a, setLeft out.2 a out.1) := by
  refine Returns.call (fun fuel => ?_) (hrec.bind
    (g := fun out _ => some (some a, setLeft out.2 a out.1)) (Returns.pure _))
  rw [deleteNode, if_neg (ne_of_gt hgt), if_pos hgt]
  rfl

/-- The node with the key, if the call on it for another key, which is made to replace it, does what it should. -/
theorem deleteNode_found {fuel : ℕ} (h : StoredTree m (some a) s (node v l r)) (hval : (m.get a).val = v)
    (hdel : LeetCode.deleteNode (fuel + 1) (node v l r) v = some t')
    (hinner : ∀ key t', LeetCode.deleteNode fuel (node v l r) key = some t' →
      ∃ out, Returns (fun fuel => deleteNode fuel m (some a) key) out ∧ After m s t' out ∧
        ((m.get a).val ≠ key → out.1 = some a)) :
    ∃ out, Returns (fun fuel => deleteNode fuel m (some a) v) out ∧ After m s t' out := by
  unfold LeetCode.deleteNode at hdel
  rw [if_pos rfl] at hdel
  rcases r with - | ⟨w, - | ⟨x, d, b⟩, c⟩
  · have hresult : l = t' := by
      cases l <;> exact Option.some.inj hdel
    exact hresult ▸ deleteNode_noRight h
  · have hresult : node w l c = t' := by
      cases l <;> exact Option.some.inj hdel
    exact hresult ▸ deleteNode_hang h
  · obtain ⟨t'', hrec, rfl⟩ := Option.map_eq_some_iff.1 hdel
    obtain ⟨out, hreturns, hafter, hsame⟩ := hinner _ _ hrec
    -- the inner call keeps the node as the root, as it is for another key
    have hne : (m.get a).val ≠ LeetCode.leftmost w (node x d b) := by
      intro heq
      rw [← heq, hval, deleteNode_self (heq.symm.trans hval)] at hrec
      cases hrec
    have hout : out = (some a, out.2) := Prod.ext (hsame hne) rfl
    rw [hout] at hreturns hafter
    obtain ⟨m₂, hreturns₂, hafter₂⟩ := deleteNode_replace h hreturns hafter
    exact ⟨(some a, m₂), hreturns₂, hafter₂⟩

/-- Whatever the function on trees returns, the call on the nodes leaves. A node whose key is another one stays the
root. -/
theorem deleteNode_refines {fuel : ℕ} (h : StoredTree m p s t) (hdel : LeetCode.deleteNode fuel t key = some t') :
    ∃ out, Returns (fun fuel => deleteNode fuel m p key) out ∧ After m s t' out ∧
      ∀ a, p = some a → (m.get a).val ≠ key → out.1 = some a := by
  induction fuel generalizing m p s t key t' with
  | zero => cases hdel
  | succ fuel ih =>
    cases t with
    | nil =>
      cases hdel
      obtain ⟨rfl, rfl⟩ := h.of_nil
      refine ⟨(none, m), Returns.call (fun _ => rfl) (Returns.pure _), ?_, fun a ha => by cases ha⟩
      exact ⟨nil, stored_nil, List.Sublist.refl _, fun _ _ => rfl⟩
    | node v l r =>
      obtain ⟨a, sl, sr, rfl, rfl, hval, hl, hr⟩ := h.of_node
      have hval : (m.get a).val = v := hval
      rcases lt_trichotomy v key with hlt | rfl | hgt
      · unfold LeetCode.deleteNode at hdel
        rw [if_neg (ne_of_lt hlt), if_neg (lt_asymm hlt)] at hdel
        obtain ⟨r', hrec, rfl⟩ := Option.map_eq_some_iff.1 hdel
        obtain ⟨out, hreturns, hafter, -⟩ := ih hr hrec
        have hcall := deleteNode_below_right (hval.trans_lt hlt) hreturns
        exact ⟨(some a, setRight out.2 a out.1), hcall, hafter.right h, fun b hb _ => hb⟩
      · obtain ⟨out, hreturns, hafter⟩ := deleteNode_found h hval hdel fun key t' hrec => by
          obtain ⟨out, hreturns, hafter, hsame⟩ := ih h hrec
          exact ⟨out, hreturns, hafter, hsame a rfl⟩
        refine ⟨out, hreturns, hafter, fun b hb hne => ?_⟩
        obtain rfl := Option.some.inj hb
        exact absurd hval hne
      · unfold LeetCode.deleteNode at hdel
        rw [if_neg (ne_of_gt hgt), if_pos hgt] at hdel
        obtain ⟨l', hrec, rfl⟩ := Option.map_eq_some_iff.1 hdel
        obtain ⟨out, hreturns, hafter, -⟩ := ih hl hrec
        have hcall := deleteNode_below_left (hgt.trans_eq hval.symm) hreturns
        exact ⟨(some a, setLeft out.2 a out.1), hcall, hafter.left h, fun b hb _ => hb⟩

/-- Without the key every field is set to what it is. -/
theorem deleteNode_absent (h : StoredTree m p s t) (ht : SearchTree t) (hkey : key ∉ keys t) :
    Returns (fun fuel => deleteNode fuel m p key) (p, m) := by
  induction t generalizing p s with
  | nil =>
    rw [h.of_nil.1]
    exact Returns.call (fun _ => rfl) (Returns.pure _)
  | node v l r ihl ihr =>
    obtain ⟨a, sl, sr, rfl, rfl, hval, hl, hr⟩ := h.of_node
    have hval : (m.get a).val = v := hval
    rcases lt_trichotomy v key with hlt | rfl | hgt
    · have hrec := ihr hr ht.2.2.2 fun hmem => hkey ((ht.mem_right hlt).2 hmem)
      have hsame : setRight m a (m.get a).right = m := Memory.set_get_self m a
      have hcall := deleteNode_below_right (hval.trans_lt hlt) hrec
      simpa only [fields, hsame] using hcall
    · exact (hkey (mem_keys_node.2 (.inl rfl))).elim
    · have hrec := ihl hl ht.2.2.1 fun hmem => hkey ((ht.mem_left hgt).2 hmem)
      have hsame : setLeft m a (m.get a).left = m := Memory.set_get_self m a
      have hcall := deleteNode_below_left (hgt.trans_eq hval.symm) hrec
      simpa only [fields, hsame] using hcall

/-- On a search tree the call returns, and leaves a search tree with the keys but the one that is deleted; if there is
no such key, nothing changes. -/
theorem deleteNode_deletes (m : Nodes) (p : Option ℕ) (s : BinaryTree ℕ) (t : TreeNode) (key : ℤ)
    (h : StoredTree m p s t) (ht : SearchTree t) :
    ∃ p' m' s' t', Returns (fun fuel => deleteNode fuel m p key) (p', m') ∧ StoredTree m' p' s' t' ∧
      SearchTree t' ∧ keys t' = (keys t).erase key ∧ (key ∉ keys t → p' = p ∧ m' = m) := by
  by_cases hkey : key ∈ keys t
  · obtain ⟨t', ⟨n, hn⟩, hsearch, hkeys⟩ := deleteNode_returns ht key
    obtain ⟨⟨p', m'⟩, hreturns, ⟨s', hs', -⟩, -⟩ := deleteNode_refines h (hn n le_rfl)
    exact ⟨p', m', s', t', hreturns, hs', hsearch, hkeys, fun hnot => (hnot hkey).elim⟩
  · exact ⟨p, m, s, t, deleteNode_absent h ht hkey, h, ht, (Finset.erase_eq_of_notMem hkey).symm, fun _ => ⟨rfl, rfl⟩⟩

/-- The root 2 of a tree with the keys 1 and 2. -/
theorem deleteNode_deletes_root : ∃ p' m' s' t',
    Returns (fun fuel => deleteNode fuel ⟨fun a => if a = 0 then ⟨2, some 1, none⟩ else ⟨1, none, none⟩, 2⟩ (some 0) 2)
      (p', m') ∧ StoredTree m' p' s' t' ∧ SearchTree t' ∧ keys t' = {1} := by
  obtain ⟨p', m', s', t', hreturns, hstored, hsearch, hkeys, -⟩ := deleteNode_deletes
    ⟨fun a => if a = 0 then ⟨2, some 1, none⟩ else ⟨1, none, none⟩, 2⟩ (some 0) (node 0 (node 1 nil nil) nil)
    (node 2 (node 1 nil nil) nil) 2 ⟨⟨rfl, ⟨rfl, rfl, rfl⟩, rfl⟩, by decide, rfl⟩ (by simp [SearchTree])
  exact ⟨p', m', s', t', hreturns, hstored, hsearch, hkeys.trans (by decide)⟩

end GoodGoodStudy.LeetCode.DeleteNode
