/-
Stable sorting: the elements of a list in the order of their keys, where elements with the same key keep the order that
they had. Two parts of a list that are sorted so are merged, and where the keys are equal the element of the first part
comes first.
-/
import Mathlib.Data.List.Perm.Basic
import Mathlib.Data.List.Sort

namespace GoodGoodStudy.Lib

variable {α κ : Type*} [LinearOrder κ] {key : α → κ} {c : κ} {l res L L' R R' : List α} {x : α}

/-- The elements with a key, in their order. -/
def keyed (key : α → κ) (c : κ) (l : List α) : List α := l.filter fun a => key a = c

@[simp] theorem keyed_nil : keyed key c [] = [] := rfl

@[simp] theorem keyed_append : keyed key c (L ++ R) = keyed key c L ++ keyed key c R := List.filter_append L R

theorem keyed_cons : keyed key c (x :: l) = if key x = c then x :: keyed key c l else keyed key c l := by
  rw [keyed, keyed, List.filter_cons]
  split_ifs with hdec hx hx
  · rfl
  · exact absurd (of_decide_eq_true hdec) hx
  · exact absurd (decide_eq_true hx) hdec
  · rfl

theorem keyed_eq_nil (h : ∀ a ∈ l, key a ≠ c) : keyed key c l = [] :=
  List.filter_eq_nil_iff.2 fun a ha hdec => h a ha (of_decide_eq_true hdec)

/-- `res` is `l` in the order of the keys, and elements with the same key keep their order. -/
structure StableSort (key : α → κ) (l res : List α) : Prop where
  perm : res.Perm l
  pairwise : res.Pairwise fun a b => key a ≤ key b
  keyed : ∀ c, keyed key c res = keyed key c l

theorem StableSort.short (h : l.length ≤ 1) : StableSort key l l where
  perm := List.Perm.refl l
  pairwise := by
    match l, h with
    | [], _ => exact List.Pairwise.nil
    | [a], _ => exact List.pairwise_singleton _ a
  keyed _ := rfl

/-! ## Merging -/

/-- The elements of the list that is merged first come first where the keys are equal. -/
def mergeBy (key : α → κ) (L R : List α) : List α := L.merge R fun a b => key a ≤ key b

@[simp] theorem mergeBy_nil_left : mergeBy key [] R = R := List.nil_merge R

@[simp] theorem mergeBy_nil_right : mergeBy key L [] = L := List.merge_right L

theorem mergeBy_cons {y : α} : mergeBy key (x :: L) (y :: R) =
    if key x ≤ key y then x :: mergeBy key L (y :: R) else y :: mergeBy key (x :: L) R := by
  rw [mergeBy, List.cons_merge_cons]
  simp only [decide_eq_true_eq]
  rfl

theorem mergeBy_perm : (mergeBy key L R).Perm (L ++ R) := List.merge_perm_append _

theorem mergeBy_pairwise (hL : L.Pairwise fun a b => key a ≤ key b) (hR : R.Pairwise fun a b => key a ≤ key b) :
    (mergeBy key L R).Pairwise fun a b => key a ≤ key b := by
  have h := @List.pairwise_merge α (fun a b => decide (key a ≤ key b))
    (fun a b c hab hbc => decide_eq_true ((of_decide_eq_true hab).trans (of_decide_eq_true hbc)))
    (fun a b => by simpa using le_total (key a) (key b)) L R
  simp only [decide_eq_true_eq] at h
  exact h hL hR

/-- An element of the second list comes before one of the first only where its key is smaller. -/
theorem keyed_mergeBy (c : κ) : ∀ {L R : List α}, L.Pairwise (fun a b => key a ≤ key b) →
    keyed key c (mergeBy key L R) = keyed key c L ++ keyed key c R
  | [], R, _ => by simp
  | L, [], _ => by simp
  | x :: L, y :: R, hL => by
    rw [mergeBy_cons]
    split_ifs with hxy
    · rw [keyed_cons, keyed_mergeBy c hL.of_cons, keyed_cons (x := x)]
      split_ifs <;> rfl
    · rw [keyed_cons, keyed_mergeBy c hL, keyed_cons (x := y)]
      split_ifs with hy
      · have hnil : keyed key c (x :: L) = [] := by
          refine keyed_eq_nil fun a ha hac => hxy ?_
          have hxa : key x ≤ key a := by
            rcases List.mem_cons.1 ha with rfl | ha
            · exact le_rfl
            · exact List.rel_of_pairwise_cons hL ha
          exact hxa.trans (hac.trans hy.symm).le
        rw [hnil, List.nil_append, List.nil_append]
      · rfl

theorem StableSort.merge (hL : StableSort key L L') (hR : StableSort key R R') :
    StableSort key (L ++ R) (mergeBy key L' R') where
  perm := mergeBy_perm.trans (hL.perm.append hR.perm)
  pairwise := mergeBy_pairwise hL.pairwise hR.pairwise
  keyed c := by rw [keyed_mergeBy c hL.pairwise, hL.keyed c, hR.keyed c, keyed_append]

end GoodGoodStudy.Lib
