/-
The pairs of places of a list, the first before the second, with related elements. Those of two parts of a list are the
pairs in each of them and the pairs across, and the pairs across do not depend on the order of the elements in the parts.
Where one part is sorted, the elements of it that are related to an element of the other may be the first ones.
-/
import Mathlib.Algebra.BigOperators.Fin
import Mathlib.Data.Fintype.BigOperators
import Mathlib.Data.List.Perm.Basic

namespace GoodGoodStudy.Lib

variable {α : Type*} (r : α → α → Prop) [DecidableRel r] {L L' R R' l : List α}

def pairs : List α → ℕ
  | [] => 0
  | a :: l => l.countP (r a ·) + pairs l

/-- The pairs of an element of the first list and one of the second. -/
def across : List α → List α → ℕ
  | [], _ => 0
  | a :: L, R => R.countP (r a ·) + across L R

theorem across_append (L L' R : List α) : across r (L ++ L') R = across r L R + across r L' R := by
  induction L with
  | nil => exact (Nat.zero_add _).symm
  | cons a L ih => rw [List.cons_append, across, across, ih, Nat.add_assoc]

theorem pairs_append (L R : List α) : pairs r (L ++ R) = pairs r L + pairs r R + across r L R := by
  induction L with
  | nil => simp [pairs, across]
  | cons a L ih =>
    rw [List.cons_append, pairs, pairs, across, ih, List.countP_append]
    omega

theorem across_perm (hL : L'.Perm L) (hR : R'.Perm R) : across r L' R' = across r L R := by
  have hright : ∀ L, across r L R' = across r L R := fun L => by
    induction L with
    | nil => rfl
    | cons a L ih => rw [across, across, ih, hR.countP_eq]
  rw [hright]
  induction hL with
  | nil => rfl
  | cons a _ ih => rw [across, across, ih]
  | swap a b L =>
    rw [across, across, across, across]
    omega
  | trans _ _ ih ih' => exact ih.trans ih'

theorem pairs_short (h : l.length ≤ 1) : pairs r l = 0 := by
  match l, h with
  | [], _ => rfl
  | [a], _ => rfl

theorem countP_eq_sum (p : α → Prop) [DecidablePred p] (l : List α) :
    l.countP (p ·) = ∑ i : Fin l.length, if p (l.get i) then 1 else 0 := by
  induction l with
  | nil => rfl
  | cons a l ih =>
    rw [List.countP_cons, ih, Nat.add_comm]
    simp only [List.length_cons, decide_eq_true_eq]
    exact (Fin.sum_univ_succ fun i : Fin (l.length + 1) => if p ((a :: l).get i) then 1 else 0).symm

theorem pairs_eq_card (l : List α) : pairs r l = (Finset.univ.filter fun p : Fin l.length × Fin l.length =>
    p.1 < p.2 ∧ r (l.get p.1) (l.get p.2)).card := by
  rw [Finset.card_filter, Fintype.sum_prod_type]
  induction l with
  | nil => rfl
  | cons a l ih =>
    rw [pairs, ih, countP_eq_sum]
    simp only [List.length_cons, Fin.sum_univ_succ, List.get_eq_getElem, Fin.val_zero, Fin.val_succ,
      List.getElem_cons_zero, List.getElem_cons_succ, Fin.succ_lt_succ_iff, Fin.succ_pos, Fin.not_lt_zero,
      false_and, true_and, if_false, Nat.zero_add]

/-- In a sorted list, the elements of a set that is closed downwards are the first ones. -/
theorem lt_countP_iff [Preorder α] {p : α → Prop} [DecidablePred p] (hp : ∀ a b, a ≤ b → p b → p a)
    (h : l.Pairwise (· ≤ ·)) {t : ℕ} (ht : t < l.length) : p (l.get ⟨t, ht⟩) ↔ t < l.countP (p ·) := by
  induction l generalizing t with
  | nil => exact absurd ht (Nat.not_lt_zero t)
  | cons a l ih =>
    by_cases ha : p a
    · rw [List.countP_cons_of_pos (by simpa using ha)]
      cases t with
      | zero => exact iff_of_true ha (Nat.succ_pos _)
      | succ t =>
        rw [Nat.succ_lt_succ_iff, ← ih h.of_cons (Nat.lt_of_succ_lt_succ ht)]
        rfl
    · have hnone : ∀ b ∈ a :: l, ¬ p b := fun b hb hpb => by
        rcases List.mem_cons.1 hb with rfl | hb
        · exact ha hpb
        · exact ha (hp a b (List.rel_of_pairwise_cons h hb) hpb)
      have hzero : (a :: l).countP (p ·) = 0 := List.countP_eq_zero.2 fun b hb => by simpa using hnone b hb
      rw [hzero]
      exact iff_of_false (hnone _ (List.get_mem _ _)) (Nat.not_lt_zero t)

end GoodGoodStudy.Lib
