/-
The exercise 42, trapping rain water. One loop collects the greatest height so far from the left, another one from the
right. Of the two at a place one is the greatest height of all; so what both lists sum up to, without the heights and
the greatest height at every place, is what the smaller ones are above the heights.
-/
import Mathlib.Algebra.BigOperators.Group.Finset.Basic
import Mathlib.Algebra.BigOperators.Intervals
import Mathlib.Algebra.BigOperators.Ring.Finset
import Mathlib.Algebra.Ring.Int.Defs
import GoodGoodStudy.Lib.Loop

namespace GoodGoodStudy.LeetCode.Trap

/-! ## The code -/

/-- A round of one of the loops, on the greatest height so far and the list of them. -/
def raise (st : ℤ × List ℤ) (h : ℤ) : ℤ × List ℤ :=
  let (left, leftMax) := st
  if h > left then (h, leftMax ++ [h]) else (left, leftMax ++ [left])

def trap (height : List ℤ) : ℤ :=
  let (_, leftMax) := height.foldl raise (-1, [])
  let (right, rightMax) := height.reverse.foldl raise (-1, [])
  leftMax.sum + rightMax.sum - height.sum - right * height.length

example : trap [0, 1, 0, 2, 1, 0, 1, 3, 2, 1, 2, 1] = 6 := by decide

/-- The greatest height of a part. -/
def greatest (height : List ℤ) : ℤ := height.max?.getD 0

/-- What stands on a place: up to the lower one of the greatest heights on its two sides. -/
def water (height : List ℤ) (i : ℕ) : ℤ :=
  max 0 (min (greatest (height.take (i + 1))) (greatest (height.drop i)) - height.getD i 0)

variable {height l : List ℤ} {h m : ℤ} {i : ℕ}

/-! ## The greatest height -/

theorem greatest_eq_iff (hne : l ≠ []) : greatest l = m ↔ m ∈ l ∧ ∀ h ∈ l, h ≤ m := by
  rw [← List.max?_eq_some_iff, greatest]
  obtain ⟨g, hg⟩ := Option.isSome_iff_exists.1 (List.isSome_max?_of_ne_nil hne)
  rw [hg, Option.getD_some, Option.some_inj]

theorem greatest_mem (hne : l ≠ []) : greatest l ∈ l := ((greatest_eq_iff hne).1 rfl).1

theorem le_greatest (hh : h ∈ l) : h ≤ greatest l := ((greatest_eq_iff (List.ne_nil_of_mem hh)).1 rfl).2 h hh

theorem greatest_reverse (l : List ℤ) : greatest l.reverse = greatest l := by
  by_cases hne : l = []
  · rw [hne, List.reverse_nil]
  · refine (greatest_eq_iff (by simpa using hne)).2 ⟨List.mem_reverse.2 (greatest_mem hne), fun h hh => ?_⟩
    exact le_greatest (List.mem_reverse.1 hh)

/-- Of a list in two parts. -/
theorem greatest_append {l' : List ℤ} (hne : l ≠ []) (hne' : l' ≠ []) :
    greatest (l ++ l') = max (greatest l) (greatest l') := by
  refine (greatest_eq_iff (by simp [hne])).2 ⟨?_, fun h hh => ?_⟩
  · rcases max_choice (greatest l) (greatest l') with hmax | hmax
    · rw [hmax]
      exact List.mem_append_left l' (greatest_mem hne)
    · rw [hmax]
      exact List.mem_append_right l (greatest_mem hne')
  · rcases List.mem_append.1 hh with hh | hh
    · exact (le_greatest hh).trans (le_max_left _ _)
    · exact (le_greatest hh).trans (le_max_right _ _)

/-! ## The loops -/

/-- The greatest heights up to each place. -/
def tops (l : List ℤ) : List ℤ := (List.range l.length).map fun i => greatest (l.take (i + 1))

theorem tops_concat (l : List ℤ) (h : ℤ) : tops (l ++ [h]) = tops l ++ [greatest (l ++ [h])] := by
  have hall : (l ++ [h]).take (l.length + 1) = l ++ [h] := List.take_of_length_le (by simp)
  rw [tops, List.length_append, List.length_singleton, List.range_succ, List.map_append, List.map_singleton, hall]
  refine congrArg (· ++ _) (List.map_congr_left fun i hi => ?_)
  rw [List.take_append_of_le_length (List.mem_range.1 hi)]

/-- A loop has the greatest height in the end, and the list has those on the way. -/
theorem foldl_raise (h : ∀ h ∈ l, 0 ≤ h) :
    l.foldl raise (-1, []) = (if l = [] then -1 else greatest l, tops l) := by
  induction l using List.reverseRecOn with
  | nil => rfl
  | append_singleton l a ih =>
    have ha : 0 ≤ a := h a (by simp)
    have hne : l ++ [a] ≠ [] := by simp
    rw [List.foldl_append, ih fun h' hh' => h h' (List.mem_append_left _ hh'), List.foldl_cons, List.foldl_nil,
      tops_concat, if_neg hne]
    unfold raise
    -- the first height raises the -1 at the start
    by_cases hl : l = []
    · subst hl
      simp only [if_true, if_pos (show a > -1 by omega)]
      rfl
    · have hone : greatest [a] = a := rfl
      simp only [if_neg hl, greatest_append hl (List.cons_ne_nil a []), hone]
      split_ifs with hgt
      · rw [max_eq_right hgt.le]
      · rw [max_eq_left (not_lt.1 hgt)]

/-! ## The sums -/

theorem sum_tops (l : List ℤ) : (tops l).sum = ∑ i ∈ Finset.range l.length, greatest (l.take (i + 1)) := rfl

/-- From the right the places are passed in the other order. -/
theorem sum_tops_reverse (l : List ℤ) : (tops l.reverse).sum = ∑ i ∈ Finset.range l.length, greatest (l.drop i) := by
  rw [sum_tops, List.length_reverse, ← Finset.sum_range_reflect]
  refine Finset.sum_congr rfl fun i hi => ?_
  have hlt := Finset.mem_range.1 hi
  have hindex : l.length - (l.length - 1 - i + 1) = i := by omega
  rw [List.take_reverse, greatest_reverse, hindex]

theorem sum_eq (l : List ℤ) : l.sum = ∑ i ∈ Finset.range l.length, l.getD i 0 := by
  induction l using List.reverseRecOn with
  | nil => rfl
  | append_singleton l a ih =>
    rw [List.sum_append, List.sum_singleton, List.length_append, List.length_singleton, Finset.sum_range_succ, ih]
    refine congrArg₂ (· + ·) (Finset.sum_congr rfl fun i hi => ?_) (by simp)
    simp [List.getElem?_append_left (Finset.mem_range.1 hi)]

theorem greatest_mono {l' : List ℤ} (hne : l ≠ []) (hsub : l ⊆ l') : greatest l ≤ greatest l' :=
  le_greatest (hsub (greatest_mem hne))

/-- One of the two greatest heights is the greatest of all, and neither is below the place. -/
theorem water_eq (hi : i < height.length) : water height i =
    greatest (height.take (i + 1)) + greatest (height.drop i) - height.getD i 0 - greatest height := by
  have hget : height.getD i 0 = height[i] := by
    rw [List.getD_eq_getElem?_getD, List.getElem?_eq_getElem hi, Option.getD_some]
  have hleft : height[i] ∈ height.take (i + 1) := by
    rw [← List.take_append_getElem hi]
    exact List.mem_append_right _ (List.mem_singleton_self _)
  have hright : height[i] ∈ height.drop i := by
    rw [List.drop_eq_getElem_cons hi]
    exact List.mem_cons_self
  have hall : max (greatest (height.take (i + 1))) (greatest (height.drop i)) = greatest height := by
    refine le_antisymm (max_le ?_ ?_) ?_
    · exact greatest_mono (List.ne_nil_of_mem hleft) (List.take_subset _ _)
    · exact greatest_mono (List.ne_nil_of_mem hright) (List.drop_subset _ _)
    · have hmem : greatest height ∈ height.take i ++ height.drop i := by
        rw [List.take_append_drop]
        exact greatest_mem (List.ne_nil_of_mem (List.getElem_mem hi))
      rcases List.mem_append.1 hmem with hmem | hmem
      · exact (le_greatest (List.take_subset_take_left height (Nat.le_succ i) hmem)).trans (le_max_left _ _)
      · exact (le_greatest hmem).trans (le_max_right _ _)
  -- the smaller one of the two is their sum less the greatest height of all
  have hle := le_greatest hleft
  have hle' := le_greatest hright
  rw [water, hget]
  omega

/-- For heights that are not negative the result is the water on all places. -/
theorem trap_eq_sum (height : List ℤ) (hheight : ∀ h ∈ height, 0 ≤ h) :
    trap height = ∑ i ∈ Finset.range height.length, water height i := by
  have hreverse : ∀ h ∈ height.reverse, 0 ≤ h := fun h hh => hheight h (List.mem_reverse.1 hh)
  have hsum : ∑ i ∈ Finset.range height.length, water height i = ∑ i ∈ Finset.range height.length,
      (greatest (height.take (i + 1)) + greatest (height.drop i) - height.getD i 0 - greatest height) :=
    Finset.sum_congr rfl fun i hi => water_eq (Finset.mem_range.1 hi)
  unfold trap
  rw [foldl_raise hheight, foldl_raise hreverse, hsum, Finset.sum_sub_distrib, Finset.sum_sub_distrib,
    Finset.sum_add_distrib, Finset.sum_const, Finset.card_range, ← sum_tops, ← sum_tops_reverse, ← sum_eq]
  -- `right` is the greatest height of all, unless there is none
  by_cases hnil : height = []
  · subst hnil
    rfl
  · have hnil' : ¬ height.reverse = [] := by simpa using hnil
    simp only [if_neg hnil', greatest_reverse, nsmul_eq_mul, Int.mul_comm]

theorem trap_eq_sum_three : trap [2, 0, 1] = ∑ i ∈ Finset.range 3, water [2, 0, 1] i :=
  trap_eq_sum [2, 0, 1] (by decide)

end GoodGoodStudy.LeetCode.Trap
