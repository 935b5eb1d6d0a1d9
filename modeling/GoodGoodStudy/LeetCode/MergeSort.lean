/-
Merge sort: the two halves of a list are sorted and merged. The records are compared by a key. The comment at the end of
the source calls the sort unstable, but `merge` takes the record of the left half where the keys are equal.
-/
import GoodGoodStudy.Lib.Stable

namespace GoodGoodStudy.LeetCode.MergeSort

open GoodGoodStudy.Lib

variable {α κ : Type} [LinearOrder κ]

/-- The loop of `merge`, and what follows it, from the two indices and `res`. -/
def merge (key : α → κ) (left right : List α) (l r : ℕ) (res : List α) : List α :=
  if h : l < left.length ∧ r < right.length then
    if key (left.get ⟨l, h.1⟩) ≤ key (right.get ⟨r, h.2⟩) then
      merge key left right (l + 1) r (res ++ [left.get ⟨l, h.1⟩])
    else merge key left right l (r + 1) (res ++ [right.get ⟨r, h.2⟩])
  else res ++ left.drop l ++ right.drop r
termination_by left.length - l + (right.length - r)

def merge_sort (key : α → κ) (nums : List α) : List α :=
  if nums.length ≤ 1 then nums
  else
    let mid := nums.length >>> 1
    merge key (merge_sort key (nums.take mid)) (merge_sort key (nums.drop mid)) 0 0 []
termination_by nums.length
decreasing_by
  · rw [List.length_take, Nat.shiftRight_eq_div_pow]
    omega
  · rw [List.length_drop, Nat.shiftRight_eq_div_pow]
    omega

variable {key : α → κ}

theorem drop_eq_cons {l : List α} {i : ℕ} (h : i < l.length) : l.drop i = l.get ⟨i, h⟩ :: l.drop (i + 1) :=
  List.drop_eq_getElem_cons h

/-- The loop merges what is behind the indices. -/
theorem merge_eq (left right : List α) (l r : ℕ) (res : List α) :
    merge key left right l r res = res ++ mergeBy key (left.drop l) (right.drop r) := by
  fun_induction merge key left right l r res with
  | case1 l r res h hle ih =>
    rw [ih, List.append_assoc, drop_eq_cons h.1, drop_eq_cons h.2, mergeBy_cons, if_pos hle]
    rfl
  | case2 l r res h hle ih =>
    rw [ih, List.append_assoc, drop_eq_cons h.1, drop_eq_cons h.2, mergeBy_cons, if_neg hle]
    rfl
  | case3 l r res h =>
    rw [List.append_assoc]
    rcases not_and_or.1 h with hl | hr
    · rw [List.drop_eq_nil_of_le (Nat.le_of_not_lt hl), mergeBy_nil_left, List.nil_append]
    · rw [List.drop_eq_nil_of_le (Nat.le_of_not_lt hr), mergeBy_nil_right, List.append_nil]

theorem merge_sort_stable (key : α → κ) (nums : List α) : StableSort key nums (merge_sort key nums) := by
  fun_induction merge_sort key nums with
  | case1 nums h => exact StableSort.short h
  | case2 nums h mid ihl ihr =>
    rw [merge_eq, List.nil_append, List.drop_zero, List.drop_zero]
    have hmerge := ihl.merge ihr
    rwa [List.take_append_drop] at hmerge

example : merge_sort Prod.fst [(2, 'a'), (1, 'b'), (2, 'c'), (1, 'd')] = [(1, 'b'), (1, 'd'), (2, 'a'), (2, 'c')] := by
  simp [merge_sort, merge]

end GoodGoodStudy.LeetCode.MergeSort
