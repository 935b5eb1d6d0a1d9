/-
The exercise 44, the first positive integer that is not in a list. If the list has no element from 0 on, the function
returns 0, which is not positive.
-/
import Mathlib.Algebra.Order.Ring.Int
import Mathlib.Data.List.Nodup
import Mathlib.Data.List.Perm.Subperm
import Mathlib.Order.Bounds.Basic

namespace GoodGoodStudy.LeetCode.FirstMissing

/-! ## The code -/

/-- The loop that looks for the maximum. -/
def maxNum (nums : List ℤ) : ℤ := nums.foldl (fun max_num i => if i > max_num then i else max_num) (-1)

/-- `nums.index(j)` raises an exception if `j` is not in the list. -/
def firstMissingPositive (nums : List ℤ) : ℤ :=
  if maxNum nums < 0 then 0
  else
    match (List.range' 1 nums.length).find? fun j : ℕ => (j : ℤ) ∉ nums with
    | some j => j
    | none => maxNum nums + 1

example : firstMissingPositive [3, 4, -1, 1] = 2 := by decide

example : firstMissingPositive [2, 1, 3] = 4 := by decide

/-! ## The maximum -/

theorem foldl_max (nums : List ℤ) (m : ℤ) :
    let max := nums.foldl (fun max_num i => if i > max_num then i else max_num) m
    (max = m ∨ max ∈ nums) ∧ m ≤ max ∧ ∀ x ∈ nums, x ≤ max := by
  induction nums generalizing m with
  | nil => exact ⟨Or.inl rfl, le_rfl, fun x hx => by cases hx⟩
  | cons i nums ih =>
    simp only [List.foldl_cons, List.mem_cons, forall_eq_or_imp]
    obtain ⟨hmem, hle, hall⟩ := ih (if i > m then i else m)
    refine ⟨?_, ?_, ?_, hall⟩
    · rcases hmem with hmem | hmem
      · rw [hmem]
        split_ifs
        · exact Or.inr (Or.inl rfl)
        · exact Or.inl rfl
      · exact Or.inr (Or.inr hmem)
    · refine le_trans ?_ hle
      split_ifs <;> omega
    · refine le_trans ?_ hle
      split_ifs <;> omega

variable {nums : List ℤ}

theorem le_maxNum {x : ℤ} (hx : x ∈ nums) : x ≤ maxNum nums := (foldl_max nums (-1)).2.2 x hx

theorem maxNum_nonneg_iff : 0 ≤ maxNum nums ↔ ∃ x ∈ nums, 0 ≤ x := by
  obtain ⟨hmem, -, -⟩ := foldl_max nums (-1)
  constructor
  · intro h
    refine ⟨maxNum nums, hmem.resolve_left fun heq => ?_, h⟩
    unfold maxNum at h
    omega
  · rintro ⟨x, hx, h⟩
    exact h.trans (le_maxNum hx)

theorem maxNum_mem (h : 0 ≤ maxNum nums) : maxNum nums ∈ nums :=
  (foldl_max nums (-1)).1.resolve_left fun heq => by
    unfold maxNum at h
    omega

/-! ## The search -/

/-- If all numbers up to the length are in the list, it has no others. -/
theorem mem_iff_of_all (hall : ∀ j : ℕ, 1 ≤ j → j ≤ nums.length → (j : ℤ) ∈ nums) (x : ℤ) :
    x ∈ nums ↔ 1 ≤ x ∧ x ≤ nums.length := by
  have hmem : ∀ y, y ∈ (List.range' 1 nums.length).map ((↑) : ℕ → ℤ) ↔ 1 ≤ y ∧ y ≤ nums.length := fun y => by
    simp only [List.mem_map, List.mem_range'_1]
    constructor
    · rintro ⟨j, hj, rfl⟩
      omega
    · intro hy
      exact ⟨y.toNat, by omega, by omega⟩
  have hnodup : ((List.range' 1 nums.length).map ((↑) : ℕ → ℤ)).Nodup :=
    List.Nodup.map Nat.cast_injective List.nodup_range'
  have hsub : (List.range' 1 nums.length).map ((↑) : ℕ → ℤ) ⊆ nums := fun y hy => by
    obtain ⟨h₁, h₂⟩ := (hmem y).1 hy
    have hj := hall y.toNat (by omega) (by omega)
    rwa [Int.toNat_of_nonneg (by omega)] at hj
  have hperm := (hnodup.subperm hsub).perm_of_length_le (by simp)
  rw [← hperm.mem_iff, hmem]

theorem firstMissingPositive_isLeast_iff (nums : List ℤ) :
    IsLeast {x | 0 < x ∧ x ∉ nums} (firstMissingPositive nums) ↔ ∃ x ∈ nums, 0 ≤ x := by
  rw [← maxNum_nonneg_iff]
  unfold firstMissingPositive
  split_ifs with hneg
  · exact iff_of_false (fun h => lt_irrefl 0 h.1.1) hneg.not_ge
  · refine iff_of_true ?_ (not_lt.1 hneg)
    rcases hfind : (List.range' 1 nums.length).find? fun j : ℕ => (j : ℤ) ∉ nums with _ | j
    · -- every number up to the length is in the list, so the greatest element is the length
      have hall : ∀ j : ℕ, 1 ≤ j → j ≤ nums.length → (j : ℤ) ∈ nums := fun j h₁ h₂ => by
        have hnone := List.find?_eq_none.1 hfind j (List.mem_range'_1.2 ⟨h₁, by omega⟩)
        simpa using hnone
      have hmem := mem_iff_of_all hall
      have hmax := (hmem _).1 (maxNum_mem (not_lt.1 hneg))
      have hlength := le_maxNum ((hmem nums.length).2 (by omega))
      refine ⟨⟨by simp only; omega, fun h => ?_⟩, fun x hx => ?_⟩
      · have hle := le_maxNum h
        simp only at hle
        omega
      · by_contra hlt
        simp only at hlt
        exact hx.2 ((hmem x).2 ⟨hx.1, by omega⟩)
    · -- the loop is left at the first number that is missing
      obtain ⟨hj, hrange, hbefore⟩ := List.find?_range'_eq_some.1 hfind
      rw [List.mem_range'_1] at hrange
      refine ⟨⟨by simp only; omega, by simpa using hj⟩, fun x hx => ?_⟩
      by_contra hlt
      have hin := hbefore x.toNat (by have := hx.1; omega) (by simp only at hlt; omega)
      rw [Int.toNat_of_nonneg hx.1.le] at hin
      exact hx.2 (by simpa using hin)

theorem firstMissingPositive_negative : firstMissingPositive [-1] = 0 ∧
    ¬IsLeast {x | 0 < x ∧ x ∉ [(-1 : ℤ)]} (firstMissingPositive [-1]) := by
  have hzero : firstMissingPositive [-1] = 0 := by decide
  refine ⟨hzero, fun h => ?_⟩
  rw [hzero] at h
  exact lt_irrefl 0 h.1.1

end GoodGoodStudy.LeetCode.FirstMissing
