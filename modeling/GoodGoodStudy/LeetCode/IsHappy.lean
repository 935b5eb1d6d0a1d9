/-
The exercise 202, happy numbers: the sum of the squares of the digits is taken again and again, until it is 1 or has
come before. From a number with three digits on the sum is less than the number, so it does come again.
-/
import Mathlib.Algebra.BigOperators.Group.List.Basic
import GoodGoodStudy.Lib.Orbit

namespace GoodGoodStudy.LeetCode.IsHappy

open GoodGoodStudy.Lib

/-! ## The code -/

/-- The loop `while n`, which puts the last digit into the list. -/
def digits (n : ℕ) : List ℕ := if n = 0 then [] else n % 10 :: digits (n / 10)
termination_by n
decreasing_by omega

def get_num (n : ℕ) : ℕ := ((digits n).map (· ^ 2)).sum

/-- A round of `while True`, on `n` and `appeared`. -/
def round (s : ℕ × Finset ℕ) : Round (ℕ × Finset ℕ) Bool :=
  let sum_num := get_num s.1
  if sum_num = 1 then .leave true
  else if sum_num ∈ s.2 then .leave false
  else .again (sum_num, insert sum_num s.2)

def isHappy (n fuel : ℕ) : Option Bool := loop round fuel (n, ∅)

/-! ## The sum of the squares -/

theorem get_num_zero : get_num 0 = 0 := by
  rw [get_num, digits, if_pos rfl]
  rfl

/-- The last digit and the other ones. -/
theorem get_num_eq (n : ℕ) : get_num n = (n % 10) ^ 2 + get_num (n / 10) := by
  by_cases hn : n = 0
  · rw [hn, Nat.zero_mod, Nat.zero_div, get_num_zero]
    rfl
  · unfold get_num
    rw [digits, if_neg hn, List.map_cons, List.sum_cons]

example : get_num 19 = 82 := by
  rw [get_num_eq, get_num_eq, get_num_zero]
  rfl

theorem sq_digit_le : ∀ d < 10, d ^ 2 ≤ d + 72 := by decide

theorem sq_digit_le_mul : ∀ d < 10, d ^ 2 ≤ 10 * d := by decide

theorem get_num_le (n : ℕ) : get_num n ≤ n + 72 := by
  induction n using Nat.strong_induction_on with
  | _ n ih =>
    have hlast := sq_digit_le (n % 10) (Nat.mod_lt n (by decide))
    rw [get_num_eq]
    rcases Nat.lt_or_ge n 10 with hsmall | hbig
    · rw [Nat.div_eq_of_lt hsmall, get_num_zero]
      omega
    · have hrest := ih (n / 10) (by omega)
      rcases Nat.lt_or_ge (n / 10) 10 with hdigit | hmore
      · -- two digits
        have hfirst := sq_digit_le_mul (n / 10) hdigit
        have hone : get_num (n / 10) = (n / 10) ^ 2 := by
          rw [get_num_eq, Nat.mod_eq_of_lt hdigit, Nat.div_eq_of_lt hdigit, get_num_zero, Nat.add_zero]
        omega
      · omega

/-- The sum does not become greater, but below 160. -/
theorem get_num_le_max (n : ℕ) : get_num n ≤ max n 231 := by
  have hlast := sq_digit_le (n % 10) (Nat.mod_lt n (by decide))
  have hrest := get_num_le (n / 10)
  have hle := get_num_le n
  have heq := get_num_eq n
  omega

theorem iterate_get_num_le (n k : ℕ) : get_num^[k] n ≤ max n 231 := by
  induction k with
  | zero => exact le_max_left n 231
  | succ k ih =>
    rw [Function.iterate_succ_apply']
    exact (get_num_le_max _).trans (max_le ih (le_max_right n 231))

/-! ## The iteration -/

theorem round_eq : round = hunt get_num 1 := rfl

theorem exists_iterate_succ_iff {n : ℕ} : (∃ k, get_num^[k + 1] n = 1) ↔ ∃ k, get_num^[k] n = 1 := by
  constructor
  · rintro ⟨k, hk⟩
    exact ⟨k + 1, hk⟩
  · rintro ⟨k, hk⟩
    refine ⟨k, ?_⟩
    rw [Function.iterate_succ_apply', hk, get_num_eq, get_num_zero]
    rfl

theorem isHappy_returns (n : ℕ) : ∃ b, Returns (isHappy n) b ∧ (b = true ↔ ∃ k, get_num^[k] n = 1) := by
  unfold isHappy
  rw [← exists_iterate_succ_iff, round_eq]
  exact hunt_returns (Finset.range (max n 231 + 1)) fun k =>
    Finset.mem_range.2 (Nat.lt_succ_of_le (iterate_get_num_le n (k + 1)))

end GoodGoodStudy.LeetCode.IsHappy
