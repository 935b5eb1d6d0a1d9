/-
The exercise 137, the single number: one value is there once, the other ones three times. `seen_once` and `seen_twice`
count to three at every bit; the bits of a number below zero are those of its two's complement, which goes on for ever.
The second version takes the sum from three times the sum of the values.
-/
import Mathlib.Algebra.BigOperators.Group.Finset.Basic
import Mathlib.Algebra.BigOperators.Ring.Finset
import Mathlib.Algebra.Ring.Int.Defs
import Mathlib.Data.Int.Bitwise
import Mathlib.Data.Nat.ModEq
import Mathlib.Tactic.IntervalCases

namespace GoodGoodStudy.LeetCode.SingleNumber

/-! ## The code -/

/-- A round of the loop: `seen_once` and `seen_twice`. -/
def see (seen : ℤ × ℤ) (num : ℤ) : ℤ × ℤ :=
  let seenOnce := Int.land (Int.lnot seen.2) (Int.xor seen.1 num)
  let seenTwice := Int.land (Int.lnot seenOnce) (Int.xor seen.2 num)
  (seenOnce, seenTwice)

def singleNumber (nums : List ℤ) : ℤ := (nums.foldl see (0, 0)).1

def singleNumber2 (nums : List ℤ) : ℤ := (∑ i ∈ nums.toFinset, i * 3 - nums.sum).fdiv 2

example : singleNumber [0, -5, 0, 99, 0, -5, -5] = 99 := by decide +kernel

/-! ## Bits -/

variable {nums : List ℤ} {x : ℤ} {α : Type*} [DecidableEq α] {l : List α} {a : α} {m : ℕ}

/-- The bits of a number from zero on are false in the end, the bits of a number below zero are true. -/
theorem exists_testBit_ne (m n : ℕ) : ∃ k, Int.testBit m k ≠ (Int.negSucc n).testBit k := by
  have hbound : ∀ j ≤ max m n, j.testBit (max m n) = false := fun j hj =>
    Nat.testBit_lt_two_pow (hj.trans_lt Nat.lt_two_pow_self)
  refine ⟨max m n, ?_⟩
  rw [show Int.testBit m (max m n) = m.testBit (max m n) from rfl,
    show (Int.negSucc n).testBit (max m n) = !n.testBit (max m n) from rfl,
    hbound m (le_max_left m n), hbound n (le_max_right m n)]
  exact Bool.false_ne_true

theorem eq_of_testBit_eq : ∀ {x y : ℤ}, (∀ k, x.testBit k = y.testBit k) → x = y
  | (m : ℕ), (n : ℕ), h => congrArg Int.ofNat (Nat.eq_of_testBit_eq h)
  | (m : ℕ), Int.negSucc n, h => by
    obtain ⟨k, hk⟩ := exists_testBit_ne m n
    exact absurd (h k) hk
  | Int.negSucc m, (n : ℕ), h => by
    obtain ⟨k, hk⟩ := exists_testBit_ne n m
    exact absurd (h k).symm hk
  | Int.negSucc m, Int.negSucc n, h => congrArg Int.negSucc (Nat.eq_of_testBit_eq fun k => Bool.not_inj (h k))

/-- `once` and `twice` are what a bit has counted to. -/
def Counted (once twice : Bool) (n : ℕ) : Prop := once = decide (n % 3 = 1) ∧ twice = decide (n % 3 = 2)

theorem Counted.step {once twice : Bool} {n : ℕ} (h : Counted once twice n) (b : Bool) :
    Counted (!twice && (once ^^ b)) (!(!twice && (once ^^ b)) && (twice ^^ b)) (n + if b then 1 else 0) := by
  obtain ⟨rfl, rfl⟩ := h
  have hlt := Nat.mod_lt n (show 3 > 0 by decide)
  have hadd : (n + if b then 1 else 0) % 3 = (n % 3 + if b then 1 else 0) % 3 := (Nat.mod_add_mod n 3 _).symm
  unfold Counted
  rw [hadd]
  -- six cases: what has been counted, and whether the bit is seen once more
  interval_cases n % 3 <;> cases b <;> decide

theorem counted_see {seen : ℤ × ℤ} {k n : ℕ} (h : Counted (seen.1.testBit k) (seen.2.testBit k) n) (num : ℤ) :
    Counted ((see seen num).1.testBit k) ((see seen num).2.testBit k) (n + if num.testBit k then 1 else 0) := by
  simp only [see, Int.testBit_land, Int.testBit_lnot, Int.testBit_lxor]
  exact h.step (num.testBit k)

/-- Every bit counts the numbers in which it is true. -/
theorem counted_foldl (nums : List ℤ) (k : ℕ) :
    Counted ((nums.foldl see (0, 0)).1.testBit k) ((nums.foldl see (0, 0)).2.testBit k)
      (nums.countP (Int.testBit · k)) := by
  induction nums using List.reverseRecOn with
  | nil =>
    have hzero : Int.testBit 0 k = false := Nat.zero_testBit k
    rw [List.foldl_nil, hzero]
    exact ⟨rfl, rfl⟩
  | append_singleton nums num ih =>
    rw [List.foldl_append, List.foldl_cons, List.foldl_nil, List.countP_append, List.countP_singleton]
    exact counted_see ih num

/-! ## Three times -/

/-- Elements that come in threes do not count. -/
theorem length_modEq_count (h : ∀ b ∈ l, b ≠ a → l.count b ≡ 0 [MOD m]) : l.length ≡ l.count a [MOD m] := by
  have hlen : l.length = ∑ b ∈ insert a l.toFinset, l.count b := by
    rw [← List.sum_toFinset_count_eq_length]
    refine Finset.sum_subset (Finset.subset_insert a _) fun b _ hb => ?_
    exact List.count_eq_zero_of_not_mem fun hmem => hb (List.mem_toFinset.2 hmem)
  -- what is not `a` counts for nothing modulo `m`
  have hrest : m ∣ ∑ b ∈ l.toFinset.erase a, l.count b := by
    refine Finset.dvd_sum fun b hb => ?_
    obtain ⟨hne, hmem⟩ := Finset.mem_erase.1 hb
    exact (Nat.modEq_zero_iff_dvd).1 (h b (List.mem_toFinset.1 hmem) hne)
  rw [hlen, ← Finset.add_sum_erase _ _ (Finset.mem_insert_self a l.toFinset), Finset.erase_insert_eq_erase]
  exact (Nat.modEq_zero_iff_dvd.2 hrest).add_left (l.count a)

theorem singleNumber_eq_of_count (hx : nums.count x = 1) (hnums : ∀ y ∈ nums, y ≠ x → nums.count y = 3) :
    singleNumber nums = x := by
  refine eq_of_testBit_eq fun k => ?_
  have hcount : ∀ y, (nums.filter (Int.testBit · k)).count y = if y.testBit k then nums.count y else 0 := by
    intro y
    split_ifs with hy
    · exact List.count_filter hy
    · exact List.count_eq_zero_of_not_mem fun hmem => hy (List.mem_filter.1 hmem).2
  have hmod : nums.countP (Int.testBit · k) ≡ (x.testBit k).toNat [MOD 3] := by
    have hlen : (nums.filter (Int.testBit · k)).length ≡ (nums.filter (Int.testBit · k)).count x [MOD 3] := by
      refine length_modEq_count fun y hy hne => ?_
      obtain ⟨hmem, hbit⟩ := List.mem_filter.1 hy
      rw [hcount, if_pos hbit, hnums y hmem hne]
      rfl
    rw [List.countP_eq_length_filter]
    refine hlen.trans ?_
    rw [hcount, hx]
    cases x.testBit k <;> rfl
  have honce : (singleNumber nums).testBit k = decide (nums.countP (Int.testBit · k) % 3 = 1) :=
    (counted_foldl nums k).1
  rw [honce, hmod]
  cases x.testBit k <;> rfl

theorem singleNumber2_eq_of_count (hx : nums.count x = 1) (hnums : ∀ y ∈ nums, y ≠ x → nums.count y = 3) :
    singleNumber2 nums = x := by
  have hmem : x ∈ nums := List.count_pos_iff.1 (by omega)
  have hsum : ∑ i ∈ nums.toFinset, i * 3 - nums.sum = 2 * x := by
    rw [Finset.sum_list_count, ← Finset.sum_sub_distrib, Finset.sum_eq_single x]
    -- three times in the first sum, and once in the second
    · rw [hx, one_nsmul]
      omega
    · intro y hy hne
      rw [hnums y (List.mem_toFinset.1 hy) hne, nsmul_eq_mul]
      omega
    · exact fun hnot => absurd (List.mem_toFinset.2 hmem) hnot
  rw [singleNumber2, hsum]
  exact Int.mul_fdiv_cancel_left x two_ne_zero

/-- Both versions return the value that is there once. -/
theorem singleNumber_eq (nums : List ℤ) (x : ℤ) (hx : nums.count x = 1)
    (hnums : ∀ y ∈ nums, y ≠ x → nums.count y = 3) : singleNumber nums = x ∧ singleNumber2 nums = x :=
  ⟨singleNumber_eq_of_count hx hnums, singleNumber2_eq_of_count hx hnums⟩

theorem singleNumber_eq_neg :
    singleNumber [0, -5, 0, 99, 0, -5, -5] = 99 ∧ singleNumber2 [0, -5, 0, 99, 0, -5, -5] = 99 :=
  singleNumber_eq [0, -5, 0, 99, 0, -5, -5] 99 (by decide) (by decide)

end GoodGoodStudy.LeetCode.SingleNumber
