/-
The difference array of the template `Difference`: an array is kept as the differences of its neighbours, so that
adding a value to a range changes two entries only, and is read back by summing up. Over 32 bit integers, which
wrap around, `result` gives what adding the value to each entry of the range would have given, after every
sequence of calls.
-/
import Mathlib.Algebra.BigOperators.Intervals
import Mathlib.Algebra.BigOperators.Ring.Finset
import Mathlib.Data.BitVec

namespace GoodGoodStudy.LeetCode

/-- `int`. -/
abbrev JavaInt := BitVec 32

variable {n : Nat}

/-! ## The class -/

/-- The array has at least one entry. -/
structure Difference (n : Nat) where
  diff : Vector JavaInt (n + 1)

/-- The entries of `diff` after `m` rounds of the loop of the constructor. -/
def differences (nums : Vector JavaInt (n + 1)) : (m : Nat) → m ≤ n → Vector JavaInt (n + 1)
  | 0, _ => (Vector.replicate (n + 1) 0).set 0 nums[0]
  | m + 1, h => (differences nums m (by omega)).set (m + 1) (nums[m + 1] - nums[m])

def Difference.new (nums : Vector JavaInt (n + 1)) : Difference n := ⟨differences nums n (Nat.le_refl n)⟩

/-- The arguments of a call of `increment`. -/
structure Increment (n : Nat) where
  i : Fin (n + 1)
  j : Fin (n + 1)
  le : i ≤ j
  val : JavaInt

def Difference.increment (d : Difference n) (u : Increment n) : Difference n :=
  let diff := d.diff.set u.i (d.diff[u.i] + u.val)
  if h : u.j.val + 1 < n + 1 then ⟨diff.set (u.j.val + 1) (diff[u.j.val + 1] - u.val)⟩ else ⟨diff⟩

/-- `res` after `m` rounds of the loop of `result`. -/
def sums (diff : Vector JavaInt (n + 1)) : (m : Nat) → m ≤ n → Vector JavaInt (n + 1)
  | 0, _ => (Vector.replicate (n + 1) 0).set 0 diff[0]
  | m + 1, h => (sums diff m (by omega)).set (m + 1) ((sums diff m (by omega))[m] + diff[m + 1])

def Difference.result (d : Difference n) : Vector JavaInt (n + 1) := sums d.diff n (Nat.le_refl n)

/-! ## What the entries stand for -/

/-- Adding the value to every entry of the range. -/
def addEach (nums : Vector JavaInt (n + 1)) (u : Increment n) : Vector JavaInt (n + 1) :=
  Vector.ofFn fun p => if u.i ≤ p ∧ p ≤ u.j then nums[p] + u.val else nums[p]

/-- An entry, and zero behind the end. -/
def entry (a : Vector JavaInt (n + 1)) (k : Nat) : JavaInt := if h : k < n + 1 then a[k] else 0

/-- The array that the differences add up to. -/
def Represents (d : Difference n) (nums : Vector JavaInt (n + 1)) : Prop :=
  ∀ p : Fin (n + 1), ∑ k ∈ Finset.range (p.val + 1), entry d.diff k = nums[p]

theorem entry_of_lt (a : Vector JavaInt (n + 1)) {k : Nat} (h : k < n + 1) : entry a k = a[k] := dif_pos h

theorem entry_set (a : Vector JavaInt (n + 1)) {i : Nat} (hi : i < n + 1) (v : JavaInt) (k : Nat) :
    entry (a.set i v) k = if k = i then v else entry a k := by
  unfold entry
  by_cases hk : k < n + 1
  · rw [dif_pos hk, dif_pos hk, Vector.getElem_set]
    simp only [eq_comm]
  · have hne : k ≠ i := fun he => hk (he ▸ hi)
    rw [dif_neg hk, dif_neg hk, if_neg hne]

theorem entry_differences (nums : Vector JavaInt (n + 1)) (m : Nat) (hm : m ≤ n) :
    entry (differences nums m hm) 0 = nums[0] ∧
      ∀ k, ∀ hk : k < m, entry (differences nums m hm) (k + 1) = nums[k + 1] - nums[k] := by
  induction m with
  | zero =>
    refine ⟨?_, fun k hk => absurd hk (Nat.not_lt_zero k)⟩
    rw [differences, entry_set, if_pos rfl]
  | succ m ih =>
    obtain ⟨hzero, hrest⟩ := ih (by omega)
    rw [differences]
    refine ⟨?_, fun k hk => ?_⟩
    · rw [entry_set, if_neg (by omega)]
      exact hzero
    · rw [entry_set]
      by_cases hkm : k = m
      · subst hkm
        rw [if_pos rfl]
      · rw [if_neg (by omega)]
        exact hrest k (by omega)

/-- The constructor keeps the array as its differences. -/
theorem new_represents (nums : Vector JavaInt (n + 1)) : Represents (Difference.new nums) nums := by
  obtain ⟨hzero, hrest⟩ := entry_differences nums n (Nat.le_refl n)
  rintro ⟨p, hp⟩
  induction p with
  | zero => exact (Finset.sum_range_one _).trans hzero
  | succ p ih =>
    have hsum := ih (by omega)
    have hlast := hrest p (by omega)
    rw [Finset.sum_range_succ, hsum, Difference.new, hlast]
    exact add_sub_cancel _ _

/-- A value added to one difference is added to all sums from there on. -/
theorem sum_entry_set (a : Vector JavaInt (n + 1)) {i : Nat} (hi : i < n + 1) (v : JavaInt) (p : Nat) :
    ∑ k ∈ Finset.range (p + 1), entry (a.set i (a[i] + v)) k =
      ∑ k ∈ Finset.range (p + 1), entry a k + if i ≤ p then v else 0 := by
  have hentry : ∀ k, entry (a.set i (a[i] + v)) k = entry a k + if k = i then v else 0 := by
    intro k
    rw [entry_set]
    by_cases hk : k = i
    · subst hk
      rw [if_pos rfl, if_pos rfl, entry_of_lt a hi]
    · rw [if_neg hk, if_neg hk, add_zero]
  simp only [hentry, Finset.sum_add_distrib, Finset.sum_ite_eq', Finset.mem_range, Nat.lt_succ_iff]

/-- One call changes two differences, and adds the value to the range between them. -/
theorem increment_represents {d : Difference n} {nums : Vector JavaInt (n + 1)} (hd : Represents d nums)
    (u : Increment n) : Represents (d.increment u) (addEach nums u) := by
  intro p
  have hle : u.i.val ≤ u.j.val := u.le
  have hlt := p.isLt
  have hadd : (addEach nums u)[p] = nums[p] + if u.i.val ≤ p.val ∧ p.val ≤ u.j.val then u.val else 0 := by
    have hget : (addEach nums u)[p] = if u.i.val ≤ p.val ∧ p.val ≤ u.j.val then nums[p] + u.val else nums[p] := by
      simp [addEach]
    rw [hget]
    split_ifs
    · rfl
    · exact (add_zero _).symm
  have hfirst := sum_entry_set d.diff u.i.isLt u.val p
  rw [hd p] at hfirst
  rw [hadd]
  unfold Difference.increment
  dsimp only
  by_cases hj : u.j.val + 1 < n + 1
  · -- the value comes in at `i`, and goes out again behind `j`
    have hsecond := sum_entry_set (d.diff.set u.i (d.diff[u.i] + u.val)) hj (-u.val) p
    rw [dif_pos hj, sub_eq_add_neg, hsecond]
    refine (congrArg (· + _) hfirst).trans ?_
    by_cases hi : u.i.val ≤ p.val
    · by_cases hp : p.val ≤ u.j.val
      · rw [if_pos hi, if_neg (by omega), if_pos ⟨hi, hp⟩, add_zero]
      · rw [if_pos hi, if_pos (by omega), if_neg (by omega), add_neg_cancel_right, add_zero]
    · rw [if_neg hi, if_neg (by omega), if_neg (by omega), add_zero]
  · rw [dif_neg hj]
    refine hfirst.trans ?_
    by_cases hi : u.i.val ≤ p.val
    · rw [if_pos hi, if_pos ⟨hi, by omega⟩]
    · rw [if_neg hi, if_neg (by omega)]

theorem entry_sums (diff : Vector JavaInt (n + 1)) (m : Nat) (hm : m ≤ n) :
    ∀ k ≤ m, entry (sums diff m hm) k = ∑ l ∈ Finset.range (k + 1), entry diff l := by
  induction m with
  | zero =>
    intro k hk
    obtain rfl : k = 0 := Nat.le_zero.1 hk
    rw [sums, entry_set, if_pos rfl, zero_add, Finset.sum_range_one, entry_of_lt diff (Nat.succ_pos n)]
  | succ m ih =>
    intro k hk
    rw [sums, entry_set]
    by_cases hkm : k = m + 1
    · subst hkm
      have hprev := ih (by omega) m (Nat.le_refl m)
      rw [entry_of_lt _ (by omega)] at hprev
      rw [if_pos rfl, hprev, Finset.sum_range_succ _ (m + 1), entry_of_lt diff (by omega)]
    · rw [if_neg hkm]
      exact ih (by omega) k (by omega)

/-- `result` reads the array back. -/
theorem result_of_represents {d : Difference n} {nums : Vector JavaInt (n + 1)} (hd : Represents d nums) :
    d.result = nums := by
  apply Vector.ext
  intro p hp
  have hsum := entry_sums d.diff n (Nat.le_refl n) p (by omega)
  rw [entry_of_lt _ hp] at hsum
  exact hsum.trans (hd ⟨p, hp⟩)

/-- After every sequence of calls `result` is the array with each value added to each entry of its range. -/
theorem result_foldl_increment (nums : Vector JavaInt (n + 1)) (calls : List (Increment n)) :
    (calls.foldl Difference.increment (Difference.new nums)).result = calls.foldl addEach nums := by
  have hrun : ∀ (d : Difference n) (nums : Vector JavaInt (n + 1)), Represents d nums →
      Represents (calls.foldl Difference.increment d) (calls.foldl addEach nums) := by
    induction calls with
    | nil => exact fun _ _ hd => hd
    | cons u calls ih => exact fun d nums hd => ih _ _ (increment_represents hd u)
  exact result_of_represents (hrun _ nums (new_represents nums))

end GoodGoodStudy.LeetCode
