/-
The exercise 135, candy. The loop to the right gives a child more than its left neighbour where the rating rises, the
loop to the left gives a child more than its right neighbour where it falls. A child never gets more than in any
feasible distribution, and what one loop has established the other one keeps, since a number only grows where the
rating falls.
-/
import Mathlib.Algebra.GroupWithZero.Nat
import Mathlib.Algebra.Order.BigOperators.Group.List
import Mathlib.Algebra.Order.Group.Nat
import Mathlib.Data.List.GetD
import Mathlib.Order.Bounds.Defs
import GoodGoodStudy.Lib.Loop
import GoodGoodStudy.Lib.Sequence

namespace GoodGoodStudy.LeetCode.Candy

open GoodGoodStudy.Lib

/-! ## The code -/

/-- A round of the first loop. -/
def climb (ratings : List ℤ) (candy : List ℕ) (i : ℕ) : Option (List ℕ) := do
  if (← item? ratings i) > (← item? ratings (i - 1)) then setItem? candy i ((← item? candy (i - 1)) + 1)
  else some candy

/-- A round of the second loop. -/
def descend (ratings : List ℤ) (candy : List ℕ) (j : ℕ) : Option (List ℕ) := do
  if (← item? ratings j) > (← item? ratings (j + 1)) then
    setItem? candy j (max (← item? candy j) ((← item? candy (j + 1)) + 1))
  else some candy

def candy (ratings : List ℤ) : Option ℕ :=
  if ratings = [] then some 0
  else do
    let candy := List.replicate ratings.length 1
    let candy ← (List.range' 1 (ratings.length - 1)).foldlM (climb ratings) candy
    let candy ← (List.range (ratings.length - 1)).reverse.foldlM (descend ratings) candy
    some candy.sum

example : candy [1, 2, 87, 87, 87, 2, 1] = some 13 := by decide

/-- The rating of a child. -/
def rating (ratings : List ℤ) (i : ℕ) : ℤ := ratings.getD i 0

/-- What a child gets. -/
def share (c : List ℕ) (i : ℕ) : ℕ := c.getD i 0

/-- Everyone gets something, and of two neighbours with different ratings the one with the higher rating gets more. -/
structure Feasible (ratings : List ℤ) (c : List ℕ) : Prop where
  length_eq : c.length = ratings.length
  pos : ∀ i < ratings.length, 0 < share c i
  rises : ∀ i, i + 1 < ratings.length → rating ratings i < rating ratings (i + 1) → share c i < share c (i + 1)
  falls : ∀ i, i + 1 < ratings.length → rating ratings (i + 1) < rating ratings i → share c (i + 1) < share c i

variable {ratings : List ℤ} {c d : List ℕ} {i v : ℕ}

theorem share_set (h : i < c.length) (v j : ℕ) : share (c.set i v) j = if j = i then v else share c j :=
  getD_set h v 0 j

/-! ## The loops -/

/-- Everyone gets something, and no one gets more than is needed. -/
structure Needed (ratings : List ℤ) (c : List ℕ) : Prop where
  length_eq : c.length = ratings.length
  pos : ∀ i < ratings.length, 0 < share c i
  le : ∀ d, Feasible ratings d → ∀ i < ratings.length, share c i ≤ share d i

theorem Needed.set (h : Needed ratings c) (hi : i < ratings.length) (hv : 0 < v)
    (hle : ∀ d, Feasible ratings d → v ≤ share d i) : Needed ratings (c.set i v) := by
  have hget := share_set (h.length_eq ▸ hi) v
  refine ⟨by rw [List.length_set, h.length_eq], fun j hj => ?_, fun d hd j hj => ?_⟩
  · rw [hget j]
    split_ifs with hji
    · exact hv
    · exact h.pos j hj
  · rw [hget j]
    split_ifs with hji
    · exact hji ▸ hle d hd
    · exact h.le d hd j hj

/-- Where the rating rises up to the child `i`, so does the number. -/
structure Climbed (ratings : List ℤ) (i : ℕ) (c : List ℕ) : Prop extends Needed ratings c where
  rises : ∀ k, k + 1 < i → k + 1 < ratings.length → rating ratings k < rating ratings (k + 1) →
    share c k < share c (k + 1)

theorem climbed_start (ratings : List ℤ) : Climbed ratings 1 (List.replicate ratings.length 1) := by
  have hone : ∀ i < ratings.length, share (List.replicate ratings.length 1) i = 1 := by
    intro i hi
    rw [share, List.getD_eq_getElem?_getD, List.getElem?_replicate_of_lt hi]
    rfl
  refine ⟨⟨List.length_replicate, fun i hi => ?_, fun d hd i hi => ?_⟩, fun k hk => by omega⟩
  · rw [hone i hi]
    exact Nat.one_pos
  · rw [hone i hi]
    exact hd.pos i hi

theorem Climbed.climb (h : Climbed ratings (i + 1) c) (hi : i + 1 < ratings.length) :
    ∃ c', climb ratings c (i + 1) = some c' ∧ Climbed ratings (i + 1 + 1) c' := by
  have hlt : i < ratings.length := Nat.lt_of_succ_lt hi
  have hc : i + 1 < c.length := h.length_eq ▸ hi
  have hprev : ((i + 1 : ℕ) : ℤ) - 1 = i := by omega
  unfold Candy.climb
  rw [hprev, item?_getD hi 0, item?_getD hlt 0, item?_getD (Nat.lt_of_succ_lt hc) 0]
  simp only [Option.bind_eq_bind, Option.bind_some]
  split_ifs with hrise
  · refine ⟨_, setItem?_natCast hc _, h.toNeeded.set hi (Nat.succ_pos _) fun d hd => ?_, fun k hk hlen hkr => ?_⟩
    · exact (Nat.succ_le_succ (h.le d hd i hlt)).trans (hd.rises i hi hrise)
    · rw [share_set hc, share_set hc, if_neg (by omega)]
      split_ifs with heq
      · obtain rfl : k = i := by omega
        exact Nat.lt_succ_self _
      · exact h.rises k (by omega) hlen hkr
  · refine ⟨c, rfl, h.toNeeded, fun k hk hlen hkr => ?_⟩
    rcases Nat.lt_succ_iff_lt_or_eq.1 hk with hk | hk
    · exact h.rises k hk hlen hkr
    · obtain rfl : k = i := by omega
      exact absurd hkr hrise

/-- Where the rating falls from the child `j` on, so does the number. -/
structure Descended (ratings : List ℤ) (j : ℕ) (c : List ℕ) : Prop extends Needed ratings c where
  rises : ∀ k, k + 1 < ratings.length → rating ratings k < rating ratings (k + 1) → share c k < share c (k + 1)
  falls : ∀ k, j ≤ k → k + 1 < ratings.length → rating ratings (k + 1) < rating ratings k →
    share c (k + 1) < share c k

theorem Descended.descend (h : Descended ratings (i + 1) c) (hi : i + 1 < ratings.length) :
    ∃ c', descend ratings c i = some c' ∧ Descended ratings i c' := by
  have hlt : i < ratings.length := Nat.lt_of_succ_lt hi
  have hc : i < c.length := h.length_eq ▸ hlt
  have hnext : (i : ℤ) + 1 = (i + 1 : ℕ) := rfl
  unfold Candy.descend
  rw [hnext, item?_getD hi 0, item?_getD hlt 0, item?_getD hc 0, item?_getD (h.length_eq ▸ hi) 0]
  simp only [Option.bind_eq_bind, Option.bind_some]
  split_ifs with hfall
  · have hset := share_set hc (max (share c i) (share c (i + 1) + 1))
    refine ⟨_, setItem?_natCast hc _, h.toNeeded.set hlt (lt_max_of_lt_right (Nat.succ_pos _)) fun d hd => ?_,
      fun k hk hkr => ?_, fun k hk hlen hkr => ?_⟩
    · exact max_le (h.le d hd i hlt) ((Nat.succ_le_succ (h.le d hd (i + 1) hi)).trans (hd.falls i hi hfall))
    · -- the number of a child only grows where the rating falls behind it
      have hki : k ≠ i := by
        rintro rfl
        exact absurd hkr (lt_asymm hfall)
      refine (lt_of_eq_of_lt ((hset k).trans (if_neg hki)) (h.rises k hk hkr)).trans_le ?_
      refine le_of_le_of_eq ?_ (hset (k + 1)).symm
      split_ifs with heq
      · exact heq ▸ le_max_left _ _
      · exact le_rfl
    · refine lt_of_eq_of_lt ((hset (k + 1)).trans (if_neg (by omega))) (lt_of_lt_of_eq ?_ (hset k).symm)
      split_ifs with heq
      · exact heq ▸ lt_of_lt_of_le (Nat.lt_succ_self _) (le_max_right _ _)
      · exact h.falls k (by omega) hlen hkr
  · refine ⟨c, rfl, h.toNeeded, h.rises, fun k hk hlen hkr => ?_⟩
    rcases Nat.eq_or_lt_of_le hk with rfl | hk
    · exact absurd hkr hfall
    · exact h.falls k hk hlen hkr

/-! ## The result -/

/-- With the numbers the sums are compared. -/
theorem sum_le_sum (hlen : c.length = d.length) (h : ∀ i < c.length, share c i ≤ share d i) : c.sum ≤ d.sum := by
  refine List.Forall₂.sum_le_sum (List.forall₂_iff_get.2 ⟨hlen, fun i hc hd => ?_⟩)
  have hle := h i hc
  unfold share at hle
  rwa [List.getD_eq_getElem _ _ hc, List.getD_eq_getElem _ _ hd] at hle

/-- The result is the least total of a feasible distribution. -/
theorem candy_isLeast (ratings : List ℤ) :
    ∃ total, candy ratings = some total ∧ IsLeast {s | ∃ c, Feasible ratings c ∧ s = c.sum} total := by
  unfold candy
  split_ifs with hnil
  · subst hnil
    refine ⟨0, rfl, ⟨[], ⟨rfl, ?_, ?_, ?_⟩, rfl⟩, fun _ _ => Nat.zero_le _⟩
    · exact fun i hi => absurd hi (Nat.not_lt_zero i)
    · exact fun i hi => absurd hi (Nat.not_lt_zero (i + 1))
    · exact fun i hi => absurd hi (Nat.not_lt_zero (i + 1))
  · have hpos := List.length_pos_iff.2 hnil
    obtain ⟨c₁, hclimb, hc₁⟩ := exists_foldlM_range' (f := climb ratings) (P := Climbed ratings) (ratings.length - 1) 1
      (fun i hle hlt c hc => by
        obtain ⟨i, rfl⟩ : ∃ k, i = k + 1 := ⟨i - 1, by omega⟩
        exact hc.climb (by omega)) (climbed_start ratings)
    have hdescended : Descended ratings (ratings.length - 1) c₁ :=
      ⟨hc₁.toNeeded, fun k hk hkr => hc₁.rises k (by omega) hk hkr, fun k hk hlen => by omega⟩
    obtain ⟨c, hdescend, hc⟩ := exists_foldlM_down (f := descend ratings) (P := Descended ratings) (ratings.length - 1)
      (fun i hi c hc => hc.descend (by omega)) hdescended
    refine ⟨c.sum, ?_, ⟨c, ⟨hc.length_eq, hc.pos, hc.rises, fun k => hc.falls k (Nat.zero_le k)⟩, rfl⟩, ?_⟩
    · simp only [hclimb, hdescend, Option.bind_eq_bind, Option.bind_some]
    · rintro _ ⟨d, hd, rfl⟩
      exact sum_le_sum (hc.length_eq.trans hd.length_eq.symm) fun i hi => hc.le d hd i (hc.length_eq ▸ hi)

end GoodGoodStudy.LeetCode.Candy
