/-
Circuits: what is gained at each of some places in a circle, and a start from which no partial sum is negative. The
sums up to the places decide it: the one up to the start is not above any later one, nor above any earlier one when
the whole circuit is added. So a start with the least sum succeeds, if the circuit does not lose anything.
-/
import Mathlib.Algebra.BigOperators.Group.List.Basic
import Mathlib.Algebra.Order.Group.Defs
import Mathlib.Data.List.Rotate

namespace GoodGoodStudy.Lib

variable {α : Type*} [AddCommGroup α]

/-- What is gained at the first `j` places. -/
def upTo (d : List α) (j : ℕ) : α := (d.take j).sum

variable {d : List α} {s j : ℕ}

@[simp] theorem upTo_zero (d : List α) : upTo d 0 = 0 := rfl

theorem upTo_length (d : List α) : upTo d d.length = d.sum := by rw [upTo, List.take_length]

theorem upTo_succ {a : α} (h : d[j]? = some a) : upTo d (j + 1) = upTo d j + a := by
  rw [upTo, List.take_add_one, h, List.sum_append]
  exact congrArg (upTo d j + ·) (List.sum_singleton)

theorem sum_take_drop (d : List α) (s k : ℕ) : ((d.drop s).take k).sum = upTo d (s + k) - upTo d s := by
  rw [upTo, upTo, List.take_add, List.sum_append, add_sub_cancel_left]

variable [LinearOrder α] [IsOrderedAddMonoid α]

/-- From the start around the circle the sum is never negative. -/
def Succeeds (d : List α) (s : ℕ) : Prop := ∀ k ≤ d.length, 0 ≤ ((d.rotate s).take k).sum

instance : Decidable (Succeeds d s) := inferInstanceAs (Decidable (∀ k ≤ d.length, _))

omit [IsOrderedAddMonoid α] in
theorem succeeds_mod : Succeeds d (s % d.length) ↔ Succeeds d s := by
  unfold Succeeds
  rw [List.rotate_mod]

omit [IsOrderedAddMonoid α] in
/-- Nothing is lost in the whole circuit. -/
theorem Succeeds.sum_nonneg (h : Succeeds d s) : 0 ≤ d.sum := by
  have hall := h d.length le_rfl
  rwa [List.take_of_length_le (List.length_rotate d s).le, (List.rotate_perm d s).sum_eq] at hall

theorem succeeds_iff (hs : s ≤ d.length) : Succeeds d s ↔
    (∀ j, s ≤ j → j ≤ d.length → upTo d s ≤ upTo d j) ∧ ∀ j ≤ s, upTo d s ≤ d.sum + upTo d j := by
  have hlen : (d.drop s).length = d.length - s := List.length_drop
  have hdrop : (d.drop s).sum = d.sum - upTo d s := by
    have htake := sum_take_drop d s (d.length - s)
    rwa [List.take_of_length_le hlen.le, Nat.add_sub_cancel' hs, upTo_length] at htake
  unfold Succeeds
  rw [List.rotate_eq_drop_append_take hs]
  constructor
  · refine fun h => ⟨fun j hsj hj => ?_, fun j hj => ?_⟩
    · have hsum := h (j - s) (by omega)
      rw [List.take_append_of_le_length (by omega), sum_take_drop, Nat.add_sub_cancel' hsj] at hsum
      exact sub_nonneg.1 hsum
    · have hsum := h (d.length - s + j) (by omega)
      rw [← hlen, List.take_length_add_append, List.sum_append, List.take_take, min_eq_left hj, hdrop] at hsum
      have hmove : d.sum - upTo d s + upTo d j = d.sum + upTo d j - upTo d s := sub_add_eq_add_sub _ _ _
      exact sub_nonneg.1 (hmove ▸ hsum)
  · rintro ⟨hlater, hearlier⟩ k hk
    rcases Nat.le_total k (d.length - s) with hle | hge
    · rw [List.take_append_of_le_length (hlen ▸ hle), sum_take_drop]
      exact sub_nonneg.2 (hlater (s + k) (Nat.le_add_right s k) (by omega))
    · -- past the end of the list the sum has all that comes behind the start
      obtain ⟨j, rfl⟩ := Nat.exists_eq_add_of_le hge
      have hj : j ≤ s := by omega
      have hmove : d.sum - upTo d s + upTo d j = d.sum + upTo d j - upTo d s := sub_add_eq_add_sub _ _ _
      rw [← hlen, List.take_length_add_append, List.sum_append, List.take_take, min_eq_left hj, hdrop]
      exact (sub_nonneg.2 (hearlier j hj)).trans_eq hmove.symm

/-- The least sum, but for the empty one. -/
theorem succeeds_of_least (hsum : 0 ≤ d.sum) (hs : s ≤ d.length)
    (h : ∀ j, 0 < j → j ≤ d.length → upTo d s ≤ upTo d j) : Succeeds d s := by
  rcases Nat.eq_zero_or_pos s with rfl | hpos
  · refine (succeeds_iff hs).2 ⟨fun j _ hj => ?_, fun j hj => ?_⟩
    · rcases Nat.eq_zero_or_pos j with rfl | hj'
      · exact le_rfl
      · exact h j hj' hj
    · rw [Nat.le_zero.1 hj]
      exact le_add_of_nonneg_left hsum
  · refine (succeeds_iff hs).2 ⟨fun j hsj hj => h j (hpos.trans_le hsj) hj, fun j hj => ?_⟩
    rcases Nat.eq_zero_or_pos j with rfl | hj'
    · rw [upTo_zero, add_zero, ← upTo_length]
      exact h d.length (hpos.trans_le hs) le_rfl
    · exact (h j hj' (hj.trans hs)).trans (le_add_of_nonneg_left hsum)

theorem succeeds_one_iff (hsum : 0 ≤ d.sum) (hd : 0 < d.length) :
    Succeeds d 1 ↔ ∀ j, 0 < j → j ≤ d.length → upTo d 1 ≤ upTo d j :=
  ⟨fun h => ((succeeds_iff hd).1 h).1, succeeds_of_least hsum hd⟩

end GoodGoodStudy.Lib
