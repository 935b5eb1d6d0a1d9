/-
Lists that enumerate the numbers with a property from the least one on.
-/
import Mathlib.Data.Nat.Nth

namespace GoodGoodStudy.Lib

/-- The list has the least numbers with the property, in increasing order. -/
structure Begins (P : ℕ → Prop) (l : List ℕ) : Prop where
  sorted : l.Pairwise (· < ·)
  sound : ∀ x ∈ l, P x
  complete : ∀ x, P x → ∀ y ∈ l, x ≤ y → x ∈ l

namespace Begins

variable {P : ℕ → Prop} {l : List ℕ} {x : ℕ}

/-- The next number with the property is added. -/
theorem concat (h : Begins P l) (hx : P x) (hgt : ∀ y ∈ l, y < x)
    (hnext : ∀ z, P z → (∀ y ∈ l, y < z) → x ≤ z) : Begins P (l ++ [x]) := by
  refine ⟨List.pairwise_append.2 ⟨h.sorted, List.pairwise_singleton _ _, fun y hy z hz => ?_⟩, fun y hy => ?_,
    fun z hz y hy hle => ?_⟩
  · rw [List.mem_singleton.1 hz]
    exact hgt y hy
  · rcases List.mem_append.1 hy with hy | hy
    · exact h.sound y hy
    · rwa [List.mem_singleton.1 hy]
  · -- a number that is not above the new one is the new one, or was there before
    by_cases hall : ∀ w ∈ l, w < z
    · have hxz := hnext z hz hall
      rcases List.mem_append.1 hy with hy | hy
      · exact absurd (hall y hy) hle.not_gt
      · rw [List.mem_singleton.1 hy] at hle
        exact List.mem_append_right l (List.mem_singleton.2 (Nat.le_antisymm hle hxz))
    · push Not at hall
      obtain ⟨w, hw, hzw⟩ := hall
      exact List.mem_append_left _ (h.complete z hz w hw hzw)

theorem count_getElem [DecidablePred P] (h : Begins P l) {k : ℕ} (hk : k < l.length) : Nat.count P l[k] = k := by
  have hlt : ∀ x, x ∈ l.take k ↔ P x ∧ x < l[k] := fun x => by
    rw [List.mem_take_iff_getElem]
    constructor
    · rintro ⟨i, hi, rfl⟩
      rw [lt_min_iff] at hi
      exact ⟨h.sound _ (List.getElem_mem hi.2), List.pairwise_iff_getElem.1 h.sorted i k hi.2 hk hi.1⟩
    · rintro ⟨hx, hlt⟩
      obtain ⟨i, hi, rfl⟩ := List.getElem_of_mem (h.complete x hx _ (List.getElem_mem hk) hlt.le)
      refine ⟨i, lt_min ?_ hi, rfl⟩
      by_contra hik
      rcases (Nat.le_of_not_lt hik).lt_or_eq with hki | rfl
      · exact lt_asymm hlt (List.pairwise_iff_getElem.1 h.sorted k i hk hi hki)
      · exact lt_irrefl _ hlt
  have hcard : ((Finset.range l[k]).filter P) = (l.take k).toFinset := by
    ext x
    rw [Finset.mem_filter, Finset.mem_range, List.mem_toFinset, hlt, and_comm]
  rw [Nat.count_eq_card_filter_range, hcard, List.toFinset_card_of_nodup, List.length_take, min_eq_left hk.le]
  exact (h.sorted.imp fun hab => hab.ne).sublist (List.take_sublist k l)

theorem getElem_eq_nth (h : Begins P l) {k : ℕ} (hk : k < l.length) : l[k] = Nat.nth P k := by
  classical
  have hnth := Nat.nth_count (h.sound _ (List.getElem_mem hk))
  rwa [h.count_getElem hk, eq_comm] at hnth

end Begins

end GoodGoodStudy.Lib
