/-
Palindromes in a list, given by the places where they begin and end.
-/
import Mathlib.Data.List.Infix
import Mathlib.Data.List.Palindrome
import GoodGoodStudy.Lib.Sequence

namespace GoodGoodStudy.Lib

variable {α : Type*} {s t : List α} {i j : ℤ}

/-- A contiguous part that is a palindrome, and none is longer. -/
structure IsLongestPalindrome (s t : List α) : Prop where
  isInfix : t <:+: s
  palindrome : t.Palindrome
  longest : ∀ u, u <:+: s → u.Palindrome → u.length ≤ t.length

/-- From `i` to `j` the list reads the same in both directions. The span is empty if `j` is below `i`. -/
structure PalindromeSpan (s : List α) (i j : ℤ) : Prop where
  nonneg : 0 ≤ i
  lt_length : j < s.length
  mirror : ∀ k l, i ≤ k → k ≤ j → k + l = i + j → item? s k = item? s l

/-- One more element on each side. -/
theorem palindromeSpan_iff (hi : 0 ≤ i) (hj : j < s.length) (hij : i ≤ j) :
    PalindromeSpan s i j ↔ item? s i = item? s j ∧ PalindromeSpan s (i + 1) (j - 1) := by
  constructor
  · intro h
    exact ⟨h.mirror i j le_rfl hij rfl, by omega, by omega,
      fun k l hk hk' hkl => h.mirror k l (by omega) (by omega) (by omega)⟩
  · rintro ⟨hends, h⟩
    refine ⟨hi, hj, fun k l hk hk' hkl => ?_⟩
    rcases hk.eq_or_lt with rfl | hlt
    · rw [hends, show l = j by omega]
    · rcases hk'.eq_or_lt with rfl | hlt'
      · rw [← hends, show l = i by omega]
      · exact h.mirror k l hlt (by omega) (by omega)

/-- At most one element. -/
theorem palindromeSpan_of_le (hi : 0 ≤ i) (hj : j < s.length) (hij : j ≤ i) : PalindromeSpan s i j :=
  ⟨hi, hj, fun k l hk hk' hkl => by rw [show k = l by omega]⟩

theorem getElem?_part {i n k : ℕ} (hn : i + n ≤ s.length) (hk : k < n) :
    ((s.take (i + n)).drop i)[k]? = item? s (i + k : ℕ) := by
  rw [item?_natCast (by omega), List.getElem?_drop, List.getElem?_take_of_lt (by omega),
    List.getElem?_eq_getElem (by omega)]

theorem palindrome_part {i n : ℕ} (hn : i + n ≤ s.length) :
    ((s.take (i + n)).drop i).Palindrome ↔ PalindromeSpan s i ((i + n : ℕ) - 1) := by
  have hlen : ((s.take (i + n)).drop i).length = n := by
    rw [List.length_drop, List.length_take]
    omega
  have hreverse : ∀ k < n, ((s.take (i + n)).drop i).reverse[k]? = item? s (i + (n - 1 - k) : ℕ) := by
    intro k hk
    rw [List.getElem?_reverse (by omega), hlen, getElem?_part hn (by omega)]
  rw [List.Palindrome.iff_reverse_eq]
  constructor
  · intro heq
    refine ⟨by omega, by omega, fun k l hk hk' hkl => ?_⟩
    obtain ⟨k', rfl⟩ : ∃ k' : ℕ, k = (i + k' : ℕ) := ⟨(k - i).toNat, by omega⟩
    rw [← getElem?_part hn (by omega), ← heq, hreverse k' (by omega), show l = (i + (n - 1 - k') : ℕ) by omega]
  · intro h
    apply List.ext_getElem?
    intro k
    by_cases hk : k < n
    · rw [hreverse k hk, getElem?_part hn hk]
      exact h.mirror _ _ (by omega) (by omega) (by omega)
    · rw [List.getElem?_eq_none (by rw [List.length_reverse]; omega), List.getElem?_eq_none (by omega)]

/-- A longest span makes a longest palindrome. -/
theorem PalindromeSpan.isLongest (h : PalindromeSpan s i j) (hij : i ≤ j + 1)
    (hmax : ∀ i' j', PalindromeSpan s i' j' → j' - i' ≤ j - i) : IsLongestPalindrome s (slice s i (j + 1)) := by
  obtain ⟨a, rfl⟩ := Int.eq_ofNat_of_zero_le h.nonneg
  obtain ⟨n, hn⟩ : ∃ n : ℕ, j + 1 = (a + n : ℕ) := ⟨(j + 1 - a).toNat, by omega⟩
  have hlt := h.lt_length
  have hlen : a + n ≤ s.length := by omega
  rw [hn, slice_natCast]
  refine ⟨(List.drop_suffix _ _).isInfix.trans (List.take_prefix _ _).isInfix, ?_, fun u hu hpal => ?_⟩
  · rw [palindrome_part hlen]
    rwa [show ((a + n : ℕ) : ℤ) - 1 = j by omega]
  · obtain ⟨p, q, rfl⟩ := hu
    have hu : (((p ++ u ++ q).take (p.length + u.length)).drop p.length) = u := by
      rw [← List.length_append, List.take_left, List.drop_left]
    have hspan := (palindrome_part (s := p ++ u ++ q) (i := p.length) (n := u.length) (by simp)).1 (by rwa [hu])
    have hle := hmax _ _ hspan
    rw [List.length_drop, List.length_take]
    omega

end GoodGoodStudy.Lib
