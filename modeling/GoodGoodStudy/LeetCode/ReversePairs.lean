/-
493. 翻转对: the pairs of places, the first before the second, where the first number is greater than twice the second
one. They are counted between the sorted halves of a range: the index `j` in the right half does not go back while `i`
goes through the left one. Then the range is sorted. `Solution` and `Solution2` have the same text.
-/
import GoodGoodStudy.LeetCode.QuickSort
import GoodGoodStudy.Lib.Pairs

namespace GoodGoodStudy.LeetCode.ReversePairs

open GoodGoodStudy.Lib
open GoodGoodStudy.LeetCode.QuickSort (Exc item item_append)

/-- The body of the `while` loop. -/
def skip (nums : List ℤ) (stop i j : ℤ) : Except Exc (Round ℤ ℤ) := do
  if j ≤ stop then
    if (← item nums j) * 2 < (← item nums i) then return .again (j + 1) else return .leave j
  else return .leave j

def skips (nums : List ℤ) (stop i : ℤ) (fuel : ℕ) (j : ℤ) : ExceptT Exc Option ℤ :=
  loopM (fun _ j => liftM (skip nums stop i j)) fuel j

/-- The body of the `for` loop, with `j` and `count`; the index is `start + t`. -/
def count_round (nums : List ℤ) (start mid stop : ℤ) (fuel : ℕ) : ℤ × ℤ → ℕ → ExceptT Exc Option (ℤ × ℤ)
  | (j, count), t => do
    let j ← skips nums stop (start + t) fuel j
    return (j, count + (j - mid))

/-- The count, and the list; `stop` is `end`. -/
def mergeSort : ℕ → List ℤ → ℤ → ℤ → ExceptT Exc Option (ℤ × List ℤ)
  | 0, _, _, _ => ExceptT.mk none
  | fuel + 1, nums, start, stop =>
    if start ≥ stop then return (0, nums)
    else do
      let mid := (start + stop) / 2 + 1
      let (left, nums) ← mergeSort fuel nums start (mid - 1)
      let (right, nums) ← mergeSort fuel nums mid stop
      let (_, count) ← (List.range' 0 (mid - start).toNat).foldlM (count_round nums start mid stop fuel)
        (mid, left + right)
      return (count, setSlice nums start (stop + 1) (sorted (slice nums start (stop + 1))))

def reversePairs (nums : List ℤ) (fuel : ℕ) : ExceptT Exc Option (ℤ × List ℤ) :=
  mergeSort fuel nums 0 (nums.length - 1)

/-- The first number is greater than twice the second. -/
abbrev Reverse (a b : ℤ) : Prop := a > 2 * b

/-! ## The count between the halves -/

section Count

variable {M R post : List ℤ} {a b : ℤ} {mid stop i : ℤ} {t : ℕ}

/-- The numbers of the right half that make a pair with `a`. -/
abbrev below (R : List ℤ) (a : ℤ) : ℕ := R.countP (Reverse a ·)

theorem below_mono (R : List ℤ) (h : a ≤ b) : below R a ≤ below R b := by
  refine List.countP_mono_left fun c _ hc => decide_eq_true ?_
  have hlt : a > 2 * c := of_decide_eq_true hc
  exact hlt.trans_le h

theorem item_right (M post : List ℤ) (ht : t < R.length) :
    item (M ++ R ++ post) (M.length + t) = .ok (R.get ⟨t, ht⟩) := by
  have hsplit : M ++ R ++ post = (M ++ R.take t) ++ R[t] :: (R.drop (t + 1) ++ post) := by
    rw [List.append_assoc, List.append_assoc, ← List.cons_append, ← List.append_assoc (R.take t),
      ← List.drop_eq_getElem_cons ht, List.take_append_drop]
  rw [hsplit]
  refine item_append ?_ _ _
  rw [List.length_append, List.length_take_of_le ht.le]
  rfl

theorem skip_eq (hR : R.Pairwise (· ≤ ·)) (hstop : stop = M.length + R.length - 1)
    (hi : item (M ++ R ++ post) i = .ok a) (ht : t ≤ R.length) : skip (M ++ R ++ post) stop i (M.length + t) =
      .ok (if t < below R a then .again (M.length + (t + 1 : ℕ)) else .leave (M.length + t)) := by
  rcases ht.lt_or_eq with hlt | rfl
  · -- the right half increases, so the numbers that make a pair are its first ones
    have hclosed : ∀ b c : ℤ, b ≤ c → Reverse a c → Reverse a b := fun b c hbc hac => by
      simp only [Reverse] at hac ⊢
      omega
    have hiff : R.get ⟨t, hlt⟩ * 2 < a ↔ t < below R a := by
      rw [← lt_countP_iff hclosed hR hlt, Int.mul_comm]
    rw [skip, if_pos (by omega)]
    simp only [item_right M post hlt, hi, bind, Except.bind, if_congr hiff rfl rfl]
    split_ifs
    · rw [Int.add_assoc]
      rfl
    · rfl
  · rw [skip, if_neg (by omega), if_neg (not_lt.2 List.countP_le_length)]
    rfl

/-- `j` stops at the first number of the right half that makes no pair. -/
theorem skips_returns (hR : R.Pairwise (· ≤ ·)) (hstop : stop = M.length + R.length - 1)
    (hi : item (M ++ R ++ post) i = .ok a) (ht : t ≤ below R a) :
    Returns (fun fuel => skips (M ++ R ++ post) stop i fuel (M.length + t)) (.ok (M.length + below R a)) := by
  have hle : below R a ≤ R.length := List.countP_le_length
  obtain ⟨_, hreturns, rfl⟩ : ∃ j, Returns (fun fuel => skips (M ++ R ++ post) stop i fuel (M.length + t)) (.ok j) ∧
      j = M.length + below R a := by
    refine Returns.loopM_of_measure (fun j : ℤ => (M.length + below R a - j).toNat)
      (I := fun j => ∃ t : ℕ, j = M.length + t ∧ t ≤ below R a) ?_ ⟨t, rfl, ht⟩
    rintro _ ⟨t, rfl, ht⟩
    refine ⟨_, Returns.lift (skip_eq hR hstop hi (ht.trans hle)), ?_⟩
    split_ifs with hlt
    · refine ⟨⟨t + 1, rfl, hlt⟩, ?_⟩
      omega
    · obtain rfl : t = below R a := by omega
      rfl
  exact hreturns

/-- After `t` rounds of the `for` loop. The numbers of the left half increase too, so `j` does not have to go back. -/
def Counted (L R : List ℤ) (mid count : ℤ) (t : ℕ) (s : ℤ × ℤ) : Prop :=
  s.2 = count + across Reverse (L.take t) R ∧ ∃ k : ℕ, s.1 = mid + k ∧ ∀ b ∈ L.drop t, k ≤ below R b

section Halves

variable {pre L R post : List ℤ} {start mid stop count : ℤ}

theorem count_round_returns (post : List ℤ) (hL : L.Pairwise (· ≤ ·)) (hR : R.Pairwise (· ≤ ·))
    (hstart : start = pre.length) (hmid : mid = (pre ++ L).length) (hstop : stop = mid + R.length - 1) (ht : t < L.length) {s : ℤ × ℤ}
    (h : Counted L R mid count t s) :
    ∃ s', Returns (fun fuel => count_round (pre ++ L ++ R ++ post) start mid stop fuel s t) (.ok s') ∧
      Counted L R mid count (t + 1) s' := by
  obtain ⟨_, _⟩ := s
  obtain ⟨rfl, k, rfl, hk⟩ := h
  have hitem : item (pre ++ L ++ R ++ post) (start + t) = .ok (L.get ⟨t, ht⟩) := by
    rw [List.append_assoc, hstart]
    exact item_right pre (R ++ post) ht
  have hdrop : L.drop t = L.get ⟨t, ht⟩ :: L.drop (t + 1) := List.drop_eq_getElem_cons ht
  have hsorted := hL.sublist (List.drop_sublist t L)
  rw [hdrop] at hk hsorted
  have hskips : Returns (fun fuel => skips (pre ++ L ++ R ++ post) stop (start + t) fuel (mid + k))
      (.ok (mid + below R (L.get ⟨t, ht⟩))) := by
    rw [hmid] at hstop ⊢
    exact skips_returns hR hstop hitem (hk _ List.mem_cons_self)
  refine ⟨_, hskips.bind_ok (Returns.done _), ?_, _, rfl, fun b hb => below_mono R ?_⟩
  · rw [List.take_succ_eq_append_getElem ht, across_append]
    simp only [across, below, List.get_eq_getElem]
    omega
  · exact List.rel_of_pairwise_cons hsorted hb

theorem count_returns (post : List ℤ) (hL : L.Pairwise (· ≤ ·)) (hR : R.Pairwise (· ≤ ·)) (hstart : start = pre.length)
    (hmid : mid = (pre ++ L).length) (hstop : stop = mid + R.length - 1) (count : ℤ) :
    ∃ j, Returns (fun fuel => ((List.range' 0 (mid - start).toNat).foldlM
      (count_round (pre ++ L ++ R ++ post) start mid stop fuel) (mid, count) : ExceptT Exc Option (ℤ × ℤ)))
      (.ok (j, count + across Reverse L R)) := by
  have hlen : (mid - start).toNat = L.length := by
    rw [hmid, hstart, List.length_append]
    omega
  have hinit : Counted L R mid count 0 (mid, count) := ⟨by simp [across], 0, by simp, fun _ _ => Nat.zero_le _⟩
  obtain ⟨⟨j, _⟩, hreturns, rfl, -⟩ := Returns.foldlM_range'_ok L.length 0
    (fun t _ ht s hs => count_round_returns post hL hR hstart hmid hstop (by omega : t < L.length) hs) hinit
  rw [Nat.zero_add, List.take_length] at hreturns
  rw [hlen]
  exact ⟨j, hreturns⟩

end Halves

end Count

/-! ## The count -/

theorem exists_halves {pre seg : List ℤ} {start stop : ℤ} (hstart : start = pre.length)
    (hstop : stop = start + seg.length - 1) (hlt : start < stop) :
    ∃ L R, seg = L ++ R ∧ (start + stop) / 2 + 1 = (pre ++ L).length ∧ 0 < L.length ∧ 0 < R.length := by
  have hle : (seg.length - 1) / 2 + 1 ≤ seg.length := by omega
  refine ⟨seg.take ((seg.length - 1) / 2 + 1), seg.drop ((seg.length - 1) / 2 + 1), (List.take_append_drop _ _).symm,
    ?_, ?_, ?_⟩
  · rw [List.length_append, List.length_take_of_le hle]
    omega
  · rw [List.length_take_of_le hle]
    omega
  · rw [List.length_drop]
    omega

/-- The range is sorted where it stands. -/
theorem setSlice_sorted {pre seg seg' : List ℤ} {start stop : ℤ} (hperm : seg'.Perm seg) (hstart : start = pre.length)
    (hstop : stop = start + seg.length) (post : List ℤ) :
    setSlice (pre ++ seg' ++ post) start stop (sorted (slice (pre ++ seg' ++ post) start stop)) =
      pre ++ sorted seg ++ post := by
  rw [← hperm.length_eq] at hstop
  rw [slice_append hstart hstop, setSlice_append hstart hstop, sorted_congr hperm]

theorem mergeSort_returns (pre seg post : List ℤ) {start stop : ℤ} (hstart : start = pre.length)
    (hstop : stop = start + seg.length - 1) :
    Returns (fun fuel => mergeSort fuel (pre ++ seg ++ post) start stop)
      (.ok ((pairs Reverse seg : ℤ), pre ++ sorted seg ++ post)) := by
  induction hlen : seg.length using Nat.strong_induction_on generalizing seg pre post start stop with
  | _ n ih =>
    subst hlen
    by_cases hshort : start ≥ stop
    · have hone : seg.length ≤ 1 := by omega
      apply Returns.call (fun fuel => by rw [mergeSort, if_pos hshort])
      rw [sorted_short hone, pairs_short Reverse hone]
      exact Returns.done _
    · obtain ⟨L, R, rfl, hmid, hL, hR⟩ := exists_halves hstart hstop (by omega)
      generalize hm : (start + stop) / 2 + 1 = mid at hmid
      rw [List.length_append] at hstop hmid
      have hleft := ih L.length (by rw [List.length_append]; omega) pre L (R ++ post) hstart
        (by omega : mid - 1 = start + L.length - 1) rfl
      have hmid' : mid = (pre ++ sorted L).length := by
        rw [List.length_append, length_sorted]
        exact hmid
      have hright := ih R.length (by rw [List.length_append]; omega) (pre ++ sorted L) R post hmid'
        (by omega : stop = mid + R.length - 1) rfl
      obtain ⟨j, hcount⟩ := count_returns post (sorted_pairwise L) (sorted_pairwise R) hstart hmid'
        (by rw [length_sorted]; omega : stop = mid + (sorted R).length - 1) (pairs Reverse L + pairs Reverse R)
      have hset := setSlice_sorted ((sorted_perm L).append (sorted_perm R)) hstart
        (by rw [List.length_append]; omega : stop + 1 = start + (L ++ R).length) post
      rw [← List.append_assoc pre] at hset
      have hpairs : (pairs Reverse L + pairs Reverse R + across Reverse (sorted L) (sorted R) : ℤ) =
          pairs Reverse (L ++ R) := by
        rw [pairs_append, across_perm Reverse (sorted_perm L) (sorted_perm R)]
        omega
      apply Returns.call (fun fuel => by rw [mergeSort, if_neg hshort, hm])
      rw [← hset, ← hpairs]
      rw [← List.append_assoc, ← List.append_assoc, List.append_assoc pre] at hleft
      exact hleft.bind_ok (hright.bind_ok (hcount.bind_ok (Returns.done _)))

/-- The count, and the list, for a list and for a range of a list. -/
theorem reversePairs_returns (pre nums post : List ℤ) :
    Returns (reversePairs nums) (.ok (((Finset.univ.filter fun p : Fin nums.length × Fin nums.length =>
      p.1 < p.2 ∧ nums.get p.1 > 2 * nums.get p.2).card : ℤ), sorted nums)) ∧
    Returns (fun fuel => mergeSort fuel (pre ++ nums ++ post) pre.length (pre.length + nums.length - 1))
      (.ok (((Finset.univ.filter fun p : Fin nums.length × Fin nums.length =>
        p.1 < p.2 ∧ nums.get p.1 > 2 * nums.get p.2).card : ℤ), pre ++ sorted nums ++ post)) := by
  have hreturns := fun pre post => mergeSort_returns pre nums post rfl rfl
  simp only [pairs_eq_card] at hreturns
  refine ⟨?_, hreturns pre post⟩
  have hwhole := hreturns [] []
  simp only [List.nil_append, List.append_nil, List.length_nil, Nat.cast_zero, Int.zero_add] at hwhole
  exact hwhole

end GoodGoodStudy.LeetCode.ReversePairs
