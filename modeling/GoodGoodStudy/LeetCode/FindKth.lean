/-
215. 数组中的第K个最大元素: `findKth` of `Solution`. The loop of `quick_sort` tests the index that the partition has given,
but what it calls sorts a part of the list and leaves this index as it is.
-/
import GoodGoodStudy.LeetCode.QuickSort

namespace GoodGoodStudy.LeetCode.FindKth

open GoodGoodStudy.Lib
open GoodGoodStudy.LeetCode.QuickSort (Exc item setItem swap scan)

variable {α : Type} [LinearOrder α]

/-- As the partition of quick sort, but for the order of the last exchange. -/
def partition (begin stop : ℤ) (arr : List α) : Except Exc (ℤ × List α) := do
  let (mark, arr) ← scan begin stop arr
  return (mark, ← swap arr mark begin)

/-- The body of the loop in `quick_sort`, where `sort` stands for the calls in it. -/
def narrow (sort : ℤ → ℤ → List α → ExceptT Exc Option (List α)) (K begin stop pivot_index : ℤ) (arr : List α) :
    ExceptT Exc Option (Round (List α) (List α)) :=
  if pivot_index ≠ arr.length - K then
    if pivot_index < arr.length - K then do
      return .again (← sort begin (pivot_index - 1) arr)
    else do
      return .again (← sort (pivot_index + 1) stop arr)
  else return .leave arr

def quick_sort (K : ℤ) : ℕ → ℤ → ℤ → List α → ExceptT Exc Option (List α)
  | 0, _, _, _ => ExceptT.mk none
  | fuel + 1, begin, stop, arr =>
    if begin ≥ stop then return arr
    else do
      let (pivot_index, arr) ← partition begin stop arr
      loopM (fun _ arr => narrow (quick_sort K fuel) K begin stop pivot_index arr) fuel arr

/-- The result, and the list as it is then. -/
def findKth (a : List α) (n K : ℤ) (fuel : ℕ) : ExceptT Exc Option (α × List α) := do
  let a ← quick_sort K fuel 0 (n - 1) a
  return (← item a (n - K), a)

/-! ## The partition -/

omit [LinearOrder α] in
theorem swap_natCast {nums : List α} {i j : ℕ} (hi : i < nums.length) (hj : j < nums.length) :
    swap nums i j = .ok ((nums.set i nums[j]).set j nums[i]) := by
  unfold swap item setItem
  simp only [item?_natCast hi, item?_natCast hj, setItem?_natCast hi, bind, Except.bind]
  rw [setItem?_natCast (by rwa [List.length_set])]

omit [LinearOrder α] in
theorem swap_comm {nums : List α} {i j : ℕ} (hi : i < nums.length) (hj : j < nums.length) :
    swap nums i j = swap nums j i := by
  rw [swap_natCast hi hj, swap_natCast hj hi]
  by_cases h : i = j
  · subst h
    rfl
  · rw [List.set_comm _ _ h]

theorem partition_eq {begin stop : ℤ} {pre : List α} (pivot : α) (rest post : List α) (hbegin : begin = pre.length)
    (hstop : stop = begin + rest.length) :
    partition begin stop (pre ++ (pivot :: rest) ++ post) = .ok (begin + (front pivot rest).length,
      pre ++ (front pivot rest ++ pivot :: (zones pivot rest).2) ++ post) := by
  rw [← QuickSort.partition_eq pivot rest post hbegin hstop]
  unfold partition QuickSort.partition
  have hlen := length_zones pivot rest
  have hmark : begin + ((zones pivot rest).1.length : ℤ) = (pre.length + (zones pivot rest).1.length : ℕ) := by omega
  simp only [QuickSort.scan_eq pivot rest post hbegin hstop, bind, Except.bind]
  rw [hmark, hbegin, swap_comm]
  · simp only [List.length_append, List.length_cons]
    omega
  · simp only [List.length_append, List.length_cons]
    omega

theorem partition_ok {begin stop : ℤ} {arr : List α} (hbegin : 0 ≤ begin) (hlt : ¬ begin ≥ stop)
    (hstop : stop < arr.length) :
    ∃ pivot_index arr', partition begin stop arr = .ok (pivot_index, arr') ∧ begin ≤ pivot_index ∧
      pivot_index ≤ stop ∧ arr'.length = arr.length := by
  obtain ⟨pre, seg, post, rfl, hpre, hseg⟩ := QuickSort.exists_range hbegin (by omega) hstop
  rcases QuickSort.range_cases hseg with ⟨hshort, -⟩ | ⟨pivot, rest, rfl, -, hseg⟩
  · exact absurd hshort hlt
  · have hlen := QuickSort.length_partition pivot rest
    refine ⟨_, _, partition_eq pivot rest post hpre hseg, by omega, by omega, ?_⟩
    simp only [List.length_append, List.length_cons]
    omega

/-! ## The loop -/

/-- A call that returns has kept the length of the list, and the pivot had come to the index. -/
theorem quick_sort_ifReturns {K : ℤ} (fuel : ℕ) {begin stop : ℤ} {arr : List α} (hbegin : 0 ≤ begin)
    (hstop : stop < arr.length) :
    IfReturns (fun arr' => arr'.length = arr.length ∧ ∀ pivot_index arr'', ¬ begin ≥ stop →
      partition begin stop arr = .ok (pivot_index, arr'') → pivot_index = arr.length - K)
      (quick_sort K fuel begin stop arr) := by
  induction fuel generalizing begin stop arr with
  | zero => exact IfReturns.noFuel
  | succ fuel ih =>
    rw [quick_sort]
    by_cases hshort : begin ≥ stop
    · rw [if_pos hshort]
      exact IfReturns.pure ⟨rfl, fun _ _ hlt => absurd hshort hlt⟩
    · rw [if_neg hshort]
      obtain ⟨pivot_index, arr', hpartition, hge, hle, hlen⟩ := partition_ok hbegin hshort hstop
      refine (IfReturns.lift (P := fun s => s = (pivot_index, arr')) hpartition rfl).bind ?_
      rintro _ rfl
      refine IfReturns.loopM (I := fun s => s.length = arr.length) (fun _ s hs => ?_) fuel hlen
      unfold narrow
      split_ifs with hne hright
      · exact (ih hbegin (by omega)).bind fun s' hs' => IfReturns.pure (hs'.1.trans hs)
      · exact (ih (by omega) (by omega)).bind fun s' hs' => IfReturns.pure (hs'.1.trans hs)
      · refine IfReturns.pure ⟨hs, fun p _ _ hp => ?_⟩
        cases hpartition.symm.trans hp
        rw [← hs]
        exact not_not.1 hne

/-- The loop of a call does not end when the pivot has come to another index. -/
theorem quick_sort_diverges {K begin stop pivot_index : ℤ} {arr arr' : List α} (hbegin : 0 ≤ begin)
    (hstop : stop < arr.length) (hlt : ¬ begin ≥ stop)
    (hpartition : partition begin stop arr = .ok (pivot_index, arr')) (hne : pivot_index ≠ arr.length - K) :
    Diverges fun fuel => quick_sort K fuel begin stop arr := fun fuel =>
  IfReturns.eq_none fun e he => by
    obtain ⟨s, -, -, hs⟩ := quick_sort_ifReturns fuel hbegin hstop e he
    exact absurd (hs pivot_index arr' hlt hpartition) hne

theorem quick_sort_returns {K begin stop pivot_index : ℤ} {arr arr' : List α} (hlt : ¬ begin ≥ stop)
    (hpartition : partition begin stop arr = .ok (pivot_index, arr')) (heq : pivot_index = arr'.length - K) :
    Returns (fun fuel => quick_sort K fuel begin stop arr) (.ok arr') := by
  have hnarrow : ∀ sort, narrow sort K begin stop pivot_index arr' = pure (.leave arr') := fun sort => by
    rw [narrow, if_neg (not_not.2 heq)]
  refine Returns.call (fun fuel => by rw [quick_sort, if_neg hlt]) ((Returns.lift hpartition).bind_ok ⟨1, ?_⟩)
  intro fuel hfuel
  obtain ⟨n, rfl⟩ : ∃ n, fuel = n + 1 := ⟨fuel - 1, by omega⟩
  simp only [loopM, hnarrow]
  rfl

/-! ## The element with the index -/

section First

variable {first : α} {rest : List α} {K : ℕ}

theorem partition_first (first : α) (rest : List α) :
    partition 0 ((first :: rest).length - 1) (first :: rest) =
      .ok ((rest.filter (· < first)).length, front first rest ++ first :: (zones first rest).2) := by
  have hstop : ((first :: rest).length : ℤ) - 1 = 0 + rest.length := by
    rw [List.length_cons]
    omega
  have hbegin : (0 : ℤ) = ([] : List α).length := rfl
  have hpartition := partition_eq first rest [] hbegin hstop
  rw [← (front_perm first rest).length_eq]
  simpa using hpartition

theorem findKth_diverges (hrest : rest ≠ [])
    (hne : (rest.filter (· < first)).length ≠ (first :: rest).length - K) (hK : K ≤ (first :: rest).length) :
    Diverges (findKth (first :: rest) (first :: rest).length K) := by
  have hpos := List.length_pos_iff.2 hrest
  exact Returns.diverges_bind (quick_sort_diverges le_rfl (by omega) (by rw [List.length_cons]; omega)
    (partition_first first rest) (by omega))

theorem findKth_returns (hK : K ≤ (first :: rest).length)
    (heq : (rest.filter (· < first)).length = (first :: rest).length - K) :
    ∃ arr, Returns (findKth (first :: rest) (first :: rest).length K) (.ok (first, arr)) := by
  have hfront := (front_perm first rest).length_eq
  have hlen : (front first rest ++ first :: (zones first rest).2).length = (first :: rest).length :=
    (partition_perm first rest).length_eq
  have hsort : Returns (fun fuel => quick_sort K fuel 0 ((first :: rest).length - 1) (first :: rest))
      (.ok (front first rest ++ first :: (zones first rest).2)) := by
    cases rest with
    | nil => exact Returns.call (fun fuel => by rw [quick_sort, if_pos (by simp)]) (Returns.done [first])
    | cons b rest => exact quick_sort_returns (by simp) (partition_first first (b :: rest)) (by omega)
  have hitem : item (front first rest ++ first :: (zones first rest).2) ((first :: rest).length - K) = .ok first :=
    QuickSort.item_append (by omega) first _
  exact ⟨_, hsort.bind_ok ((Returns.lift hitem).bind_ok (Returns.done _))⟩

end First

/-- The call ends, with the right element, exactly if the first element comes to the index at once. -/
theorem findKth_iff (first : α) (rest : List α) (K : ℕ) (hpos : 1 ≤ K) (hK : K ≤ (first :: rest).length) :
    (∃ res arr, Returns (findKth (first :: rest) (first :: rest).length K) (.ok (res, arr)) ∧
      (sorted (first :: rest))[(first :: rest).length - K]? = some res) ↔
      (rest.filter (· < first)).length = (first :: rest).length - K := by
  constructor
  · rintro ⟨res, arr, hreturns, -⟩
    by_contra hne
    refine hreturns.not_diverges (findKth_diverges ?_ hne hK)
    rintro rfl
    simp only [List.length_singleton, List.filter_nil, List.length_nil] at hK hne
    omega
  · intro heq
    obtain ⟨arr, hreturns⟩ := findKth_returns hK heq
    refine ⟨first, arr, hreturns, ?_⟩
    rw [← heq, ← (front_perm first rest).length_eq, QuickSort.sorted_partition, ← length_sorted (front first rest)]
    simp

theorem findKth_iff_second :
    (∃ res arr, Returns (findKth [2, 1, 3] 3 2) (.ok (res, arr)) ∧ (sorted [2, 1, 3])[1]? = some res) ↔
      ([1, 3].filter (· < 2)).length = 1 :=
  findKth_iff 2 [1, 3] 2 (by decide) (by decide)

/-- The pivot 1 comes to the index 0 and not to 1. -/
theorem findKth_first_diverges :
    1 ≤ 1 ∧ 1 ≤ [1, 2].length ∧ Diverges (findKth [1, 2] 2 1) ∧
      ¬ ∃ res arr, Returns (findKth [1, 2] 2 1) (.ok (res, arr)) ∧ (sorted [1, 2])[1]? = some res := by
  have hdiverges : Diverges (findKth [1, 2] 2 1) := findKth_diverges (K := 1) (by decide) (by decide) (by decide)
  refine ⟨by decide, by decide, hdiverges, ?_⟩
  rintro ⟨res, arr, hreturns, -⟩
  exact hreturns.not_diverges hdiverges

end GoodGoodStudy.LeetCode.FindKth
