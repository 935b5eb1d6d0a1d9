/-
The sliding window of the exercise 239. The queue holds indices: those of the window whose values are above all later
ones, so that the maximum of the window is the value at the front. A new index removes the ones at the back that are
not above it, and the ones that the window has left are removed at the front.
-/
import GoodGoodStudy.Lib.Counter
import GoodGoodStudy.Lib.Standing

namespace GoodGoodStudy.LeetCode.MaxSlidingWindow

open GoodGoodStudy.Lib

/-! ## The code -/

variable (nums : List ℤ)

/-- `while q and nums[i] >= nums[q[-1]]: q.pop()`, on a queue that is given from its back. -/
def popBack (i : ℕ) : List ℕ → Option (List ℕ)
  | [] => some []
  | last :: q => do if (← nums[i]?) ≥ (← nums[last]?) then popBack i q else some (last :: q)

/-- What both loops do with an index first. -/
def push (q : List ℕ) (i : ℕ) : Option (List ℕ) := (popBack nums i q.reverse).map fun q => q.reverse ++ [i]

/-- `while q[0] <= bound: q.popleft()` -/
def popFront (bound : ℤ) : List ℕ → Option (List ℕ)
  | [] => none
  | first :: q => if (first : ℤ) ≤ bound then popFront bound q else some (first :: q)

/-- `nums[q[0]]` -/
def front (q : List ℕ) : Option ℤ := q.head?.bind (nums[·]?)

/-- A round of the second loop. -/
def slide (k : ℕ) (st : List ℕ × List ℤ) (i : ℕ) : Option (List ℕ × List ℤ) := do
  let q ← push nums st.1 i
  let q ← popFront (i - k) q
  some (q, st.2 ++ [← front nums q])

/-- `none` is an `IndexError`. -/
def maxSlidingWindow (k : ℕ) : Option (List ℤ) := do
  let q ← (List.range k).foldlM (push nums) []
  let m ← front nums q
  let (_, ans) ← (List.range' k (nums.length - k)).foldlM (slide nums k) (q, [m])
  some ans

/-! ## The queue -/

/-- The value at an index is above the one at a later index. -/
def Above (t x : ℕ) : Prop := nums.getD x 0 < nums.getD t 0

instance : DecidableRel (Above nums) := fun _ _ => inferInstanceAs (Decidable (_ < _))

/-- The indices from `a` on whose values are above all later ones before `i`, from the back. -/
def held (a i : ℕ) : List ℕ := (standing (Above nums) i).filter (a ≤ ·)

variable {nums} {a b i t k : ℕ} {q : List ℕ}

theorem above_iff {t x : ℕ} (ht : t < nums.length) (hx : x < nums.length) : Above nums t x ↔ nums[x] < nums[t] := by
  rw [Above, List.getD_eq_getElem?_getD, List.getD_eq_getElem?_getD, List.getElem?_eq_getElem hx,
    List.getElem?_eq_getElem ht]
  rfl

theorem Above.trans {t x y : ℕ} (h : Above nums t x) (h' : Above nums x y) : Above nums t y := lt_trans h' h

theorem not_above_trans {t x y : ℕ} (h : ¬ Above nums t x) (h' : ¬ Above nums x y) : ¬ Above nums t y :=
  not_lt.2 (le_trans (not_lt.1 h) (not_lt.1 h'))

theorem mem_held : t ∈ held nums a i ↔ t ∈ standing (Above nums) i ∧ a ≤ t := by
  rw [held, List.mem_filter, decide_eq_true_iff]

theorem held_lt (ht : t ∈ held nums a i) : t < i := standing_lt (mem_held.1 ht).1

theorem pairwise_held : (held nums a i).Pairwise fun u t => t < u ∧ Above nums t u := (pairwise_standing i).filter _

theorem held_succ (ha : a ≤ i) : held nums a (i + 1) = i :: (held nums a i).filter fun t => Above nums t i := by
  rw [held, standing, List.filter_cons, if_pos (decide_eq_true ha), List.filter_comm]
  rfl

theorem filter_held (hab : a ≤ b) : (held nums a i).filter (b ≤ ·) = held nums b i := by
  rw [held, held, List.filter_filter]
  refine List.filter_congr fun t _ => ?_
  rw [← Bool.decide_and]
  exact decide_eq_decide.2 ⟨And.left, fun hb => ⟨hb, hab.trans hb⟩⟩

theorem popBack_eq (hi : i < nums.length) : ∀ {q : List ℕ}, (∀ t ∈ q, t < nums.length) →
    popBack nums i q = some (q.dropWhile fun t => !decide (Above nums t i))
  | [], _ => rfl
  | last :: q, hq => by
    have hlast : last < nums.length := hq last List.mem_cons_self
    have hab := above_iff hlast hi
    rw [popBack, List.getElem?_eq_getElem hi, List.getElem?_eq_getElem hlast]
    simp only [Option.bind_eq_bind, Option.bind_some]
    by_cases hge : nums[i] ≥ nums[last]
    · have hnot : ¬ Above nums last i := mt hab.1 (not_lt.2 hge)
      rw [if_pos hge, List.dropWhile_cons_of_pos (by simpa using hnot)]
      exact popBack_eq hi fun t ht => hq t (List.mem_cons_of_mem last ht)
    · rw [if_neg hge, List.dropWhile_cons_of_neg (by simpa using hab.2 (not_le.1 hge))]

/-- A new index at the back. -/
theorem push_held (ha : a ≤ i) (hi : i < nums.length) (hq : q.reverse = held nums a i) :
    ∃ q', push nums q i = some q' ∧ q'.reverse = held nums a (i + 1) := by
  have hlt : ∀ t ∈ q.reverse, t < nums.length := fun t ht => (held_lt (hq ▸ ht)).trans hi
  have hpairwise : q.reverse.Pairwise fun u t => Above nums t u := by
    rw [hq]
    exact pairwise_held.imp And.right
  refine ⟨_, by rw [push, popBack_eq hi hlt, Option.map_some], ?_⟩
  have hfilter := filter_eq_dropWhile (r := Above nums) Above.trans hpairwise i
  rw [List.reverse_append, List.reverse_reverse, held_succ ha, ← hq, hfilter]
  rfl

theorem popFront_eq {bound : ℤ} : ∀ {q : List ℕ}, (∃ t ∈ q, bound < t) → q.Pairwise (· < ·) →
    popFront bound q = some (q.filter fun t : ℕ => bound < (t : ℤ))
  | [], hex, _ => by
    obtain ⟨t, ht, -⟩ := hex
    cases ht
  | first :: q, hex, hq => by
    obtain ⟨hfirst, hq⟩ := List.pairwise_cons.1 hq
    rw [popFront]
    split_ifs with hle
    · rw [List.filter_cons_of_neg (by simpa using hle)]
      refine popFront_eq ?_ hq
      obtain ⟨t, ht, hlt⟩ := hex
      rcases List.mem_cons.1 ht with rfl | ht
      · exact absurd hle (not_le.2 hlt)
      · exact ⟨t, ht, hlt⟩
    · rw [List.filter_eq_self.2]
      rintro t (_ | ⟨_, ht⟩)
      · exact decide_eq_true (not_le.1 hle)
      · exact decide_eq_true ((not_le.1 hle).trans (Int.ofNat_lt.2 (hfirst t ht)))

/-- The indices that the window has left are at the front. -/
theorem popFront_held (hab : a ≤ b) (hb : b < i) (hq : q.reverse = held nums a i) (bound : ℤ) (hbound : bound + 1 = b) :
    ∃ q', popFront bound q = some q' ∧ q'.reverse = held nums b i := by
  have hle : ∀ t : ℕ, bound < (t : ℤ) ↔ b ≤ t := fun t => by omega
  -- some index of the new window stays, so the loop ends before the queue is empty
  obtain ⟨t, ht⟩ := exists_firstStanding (r := Above nums) hb
  have hmem : t ∈ q := List.mem_reverse.1 (hq ▸ mem_held.2 ⟨ht.mem, hab.trans ht.le⟩)
  have hpairwise : q.Pairwise (· < ·) := List.pairwise_reverse.1 (hq ▸ pairwise_held.imp And.left)
  refine ⟨_, popFront_eq ⟨t, hmem, (hle t).2 ht.le⟩ hpairwise, ?_⟩
  simp only [hle]
  rw [← List.filter_reverse, hq, filter_held hab]

/-- The value at the front is the maximum of the window. -/
theorem front_held (ha : a < i) (hi : i ≤ nums.length) (hq : q.reverse = held nums a i) :
    ∃ m, front nums q = some m ∧ (window nums a i).max? = some m := by
  obtain ⟨t, ht⟩ := exists_firstStanding (r := Above nums) ha
  obtain ⟨hti, hstands⟩ := mem_standing.1 ht.mem
  have hlt : t < nums.length := hti.trans_le hi
  have hmem : t ∈ q := List.mem_reverse.1 (hq ▸ mem_held.2 ⟨ht.mem, ht.le⟩)
  have hpairwise : q.Pairwise (· < ·) := List.pairwise_reverse.1 (hq ▸ pairwise_held.imp And.left)
  have hhead : q.head? = some t := by
    cases q with
    | nil => cases hmem
    | cons first q =>
      rcases List.mem_cons.1 hmem with rfl | hmem
      · rfl
      · obtain ⟨hfirst, hle⟩ := mem_held.1 (hq ▸ List.mem_reverse.2 (List.mem_cons_self (a := first) (l := q)))
        exact absurd (ht.first first hfirst hle) (Nat.not_le.2 ((List.pairwise_cons.1 hpairwise).1 t hmem))
  refine ⟨nums[t], ?_, List.max?_eq_some_iff.2 ⟨?_, fun x hx => ?_⟩⟩
  · rw [front, hhead, Option.bind_some, List.getElem?_eq_getElem hlt]
  · exact mem_window_iff.2 ⟨t, ht.le, hti, List.getElem?_eq_getElem hlt⟩
  · obtain ⟨y, hay, hyi, hy⟩ := mem_window_iff.1 hx
    obtain ⟨hylt, rfl⟩ := List.getElem?_eq_some_iff.1 hy
    rcases lt_trichotomy y t with hyt | rfl | hty
    · have hnot := FirstStanding.not_stands (r := Above nums) Above.trans not_above_trans ht hay hyt
      exact not_lt.1 (mt (above_iff hylt hlt).2 hnot)
    · exact le_rfl
    · exact ((above_iff hlt hylt).1 (hstands y hty hyi)).le

/-! ## The result -/

/-- The variables of the second loop, when it comes to the index `i`. -/
structure Slid (nums : List ℤ) (k i : ℕ) (st : List ℕ × List ℤ) : Prop where
  queue : st.1.reverse = held nums (i - k) i
  ans : st.2.map some = (List.range (i - k + 1)).map fun j => (window nums j (j + k)).max?

theorem Slid.slide {st : List ℕ × List ℤ} (h : Slid nums k i st) (hk : 1 ≤ k) (hki : k ≤ i) (hi : i < nums.length) :
    ∃ st', slide nums k st i = some st' ∧ Slid nums k (i + 1) st' := by
  obtain ⟨q, ans⟩ := st
  have hstart : i + 1 - k = i - k + 1 := by omega
  obtain ⟨q₁, hpush, hq₁⟩ := push_held (Nat.sub_le i k) hi h.queue
  obtain ⟨q₂, hpop, hq₂⟩ := popFront_held (b := i + 1 - k) (by omega) (by omega) hq₁ (i - k) (by omega)
  obtain ⟨m, hfront, hmax⟩ := front_held (by omega) hi hq₂
  refine ⟨(q₂, ans ++ [m]), ?_, hq₂, ?_⟩
  · simp only [MaxSlidingWindow.slide, hpush, Option.bind_eq_bind, Option.bind_some, hpop, hfront]
  · have hwindow : i + 1 - k + k = i + 1 := by omega
    rw [List.map_append, h.ans, List.range_succ (n := i + 1 - k), List.map_append, hstart, List.map_singleton,
      List.map_singleton, ← hstart, hwindow, hmax]

/-- The result has the maximum of every window. -/
theorem maxSlidingWindow_max (nums : List ℤ) (k : ℕ) (hk : 1 ≤ k) (hlen : k ≤ nums.length) :
    ∃ ans, maxSlidingWindow nums k = some ans ∧ ans.length = nums.length - k + 1 ∧
      ∀ i < ans.length, ans[i]? = (window nums i (i + k)).max? := by
  obtain ⟨q, hq, hheld⟩ := exists_foldlM_range (f := push nums) (P := fun i q => q.reverse = held nums 0 i) k
    (fun i hi q hq => push_held (Nat.zero_le i) (hi.trans_le hlen) hq) (s := []) rfl
  obtain ⟨m, hfront, hmax⟩ := front_held hk hlen hheld
  have hslid : Slid nums k k (q, [m]) := by
    refine ⟨?_, ?_⟩
    · rw [Nat.sub_self]
      exact hheld
    · rw [Nat.sub_self, List.map_singleton, List.range_one, List.map_singleton, Nat.zero_add, hmax]
  obtain ⟨⟨q', ans⟩, hloop, hend⟩ := exists_foldlM_range' (nums.length - k) k
    (fun i hki hi st hst => hst.slide hk hki (by omega)) hslid
  rw [Nat.add_sub_cancel' hlen] at hend
  have hlength : ans.length = nums.length - k + 1 := by
    have hmap := congrArg List.length hend.ans
    rwa [List.length_map, List.length_map, List.length_range] at hmap
  refine ⟨ans, ?_, hlength, fun i hi => ?_⟩
  · simp only [maxSlidingWindow, hq, Option.bind_eq_bind, Option.bind_some, hfront, hloop]
  · have hget := congrArg (·[i]?) hend.ans
    simp only [List.getElem?_map, List.getElem?_range (hlength ▸ hi), Option.map_some] at hget
    rw [List.getElem?_eq_getElem hi] at hget ⊢
    exact Option.some.inj hget

theorem maxSlidingWindow_max_three : ∃ ans, maxSlidingWindow [1, 3, -1, -3, 5, 3, 6, 7] 3 = some ans ∧ ans.length = 6 ∧
    ∀ i < ans.length, ans[i]? = (window [1, 3, -1, -3, 5, 3, 6, 7] i (i + 3)).max? :=
  maxSlidingWindow_max [1, 3, -1, -3, 5, 3, 6, 7] 3 (by decide) (by decide)

example : maxSlidingWindow [1, 3, -1, -3, 5, 3, 6, 7] 3 = some [3, 3, 5, 5, 6, 7] := by decide

end GoodGoodStudy.LeetCode.MaxSlidingWindow
