/-
快排: `quick_sort` makes new lists, `quick_sort2` exchanges elements of the one it is given. `partition` moves the first
element of a range to the place where it belongs; `quick_select` only goes on in the part with the index that is looked
for, and the four functions for the smallest and the greatest elements call it.
-/
import Mathlib.Logic.Relation
import GoodGoodStudy.Lib.Counter
import GoodGoodStudy.Lib.Loop
import GoodGoodStudy.Lib.Sequence
import GoodGoodStudy.Lib.Sorting

namespace GoodGoodStudy.LeetCode.QuickSort

open GoodGoodStudy.Lib

variable {α : Type} [LinearOrder α]

inductive Exc
  | indexError
  deriving DecidableEq, Repr

/-- `nums[i]` -/
def item (nums : List α) (i : ℤ) : Except Exc α :=
  match item? nums i with
  | none => .error .indexError
  | some a => .ok a

/-- `nums[i] = a` -/
def setItem (nums : List α) (i : ℤ) (a : α) : Except Exc (List α) :=
  match setItem? nums i a with
  | none => .error .indexError
  | some nums => .ok nums

/-- `nums[i], nums[j] = nums[j], nums[i]` -/
def swap (nums : List α) (i j : ℤ) : Except Exc (List α) := do
  let a ← item nums j
  let b ← item nums i
  setItem (← setItem nums i a) j b

/-- The body of the loop in `partition`, with `mark` and `nums`. -/
def step (pivot : α) : ℤ × List α → ℤ → Except Exc (ℤ × List α)
  | (mark, nums), i => do
    if (← item nums i) < pivot then
      let mark := mark + 1
      return (mark, ← swap nums mark i)
    else return (mark, nums)

/-- `partition` up to the last exchange; the index of the loop is `begin + 1 + t`. -/
def scan (begin stop : ℤ) (nums : List α) : Except Exc (ℤ × List α) := do
  let pivot ← item nums begin
  (List.range (stop - begin).toNat).foldlM (fun s (t : ℕ) => step pivot s (begin + 1 + t)) (begin, nums)

/-- The index of the pivot, and the list; `stop` is `end`. -/
def partition (begin stop : ℤ) (nums : List α) : Except Exc (ℤ × List α) := do
  let (mark, nums) ← scan begin stop nums
  return (mark, ← swap nums begin mark)

def quick_sort : List α → List α
  | [] => []
  | first :: li => quick_sort (li.filter (· < first)) ++ [first] ++ quick_sort (li.filter (· ≥ first))
termination_by li => li.length
decreasing_by
  all_goals
    rw [List.length_unattach, List.length_cons]
    exact Nat.lt_succ_of_le ((List.length_filter_le _ _).trans_eq List.length_attach)

def quick_sort2 : ℕ → ℤ → ℤ → List α → ExceptT Exc Option (List α)
  | 0, _, _, _ => ExceptT.mk none
  | fuel + 1, begin, stop, nums =>
    if begin ≥ stop then return nums
    else do
      let (pivot_index, nums) ← partition begin stop nums
      let nums ← quick_sort2 fuel begin (pivot_index - 1) nums
      quick_sort2 fuel (pivot_index + 1) stop nums

def quick_select (k : ℤ) : ℕ → ℤ → ℤ → List α → ExceptT Exc Option (List α)
  | 0, _, _, _ => ExceptT.mk none
  | fuel + 1, begin, stop, nums =>
    if begin ≥ stop then return nums
    else do
      let (pivot_index, nums) ← partition begin stop nums
      if pivot_index = k then return nums
      else if pivot_index < k then quick_select k fuel (pivot_index + 1) stop nums
      else quick_select k fuel begin (pivot_index - 1) nums

/-- The results of the four functions come with the list as it is then. -/
def topk_smalls (nums : List α) (k : ℤ) (fuel : ℕ) : ExceptT Exc Option (List α × List α) := do
  let nums ← quick_select k fuel 0 (nums.length - 1) nums
  return (slice nums 0 k, nums)

def topk_small (nums : List α) (k : ℤ) (fuel : ℕ) : ExceptT Exc Option (α × List α) := do
  let nums ← quick_select k fuel 0 (nums.length - 1) nums
  return (← item nums (k - 1), nums)

def topk_larges (nums : List α) (k : ℤ) (fuel : ℕ) : ExceptT Exc Option (List α × List α) := do
  let nums ← quick_select (nums.length - k) fuel 0 (nums.length - 1) nums
  return (slice nums (nums.length - k) nums.length, nums)

def topk_large (nums : List α) (k : ℤ) (fuel : ℕ) : ExceptT Exc Option (α × List α) := do
  let nums ← quick_select (nums.length - k) fuel 0 (nums.length - 1) nums
  return (← item nums (nums.length - k), nums)

/-! ## The partition of a range -/

omit [LinearOrder α] in
theorem item_ok {i : ℤ} {a : α} (h : item? nums i = some a) : item nums i = .ok a := by
  rw [item, h]

omit [LinearOrder α] in
theorem item_append {pre : List α} {i : ℤ} (hi : i = pre.length) (a : α) (post : List α) :
    item (pre ++ a :: post) i = .ok a := item_ok (item?_append hi a post)

omit [LinearOrder α] in
/-- The element at the second of two places. -/
theorem item_behind {pre mid : List α} {j : ℤ} (hj : j = pre.length + 1 + mid.length) (a b : α) (post : List α) :
    item (pre ++ a :: (mid ++ b :: post)) j = .ok b := by
  have hsplit : pre ++ a :: (mid ++ b :: post) = (pre ++ a :: mid) ++ b :: post := by simp
  rw [hsplit]
  refine item_append ?_ b post
  rw [hj, List.length_append, List.length_cons]
  omega

omit [LinearOrder α] in
theorem setItem_append {pre : List α} {i : ℤ} (hi : i = pre.length) (a b : α) (post : List α) :
    setItem (pre ++ a :: post) i b = .ok (pre ++ b :: post) := by
  unfold setItem
  rw [setItem?_append hi]

omit [LinearOrder α] in
theorem swap_self {pre : List α} {i j : ℤ} (hi : i = pre.length) (hj : j = i) (a : α) (post : List α) :
    swap (pre ++ a :: post) i j = .ok (pre ++ a :: post) := by
  unfold swap
  rw [hj]
  simp only [item_append hi, setItem_append hi, bind, Except.bind]

omit [LinearOrder α] in
theorem swap_append {pre mid : List α} {i j : ℤ} (hi : i = pre.length) (hj : j = pre.length + 1 + mid.length) (a b : α)
    (post : List α) : swap (pre ++ a :: (mid ++ b :: post)) i j = .ok (pre ++ b :: (mid ++ a :: post)) := by
  have hsplit : ∀ c d : α, pre ++ c :: (mid ++ d :: post) = (pre ++ c :: mid) ++ d :: post := by simp
  have hj' : ∀ c : α, j = (pre ++ c :: mid).length := fun c => by
    rw [hj, List.length_append, List.length_cons]
    omega
  have hset : setItem (pre ++ b :: (mid ++ b :: post)) j a = .ok (pre ++ b :: (mid ++ a :: post)) := by
    rw [hsplit, setItem_append (hj' b), hsplit]
  unfold swap
  simp only [item_behind hj, item_append hi, setItem_append hi, hset, bind, Except.bind]

omit [LinearOrder α] in
/-- The first and the last element of a range change places. -/
theorem swap_ends {pre : List α} {i j : ℤ} (hi : i = pre.length) (a : α) (mid : List α)
    (hj : j = i + mid.length) (post : List α) : swap (pre ++ (a :: mid ++ post)) i j = .ok (pre ++ (lastFirst mid ++ a :: post)) := by
  rcases mid.eq_nil_or_concat' with rfl | ⟨mid, b, rfl⟩
  · exact swap_self hi (by simpa using hj) a post
  · have hsplit : pre ++ (a :: (mid ++ [b]) ++ post) = pre ++ a :: (mid ++ b :: post) := by simp
    have hj' : j = pre.length + 1 + mid.length := by
      rw [List.length_append, List.length_singleton] at hj
      omega
    rw [hsplit, swap_append hi hj', lastFirst_concat]
    rfl

omit [LinearOrder α] in
/-- An element changes places with the first one of those before it, if there is one. -/
theorem swap_first {pre G : List α} {i j : ℤ} (hi : i = pre.length) (hj : j = i + G.length) (a : α) (post : List α) :
    swap (pre ++ (G ++ a :: post)) i j = .ok (pre ++ (a :: (G.tail ++ G.head?.toList) ++ post)) := by
  cases G with
  | nil =>
    have hends := swap_ends hi a [] hj post
    simpa [lastFirst] using hends
  | cons g G =>
    rw [List.length_cons] at hj
    have hends := swap_ends hi g (G ++ [a]) (by rw [List.length_append, List.length_singleton]; omega : j = _) post
    rw [lastFirst_concat] at hends
    simpa using hends

/-- The list when `t` elements of the range behind the pivot are looked at. -/
def scanned (pre post : List α) (pivot : α) (rest : List α) (t : ℕ) : List α :=
  pre ++ pivot :: ((zones pivot (rest.take t)).1 ++ ((zones pivot (rest.take t)).2 ++ (rest.drop t ++ post)))

theorem step_eq {begin i : ℤ} {pre : List α} (hbegin : begin = pre.length) (post : List α) (pivot : α) {rest : List α}
    {t : ℕ} (ht : t < rest.length) (hi : i = begin + 1 + t) :
    step pivot (begin + (zones pivot (rest.take t)).1.length, scanned pre post pivot rest t) i =
      .ok (begin + (zones pivot (rest.take (t + 1))).1.length, scanned pre post pivot rest (t + 1)) := by
  have hlen := length_zones pivot (rest.take t)
  rw [List.length_take, min_eq_left ht.le] at hlen
  have hzones : zones pivot (rest.take (t + 1)) = zone pivot (zones pivot (rest.take t)) rest[t] := by
    rw [List.take_succ_eq_append_getElem ht, zones_concat]
  unfold scanned
  rw [hzones, List.drop_eq_getElem_cons ht]
  generalize zones pivot (rest.take t) = z at hlen
  obtain ⟨S, G⟩ := z
  simp only at hlen
  generalize rest[t] = a
  have hget : item (pre ++ pivot :: (S ++ (G ++ (a :: rest.drop (t + 1) ++ post)))) i = .ok a := by
    have hsplit : pre ++ pivot :: (S ++ (G ++ (a :: rest.drop (t + 1) ++ post))) =
        (pre ++ pivot :: (S ++ G)) ++ a :: (rest.drop (t + 1) ++ post) := by simp
    rw [hsplit, item_append]
    rw [hi, hbegin, List.length_append, List.length_cons, List.length_append]
    omega
  unfold step zone
  simp only [hget, bind, Except.bind]
  by_cases ha : a < pivot
  · -- it changes places with the first element that is not smaller, if there is one
    have hswap : swap (pre ++ pivot :: (S ++ (G ++ (a :: rest.drop (t + 1) ++ post)))) (begin + S.length + 1) i =
        .ok (pre ++ pivot :: (S ++ [a] ++ (G.tail ++ G.head?.toList ++ (rest.drop (t + 1) ++ post)))) := by
      have hplace : begin + S.length + 1 = (pre ++ pivot :: S).length := by
        rw [hbegin, List.length_append, List.length_cons]
        omega
      have hfirst := swap_first hplace (by omega : i = begin + S.length + 1 + G.length) a (rest.drop (t + 1) ++ post)
      simpa using hfirst
    rw [if_pos ha, if_pos ha, hswap]
    simp [pure, Except.pure]
    omega
  · rw [if_neg ha, if_neg ha]
    simp [pure, Except.pure]

theorem scan_eq {begin stop : ℤ} {pre : List α} (pivot : α) (rest : List α) (post : List α)
    (hbegin : begin = pre.length) (hstop : stop = begin + rest.length) :
    scan begin stop (pre ++ (pivot :: rest) ++ post) = .ok (begin + (zones pivot rest).1.length,
      pre ++ pivot :: ((zones pivot rest).1 ++ ((zones pivot rest).2 ++ post))) := by
  have hcount : (stop - begin).toNat = rest.length := by omega
  have hloop := foldlM_states (m := Except Exc) (f := fun s (t : ℕ) => step pivot s (begin + 1 + t))
    (fun t => (begin + (zones pivot (rest.take t)).1.length, scanned pre post pivot rest t)) rest.length
    fun t ht => step_eq hbegin post pivot ht rfl
  have hget : item (pre ++ (pivot :: rest) ++ post) begin = .ok pivot := by
    rw [List.append_assoc, List.cons_append, item_append hbegin]
  unfold scan
  simp only [hget, hcount, bind, Except.bind]
  simp only [scanned, List.take_zero, List.take_length, List.drop_zero, List.drop_length] at hloop
  simpa [zones, pure, Except.pure] using hloop

/-- The smaller elements come before the pivot, the others behind it. -/
theorem partition_eq {begin stop : ℤ} {pre : List α} (pivot : α) (rest : List α) (post : List α)
    (hbegin : begin = pre.length) (hstop : stop = begin + rest.length) :
    partition begin stop (pre ++ (pivot :: rest) ++ post) = .ok (begin + (front pivot rest).length,
      pre ++ (front pivot rest ++ pivot :: (zones pivot rest).2) ++ post) := by
  unfold partition front
  rw [scan_eq pivot rest post hbegin hstop]
  simp only [bind, Except.bind]
  have hends := swap_ends hbegin pivot (zones pivot rest).1 rfl ((zones pivot rest).2 ++ post)
  rw [List.cons_append] at hends
  simp [hends, (lastFirst_perm _).length_eq, pure, Except.pure]

theorem length_front_lt (pivot : α) (rest : List α) : (front pivot rest).length < (pivot :: rest).length := by
  rw [(front_perm pivot rest).length_eq]
  exact Nat.lt_succ_of_le (List.length_filter_le _ _)

theorem length_zones_snd_lt (pivot : α) (rest : List α) : (zones pivot rest).2.length < (pivot :: rest).length := by
  have hlen := length_zones pivot rest
  rw [List.length_cons]
  omega

theorem length_partition (pivot : α) (rest : List α) :
    (front pivot rest).length + (zones pivot rest).2.length = rest.length := by
  have hlen := (partition_perm pivot rest).length_eq
  rw [List.length_append, List.length_cons, List.length_cons] at hlen
  omega

theorem sorted_partition (pivot : α) (rest : List α) :
    sorted (pivot :: rest) = sorted (front pivot rest) ++ pivot :: sorted (zones pivot rest).2 := by
  rw [← sorted_congr (partition_perm pivot rest),
    sorted_append_cons (fun a ha => (lt_of_mem_front ha).le) fun b hb => le_of_mem_zones_snd hb]

/-! ## Sorting -/

section Range

omit [LinearOrder α]

/-- A range has at most one element, or a pivot and others behind it. -/
theorem range_cases {begin stop : ℤ} {seg : List α} (hstop : stop = begin + seg.length - 1) :
    (begin ≥ stop ∧ seg.length ≤ 1) ∨
      ∃ pivot rest, seg = pivot :: rest ∧ ¬ begin ≥ stop ∧ stop = begin + rest.length := by
  by_cases hshort : begin ≥ stop
  · exact .inl ⟨hshort, by omega⟩
  · cases seg with
    | nil =>
      rw [List.length_nil] at hstop
      omega
    | cons pivot rest =>
      rw [List.length_cons] at hstop
      exact .inr ⟨pivot, rest, rfl, hshort, by omega⟩

variable (pre post L R : List α) (x : α)

/-- The part before the pivot as a range of the list. -/
theorem left_range : pre ++ L ++ (x :: R ++ post) = pre ++ (L ++ x :: R) ++ post := by simp

/-- The part behind the pivot. -/
theorem right_range : pre ++ L ++ [x] ++ R ++ post = pre ++ (L ++ x :: R) ++ post := by simp

end Range

/-- A range with at most one element is left as it is. -/
theorem quick_sort2_short {begin stop : ℤ} (h : begin ≥ stop) (nums : List α) :
    Returns (fun fuel => quick_sort2 fuel begin stop nums) (.ok nums) :=
  Returns.call (fun fuel => by rw [quick_sort2, if_pos h]) (Returns.done nums)

theorem quick_sort2_range (begin stop : ℤ) (pre seg post : List α) (hbegin : begin = pre.length)
    (hstop : stop = begin + seg.length - 1) :
    Returns (fun fuel => quick_sort2 fuel begin stop (pre ++ seg ++ post)) (.ok (pre ++ sorted seg ++ post)) := by
  induction hn : seg.length using Nat.strong_induction_on generalizing pre seg post begin stop with
  | _ n ih =>
    rcases range_cases hstop with ⟨hshort, hlen⟩ | ⟨pivot, rest, rfl, hlt, hstop⟩
    · rw [sorted_short hlen]
      exact quick_sort2_short hshort _
    · have hlen := length_partition pivot rest
      have hpartition := partition_eq pivot rest post hbegin hstop
      have hleft := ih _ (hn ▸ length_front_lt pivot rest) begin _ pre (front pivot rest)
        (pivot :: (zones pivot rest).2 ++ post) hbegin rfl rfl
      have hright := ih _ (hn ▸ length_zones_snd_lt pivot rest) (begin + (front pivot rest).length + 1) stop
        (pre ++ sorted (front pivot rest) ++ [pivot]) (zones pivot rest).2 post
        (by simp [hbegin, length_sorted]; omega) (by omega) rfl
      simp only [left_range] at hleft
      simp only [right_range] at hright
      rw [sorted_partition]
      exact Returns.call (fun fuel => by rw [quick_sort2, if_neg hlt])
        ((Returns.lift hpartition).bind_ok (hleft.bind_ok hright))

theorem quick_sort_eq (li : List α) : quick_sort li = sorted li := by
  induction hn : li.length using Nat.strong_induction_on generalizing li with
  | _ n ih =>
    cases li with
    | nil => rw [quick_sort]; rfl
    | cons first li =>
      have hshort : ∀ p : α → Bool, (li.filter p).length < n := fun p =>
        hn ▸ Nat.lt_succ_of_le (List.length_filter_le p li)
      have hother : li.filter (· ≥ first) = li.filter fun a => !decide (a < first) :=
        List.filter_congr fun a _ => by rw [← decide_not, decide_eq_decide, not_lt]
      have hperm : (li.filter (· < first) ++ first :: li.filter (· ≥ first)).Perm (first :: li) := by
        rw [hother]
        exact List.perm_middle.trans (List.Perm.cons first (List.filter_append_perm _ li))
      rw [quick_sort, ih _ (hshort _) _ rfl, ih _ (hshort _) _ rfl, List.append_assoc, List.singleton_append,
        ← sorted_congr hperm, sorted_append_cons]
      · intro a ha
        exact (of_decide_eq_true (List.mem_filter.1 ha).2).le
      · intro b hb
        exact of_decide_eq_true (List.mem_filter.1 hb).2

/-- The elements from `begin` to `stop`. -/
def segment (nums : List α) (begin stop : ℤ) : List α := window nums begin.toNat (stop + 1).toNat

omit [LinearOrder α] in
theorem exists_range {nums : List α} {begin stop : ℤ} (hbegin : 0 ≤ begin) (h : begin ≤ stop + 1)
    (hstop : stop < nums.length) :
    ∃ pre seg post, nums = pre ++ seg ++ post ∧ begin = pre.length ∧ stop = begin + seg.length - 1 := by
  have htake : (nums.take (stop + 1).toNat).take begin.toNat = nums.take begin.toNat := by
    rw [List.take_take, min_eq_left (by omega)]
  refine ⟨nums.take begin.toNat, segment nums begin stop, nums.drop (stop + 1).toNat, ?_, ?_, ?_⟩
  · unfold segment window
    rw [← htake, List.take_append_drop, List.take_append_drop]
  · rw [List.length_take]
    omega
  · rw [segment, length_window (by omega)]
    omega

omit [LinearOrder α] in
theorem segment_append {begin stop : ℤ} {pre seg : List α} (post : List α) (hbegin : begin = pre.length)
    (hstop : stop = begin + seg.length - 1) : segment (pre ++ seg ++ post) begin stop = seg := by
  have hfrom : begin.toNat = pre.length := by omega
  have hto : (stop + 1).toNat = (pre ++ seg).length := by
    rw [List.length_append]
    omega
  rw [segment, window, hto, hfrom, List.take_left, List.drop_left]

omit [LinearOrder α] in
theorem getElem?_outside {pre seg seg' post : List α} (hlen : seg'.length = seg.length) {i : ℕ}
    (hi : i < pre.length ∨ pre.length + seg.length ≤ i) : (pre ++ seg' ++ post)[i]? = (pre ++ seg ++ post)[i]? := by
  rw [List.append_assoc, List.append_assoc]
  rcases hi with hi | hi
  · rw [List.getElem?_append_left hi, List.getElem?_append_left hi]
  · rw [List.getElem?_append_right (by omega), List.getElem?_append_right (by omega),
      List.getElem?_append_right (by omega), List.getElem?_append_right (by omega), hlen]

/-- The range is sorted and the rest of the list is not touched; the whole list becomes the one of `quick_sort`. -/
theorem quick_sort2_sorts (nums : List α) (begin stop : ℤ) (hbegin : 0 ≤ begin) (hstop : stop < nums.length) :
    (∃ nums', Returns (fun fuel => quick_sort2 fuel begin stop nums) (.ok nums') ∧ nums'.length = nums.length ∧
      (∀ i : ℕ, i < begin ∨ stop < i → nums'[i]? = nums[i]?) ∧
      (segment nums' begin stop).Perm (segment nums begin stop) ∧
      (segment nums' begin stop).Pairwise (· ≤ ·)) ∧
      Returns (fun fuel => quick_sort2 fuel 0 (nums.length - 1) nums) (.ok (quick_sort nums)) := by
  constructor
  · by_cases hshort : begin ≥ stop
    · refine ⟨nums, quick_sort2_short hshort nums, rfl, fun _ _ => rfl, List.Perm.refl _, ?_⟩
      have hlen : (segment nums begin stop).length ≤ 1 := by
        rw [segment, length_window (by omega)]
        omega
      match segment nums begin stop, hlen with
      | [], _ => exact List.Pairwise.nil
      | [a], _ => exact List.pairwise_singleton _ a
    · obtain ⟨pre, seg, post, rfl, hpre, hseg⟩ := exists_range hbegin (by omega) hstop
      have hlen := length_sorted seg
      refine ⟨_, quick_sort2_range begin stop pre seg post hpre hseg, ?_, fun i hi => ?_, ?_, ?_⟩
      · simp only [List.length_append, hlen]
      · exact getElem?_outside hlen (by omega)
      · rw [segment_append post hpre hseg, segment_append post hpre (by omega)]
        exact sorted_perm seg
      · rw [segment_append post hpre (by omega)]
        exact sorted_pairwise seg
  · have hsort := quick_sort2_range 0 (nums.length - 1) [] nums [] rfl (by omega)
    rw [quick_sort_eq]
    simpa using hsort

theorem quick_sort2_sorts_middle :
    ∃ nums', Returns (fun fuel => quick_sort2 fuel 1 2 [0, 7, 5, 3]) (.ok nums') ∧ nums'.length = 4 ∧
      (∀ i : ℕ, (i : ℤ) < 1 ∨ 2 < (i : ℤ) → nums'[i]? = [0, 7, 5, 3][i]?) ∧
      (segment nums' 1 2).Perm (segment [0, 7, 5, 3] 1 2) ∧ (segment nums' 1 2).Pairwise (· ≤ ·) :=
  (quick_sort2_sorts [0, 7, 5, 3] 1 2 (by decide) (by decide)).1

/-! ## Selection -/

theorem quick_select_short {k begin stop : ℤ} (h : begin ≥ stop) (nums : List α) :
    Returns (fun fuel => quick_select k fuel begin stop nums) (.ok nums) :=
  Returns.call (fun fuel => by rw [quick_select, if_pos h]) (Returns.done nums)

/-- A call of `quick_select`, with the list as it is then. -/
structure Call (α : Type) where
  begin : ℤ
  stop : ℤ
  nums : List α

/-- What a call comes to: it ends at once, or it makes one more call. -/
inductive Next (k : ℤ) : Call α → Call α → Prop
  | right {begin stop pivot_index : ℤ} {nums nums' : List α} (hlt : ¬ begin ≥ stop)
      (hpartition : partition begin stop nums = .ok (pivot_index, nums')) (hk : pivot_index < k) :
      Next k ⟨begin, stop, nums⟩ ⟨pivot_index + 1, stop, nums'⟩
  | left {begin stop pivot_index : ℤ} {nums nums' : List α} (hlt : ¬ begin ≥ stop)
      (hpartition : partition begin stop nums = .ok (pivot_index, nums')) (hk : k < pivot_index) :
      Next k ⟨begin, stop, nums⟩ ⟨begin, pivot_index - 1, nums'⟩

theorem Next.returns {k : ℤ} {c c' : Call α} (h : Next k c c') {r : Except Exc (List α)}
    (hr : Returns (fun fuel => quick_select k fuel c'.begin c'.stop c'.nums) r) :
    Returns (fun fuel => quick_select k fuel c.begin c.stop c.nums) r := by
  cases h with
  | right hlt hpartition hk =>
    refine Returns.call (fun fuel => by rw [quick_select, if_neg hlt]) ((Returns.lift hpartition).bind_ok ?_)
    simp only [if_neg hk.ne, if_pos hk]
    exact hr
  | left hlt hpartition hk =>
    refine Returns.call (fun fuel => by rw [quick_select, if_neg hlt]) ((Returns.lift hpartition).bind_ok ?_)
    simp only [if_neg hk.ne', if_neg hk.not_gt]
    exact hr

section Select

variable {k begin stop : ℤ} {pre : List α} (pivot : α) (rest post : List α)

/-- The pivot comes to the index. -/
theorem quick_select_pivot (hbegin : begin = pre.length) (hstop : stop = begin + rest.length) (hlt : ¬ begin ≥ stop)
    (hk : k = begin + (front pivot rest).length) :
    Returns (fun fuel => quick_select k fuel begin stop (pre ++ (pivot :: rest) ++ post))
      (.ok (pre ++ (front pivot rest ++ pivot :: (zones pivot rest).2) ++ post)) := by
  have hpartition := partition_eq pivot rest post hbegin hstop
  refine Returns.call (fun fuel => by rw [quick_select, if_neg hlt]) ((Returns.lift hpartition).bind_ok ?_)
  simp only [if_pos hk.symm]
  exact Returns.done _

/-- The pivot comes before the index. -/
theorem next_right (hbegin : begin = pre.length) (hstop : stop = begin + rest.length) (hlt : ¬ begin ≥ stop)
    (hk : begin + (front pivot rest).length < k) :
    Next k ⟨begin, stop, pre ++ (pivot :: rest) ++ post⟩ ⟨begin + (front pivot rest).length + 1, stop,
      pre ++ (front pivot rest ++ pivot :: (zones pivot rest).2) ++ post⟩ :=
  Next.right hlt (partition_eq pivot rest post hbegin hstop) hk

/-- The pivot comes behind the index. -/
theorem next_left (hbegin : begin = pre.length) (hstop : stop = begin + rest.length) (hlt : ¬ begin ≥ stop)
    (hk : k < begin + (front pivot rest).length) :
    Next k ⟨begin, stop, pre ++ (pivot :: rest) ++ post⟩ ⟨begin, begin + (front pivot rest).length - 1,
      pre ++ (front pivot rest ++ pivot :: (zones pivot rest).2) ++ post⟩ :=
  Next.left hlt (partition_eq pivot rest post hbegin hstop) hk

end Select

/-- The range is rearranged so that the element at the index, if it is in the range, is the one that belongs there. -/
theorem quick_select_range {k : ℤ} (begin stop : ℤ) (pre seg post : List α) (hbegin : begin = pre.length)
    (hstop : stop = begin + seg.length - 1) :
    ∃ seg', Returns (fun fuel => quick_select k fuel begin stop (pre ++ seg ++ post)) (.ok (pre ++ seg' ++ post)) ∧
      seg'.Perm seg ∧ ∀ j : ℕ, j < seg.length → k = begin + j → FixedAt seg' j := by
  induction hn : seg.length using Nat.strong_induction_on generalizing pre seg post begin stop with
  | _ n ih =>
    rcases range_cases hstop with ⟨hshort, hlen⟩ | ⟨pivot, rest, rfl, hshort, hstop⟩
    · exact ⟨seg, quick_select_short hshort _, List.Perm.refl seg, fun j hj _ => fixedAt_short hlen (hn ▸ hj)⟩
    · have hlen := length_partition pivot rest
      have hperm := partition_perm pivot rest
      have hfront : ∀ a ∈ front pivot rest, a ≤ pivot := fun a ha => (lt_of_mem_front ha).le
      have hother : ∀ b ∈ (zones pivot rest).2, pivot ≤ b := fun b hb => le_of_mem_zones_snd hb
      rcases lt_trichotomy k (begin + (front pivot rest).length) with hlt | heq | hgt
      · obtain ⟨F, hreturns, hF, hfixed⟩ := ih _ (hn ▸ length_front_lt pivot rest) begin _ pre (front pivot rest)
          (pivot :: (zones pivot rest).2 ++ post) hbegin rfl rfl
        simp only [left_range] at hreturns
        have hcall := (next_left pivot rest post hbegin hstop hshort hlt).returns hreturns
        refine ⟨F ++ pivot :: (zones pivot rest).2, hcall, (hF.append_right _).trans hperm, fun j hj hk => ?_⟩
        exact (hfixed j (by omega) hk).append_left (fun a ha => hfront a (hF.mem_iff.1 ha)) hother
      · have hcall := quick_select_pivot pivot rest post hbegin hstop hshort heq
        refine ⟨_, hcall, hperm, fun j hj hk => ?_⟩
        exact ⟨front pivot rest, pivot, _, rfl, by omega, hfront, hother⟩
      · obtain ⟨G, hreturns, hG, hfixed⟩ := ih _ (hn ▸ length_zones_snd_lt pivot rest)
          (begin + (front pivot rest).length + 1) stop (pre ++ front pivot rest ++ [pivot]) (zones pivot rest).2 post
          (by simp [hbegin]; omega) (by omega) rfl
        simp only [right_range] at hreturns
        have hcall := (next_right pivot rest post hbegin hstop hshort hgt).returns hreturns
        refine ⟨front pivot rest ++ pivot :: G, hcall, ((hG.cons pivot).append_left _).trans hperm, fun j hj hk => ?_⟩
        obtain ⟨i, rfl⟩ : ∃ i, j = (front pivot rest).length + 1 + i :=
          ⟨j - ((front pivot rest).length + 1), by omega⟩
        rw [← hn, List.length_cons] at hj
        exact (hfixed i (by omega) (by omega)).append_right hfront fun b hb => hother b (hG.mem_iff.1 hb)

theorem quick_select_whole (nums : List α) (k : ℤ) :
    ∃ nums', Returns (fun fuel => quick_select k fuel 0 (nums.length - 1) nums) (.ok nums') ∧ nums'.Perm nums ∧
      ∀ j : ℕ, j < nums.length → k = j → FixedAt nums' j := by
  obtain ⟨nums', hreturns, hperm, hfixed⟩ :=
    quick_select_range (k := k) 0 (nums.length - 1) [] nums [] rfl (by omega)
  simp only [List.nil_append, List.append_nil] at hreturns
  exact ⟨nums', hreturns, hperm, fun j hj hk => hfixed j hj (by omega)⟩

/-- The smallest, the greatest, and the one that has `k - 1` greater ones. -/
theorem topk_exact (nums : List α) (k : ℕ) (hpos : 1 ≤ k) (hk : k ≤ nums.length) :
    (∃ res nums', Returns (topk_smalls nums k) (.ok (res, nums')) ∧ res.Perm ((sorted nums).take k) ∧
      nums'.Perm nums) ∧
    (∃ res nums', Returns (topk_larges nums k) (.ok (res, nums')) ∧
      res.Perm ((sorted nums).drop (nums.length - k)) ∧ nums'.Perm nums) ∧
    ∃ res nums', Returns (topk_large nums k) (.ok (res, nums')) ∧ (sorted nums)[nums.length - k]? = some res ∧
      nums'.Perm nums := by
  have hindex : (nums.length : ℤ) - k = (nums.length - k : ℕ) := by omega
  obtain ⟨small, hsmall, hperm, hfixed⟩ := quick_select_whole nums k
  obtain ⟨large, hlarge, hperm', hfixed'⟩ := quick_select_whole nums (nums.length - k)
  have hfixed' := hfixed' (nums.length - k) (by omega) hindex
  have hlt : nums.length - k < large.length := by
    rw [hperm'.length_eq]
    omega
  refine ⟨⟨small.take k, small, ?_, ?_, hperm⟩, ⟨large.drop (nums.length - k), large, ?_, ?_, hperm'⟩,
    large[nums.length - k], large, ?_, ?_, hperm'⟩
  · have hslice : slice small 0 k = small.take k := slice_natCast small 0 k
    rw [← hslice]
    exact hsmall.bind_ok (Returns.done _)
  · rw [← sorted_congr hperm]
    rcases hk.lt_or_eq with hk | rfl
    · exact (hfixed k hk rfl).take_perm
    · rw [← hperm.length_eq, List.take_length, ← length_sorted, List.take_length]
      exact (sorted_perm small).symm
  · apply hlarge.bind_ok
    rw [hperm'.length_eq, hindex, slice_natCast, ← hperm'.length_eq, List.take_length]
    exact Returns.done _
  · rw [← sorted_congr hperm']
    exact hfixed'.drop_perm
  · have hitem : item large (large.length - k) = .ok large[nums.length - k] := by
      rw [hperm'.length_eq, hindex]
      exact item_ok (item?_natCast hlt)
    exact hlarge.bind_ok ((Returns.lift hitem).bind_ok (Returns.done _))
  · rw [← sorted_congr hperm', ← hfixed'.getElem?, List.getElem?_eq_getElem hlt]

theorem topk_exact_twice :
    (∃ res nums', Returns (topk_smalls [2, 1, 2] 2) (.ok (res, nums')) ∧ res.Perm ((sorted [2, 1, 2]).take 2) ∧
      nums'.Perm [2, 1, 2]) ∧
    (∃ res nums', Returns (topk_larges [2, 1, 2] 2) (.ok (res, nums')) ∧ res.Perm ((sorted [2, 1, 2]).drop 1) ∧
      nums'.Perm [2, 1, 2]) ∧
    ∃ res nums', Returns (topk_large [2, 1, 2] 2) (.ok (res, nums')) ∧ (sorted [2, 1, 2])[1]? = some res ∧
      nums'.Perm [2, 1, 2] :=
  topk_exact [2, 1, 2] 2 (by decide) (by decide)

/-! ## The element before the one that is fixed

`topk_small` looks for the index `k` and reads the one before it. -/

/-- The elements behind the first that are smaller than it. -/
def Call.smaller (c : Call α) : List α :=
  match item c.nums c.begin with
  | .error _ => []
  | .ok pivot => (segment c.nums (c.begin + 1) c.stop).filter (· < pivot)

/-- The pivot comes to the index. -/
structure Lands (k : ℤ) (c : Call α) : Prop where
  lt : c.begin < c.stop
  eq : c.begin + c.smaller.length = k

/-- The last but one of the smaller elements, which comes to the place before the pivot, is the greatest of them. -/
def Safe (c : Call α) : Prop := ∀ x, c.smaller.dropLast.getLast? = some x → ∀ a ∈ c.smaller, a ≤ x

/-- Each of the calls that lands on the index is safe. -/
def LandsSafe (k : ℤ) (c : Call α) : Prop := ∀ c', Relation.ReflTransGen (Next k) c c' → Lands k c' → Safe c'

theorem landsSafe_iff {k : ℤ} {c : Call α} :
    LandsSafe k c ↔ (Lands k c → Safe c) ∧ ∀ c', Next k c c' → LandsSafe k c' := by
  constructor
  · intro h
    exact ⟨h c .refl, fun c' hnext d hd => h d (hd.head hnext)⟩
  · rintro ⟨hc, hnext⟩ d hd
    rcases hd.cases_head with rfl | ⟨c', hc', hd⟩
    · exact hc
    · exact hnext c' hc' d hd

theorem smaller_eq {begin stop : ℤ} {pre : List α} (pivot : α) (rest post : List α) (hbegin : begin = pre.length)
    (hstop : stop = begin + rest.length) :
    (Call.mk begin stop (pre ++ (pivot :: rest) ++ post)).smaller = (zones pivot rest).1 := by
  have hitem : item (pre ++ (pivot :: rest) ++ post) begin = .ok pivot := by
    rw [List.append_assoc, List.cons_append, item_append hbegin]
  have hsegment : segment (pre ++ (pivot :: rest) ++ post) (begin + 1) stop = rest := by
    have hlists : pre ++ (pivot :: rest) ++ post = (pre ++ [pivot]) ++ rest ++ post := by simp
    rw [hlists]
    exact segment_append post (by simp [hbegin]) (by omega)
  simp only [Call.smaller, hitem, hsegment, zones_fst]

theorem lands_iff {k begin stop : ℤ} {pre : List α} (pivot : α) (rest post : List α) (hbegin : begin = pre.length)
    (hstop : stop = begin + rest.length) (hlt : ¬ begin ≥ stop) :
    Lands k ⟨begin, stop, pre ++ (pivot :: rest) ++ post⟩ ↔ k = begin + (front pivot rest).length := by
  have hsmaller := smaller_eq pivot rest post hbegin hstop
  have hlen : (zones pivot rest).1.length = (front pivot rest).length := (lastFirst_perm _).length_eq.symm
  constructor
  · rintro ⟨-, heq⟩
    rw [hsmaller, hlen] at heq
    exact heq.symm
  · intro heq
    refine ⟨not_le.1 hlt, ?_⟩
    rw [hsmaller, hlen]
    exact heq.symm

/-- The call makes no other call. -/
theorem landsSafe_last {k : ℤ} {c : Call α} (h : ∀ c', ¬ Next k c c') : LandsSafe k c ↔ (Lands k c → Safe c) := by
  rw [landsSafe_iff]
  exact and_iff_left fun c' hc' => absurd hc' (h c')

theorem Next.unique {k : ℤ} {c c₁ c₂ : Call α} (h₁ : Next k c c₁) (h₂ : Next k c c₂) : c₁ = c₂ := by
  cases h₁ with
  | right hlt hpartition hk =>
    cases h₂ with
    | right hlt' hpartition' hk' =>
      cases hpartition.symm.trans hpartition'
      rfl
    | left hlt' hpartition' hk' =>
      cases hpartition.symm.trans hpartition'
      exact absurd hk hk'.not_gt
  | left hlt hpartition hk =>
    cases h₂ with
    | right hlt' hpartition' hk' =>
      cases hpartition.symm.trans hpartition'
      exact absurd hk hk'.not_gt
    | left hlt' hpartition' hk' =>
      cases hpartition.symm.trans hpartition'
      rfl

theorem landsSafe_next {k : ℤ} {c c' : Call α} (h : Next k c c') (hc : ¬ Lands k c) :
    LandsSafe k c ↔ LandsSafe k c' := by
  rw [landsSafe_iff]
  constructor
  · intro hsafe
    exact hsafe.2 c' h
  · intro hsafe
    exact ⟨fun hlands => absurd hlands hc, fun d hd => h.unique hd ▸ hsafe⟩

theorem not_next_short {k begin stop : ℤ} (h : begin ≥ stop) (nums : List α) (c : Call α) :
    ¬ Next k ⟨begin, stop, nums⟩ c := by
  rintro (⟨hlt, -, -⟩ | ⟨hlt, -, -⟩)
  · exact hlt h
  · exact hlt h

theorem not_next_pivot {k begin stop : ℤ} {nums nums' : List α} (h : partition begin stop nums = .ok (k, nums'))
    (c : Call α) : ¬ Next k ⟨begin, stop, nums⟩ c := by
  rintro (⟨-, hpartition, hk⟩ | ⟨-, hpartition, hk⟩)
  · cases h.symm.trans hpartition
    exact hk.false
  · cases h.symm.trans hpartition
    exact hk.false

/-- In a range that the index is in or just behind, the element before the index is the one that belongs there exactly
if the calls are safe. -/
theorem quick_select_before {k : ℤ} (begin stop : ℤ) (pre seg post : List α) (j : ℕ) (hbegin : begin = pre.length)
    (hstop : stop = begin + seg.length - 1) (hk : k = begin + j) (hj : j ≤ seg.length) :
    ∃ seg', Returns (fun fuel => quick_select k fuel begin stop (pre ++ seg ++ post)) (.ok (pre ++ seg' ++ post)) ∧
      seg'.length = seg.length ∧
      (LandsSafe k ⟨begin, stop, pre ++ seg ++ post⟩ ↔ AgreeBefore seg' (sorted seg) j) := by
  induction hn : seg.length using Nat.strong_induction_on generalizing pre seg post begin stop j with
  | _ n ih =>
    rcases range_cases hstop with ⟨hshort, hlen⟩ | ⟨pivot, rest, rfl, hshort, hstop⟩
    · refine ⟨seg, quick_select_short hshort _, hn, ?_⟩
      rw [sorted_short hlen, landsSafe_last (not_next_short hshort _)]
      exact iff_of_true (fun hlands => absurd hlands.lt hshort.not_gt) fun _ _ => rfl
    · rw [List.length_cons] at hj hn
      have hlen := length_partition pivot rest
      have hfront := length_sorted (front pivot rest)
      have hlands := lands_iff (k := k) pivot rest post hbegin hstop hshort
      rw [sorted_partition]
      rcases lt_trichotomy j (front pivot rest).length with hlt | rfl | hgt
      · have hnext := next_left (k := k) pivot rest post hbegin hstop hshort (by omega)
        obtain ⟨F, hreturns, hF, hsafe⟩ := ih _ (hn ▸ length_front_lt pivot rest) begin _ pre (front pivot rest)
          (pivot :: (zones pivot rest).2 ++ post) j hbegin rfl hk hlt.le rfl
        simp only [left_range] at hreturns hsafe
        refine ⟨F ++ pivot :: (zones pivot rest).2, hnext.returns hreturns, ?_, ?_⟩
        · simp only [List.length_append, List.length_cons]
          omega
        · rw [landsSafe_next hnext (mt hlands.1 (by omega)), hsafe, agreeBefore_left (by omega) (by omega)]
      · have hpartition := partition_eq pivot rest post hbegin hstop
        rw [← hk] at hpartition
        refine ⟨_, quick_select_pivot pivot rest post hbegin hstop hshort hk, ?_, ?_⟩
        · simp only [List.length_append, List.length_cons]
          omega
        · have hsmall : (front pivot rest).length = (zones pivot rest).1.length := (lastFirst_perm _).length_eq
          rw [landsSafe_last (not_next_pivot hpartition), hlands, imp_iff_right hk, Safe,
            smaller_eq pivot rest post hbegin hstop, agreeBefore_left hfront.symm le_rfl, hsmall]
          exact (lastFirst_agreeBefore_iff _).symm
      · have hnext := next_right (k := k) pivot rest post hbegin hstop hshort (by omega)
        obtain ⟨m, rfl⟩ : ∃ m, j = (front pivot rest).length + 1 + m :=
          ⟨j - ((front pivot rest).length + 1), by omega⟩
        obtain ⟨G, hreturns, hG, hsafe⟩ := ih _ (hn ▸ length_zones_snd_lt pivot rest)
          (begin + (front pivot rest).length + 1) stop (pre ++ front pivot rest ++ [pivot]) (zones pivot rest).2 post
          m (by simp [hbegin]; omega) (by omega) (by omega) (by omega) rfl
        simp only [right_range] at hreturns hsafe
        refine ⟨front pivot rest ++ pivot :: G, hnext.returns hreturns, ?_, ?_⟩
        · simp only [List.length_append, List.length_cons]
          omega
        · rw [landsSafe_next hnext (mt hlands.1 (by omega)), hsafe, agreeBefore_right hfront.symm]

end GoodGoodStudy.LeetCode.QuickSort
