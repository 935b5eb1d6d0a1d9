/-
The exercise 18, four numbers with a given sum. The list is sorted; two loops fix the first two numbers, and the other
two are looked for from both ends of what is behind them. A number that was fixed before is passed over, and so are
equal ones at both ends when a sum is found.
-/
import GoodGoodStudy.LeetCode.QuickSort
import GoodGoodStudy.Lib.Selections
import GoodGoodStudy.Lib.Window

namespace GoodGoodStudy.LeetCode.FourSum

open GoodGoodStudy.Lib
open QuickSort (Exc item item_ok)

/-! ## The code -/

def leftRound (nums : List ℤ) (right left : ℤ) : Except Exc (Round ℤ ℤ) := do
  if left < right then
    if (← item nums left) = (← item nums (left + 1)) then return .again (left + 1) else return .leave left
  else return .leave left

/-- `while left < right and nums[left] == nums[left + 1]` -/
def skipLeft (nums : List ℤ) (right : ℤ) : ℕ → ℤ → ExceptT Exc Option ℤ :=
  loopM fun _ left => liftM (leftRound nums right left)

def rightRound (nums : List ℤ) (left right : ℤ) : Except Exc (Round ℤ ℤ) := do
  if left < right then
    if (← item nums right) = (← item nums (right - 1)) then return .again (right - 1) else return .leave right
  else return .leave right

/-- `while left < right and nums[right] == nums[right - 1]` -/
def skipRight (nums : List ℤ) (left : ℤ) : ℕ → ℤ → ExceptT Exc Option ℤ :=
  loopM fun _ right => liftM (rightRound nums left right)

/-- `nums[a] + nums[b] + nums[c] + nums[d]` -/
def sum4 (nums : List ℤ) (a b c d : ℤ) : Except Exc ℤ := do
  return (← item nums a) + (← item nums b) + (← item nums c) + (← item nums d)

/-- A round of the loop with `left`, `right` and `quadruplets`. -/
def round (nums : List ℤ) (target : ℤ) (i j fuel : ℕ) :
    ℤ × ℤ × List (List ℤ) → ExceptT Exc Option (Round (ℤ × ℤ × List (List ℤ)) (List (List ℤ)))
  | (left, right, quadruplets) => do
    if left < right then
      let total ← sum4 nums i j left right
      if total = target then
        let quadruplets := quadruplets ++ [[← item nums i, ← item nums j, ← item nums left, ← item nums right]]
        let left ← skipLeft nums right fuel left
        let left := left + 1
        let right ← skipRight nums left fuel right
        let right := right - 1
        return .again (left, right, quadruplets)
      else if total < target then return .again (left + 1, right, quadruplets)
      else return .again (left, right - 1, quadruplets)
    else return .leave quadruplets

/-- `k > first and nums[k] == nums[k - 1]` -/
def same (nums : List ℤ) (first k : ℕ) : Except Exc Bool := do
  if k > first then return (← item nums k) = (← item nums (k - 1)) else return false

/-- A round of the loop over `j`. -/
def inner (nums : List ℤ) (target : ℤ) (i fuel j : ℕ) (quadruplets : List (List ℤ)) :
    ExceptT Exc Option (Round (List (List ℤ)) (List (List ℤ))) := do
  let length : ℤ := nums.length
  if ← same nums (i + 1) j then return .again quadruplets
  else if (← sum4 nums i j (j + 1) (j + 2)) > target then return .leave quadruplets
  else if (← sum4 nums i j (length - 2) (length - 1)) < target then return .again quadruplets
  else return .again (← loopM (round nums target i j) fuel (j + 1, length - 1, quadruplets))

/-- A round of the loop over `i`. -/
def outer (nums : List ℤ) (target : ℤ) (fuel i : ℕ) (quadruplets : List (List ℤ)) :
    ExceptT Exc Option (Round (List (List ℤ)) (List (List ℤ))) := do
  let length : ℤ := nums.length
  if ← same nums 0 i then return .again quadruplets
  else if (← sum4 nums i (i + 1) (i + 2) (i + 3)) > target then return .leave quadruplets
  else if (← sum4 nums i (length - 3) (length - 2) (length - 1)) < target then return .again quadruplets
  else
    return .again (← forBreak (inner nums target i fuel) (List.range' (i + 1) (nums.length - 2 - (i + 1))) quadruplets)

def fourSum (nums : List ℤ) (target : ℤ) (fuel : ℕ) : ExceptT Exc Option (List (List ℤ)) :=
  if nums.length < 4 then return []
  else
    let nums := sorted nums
    forBreak (outer nums target fuel) (List.range' 0 (nums.length - 3)) []

example : (fourSum [1, 0, -1, 0, -2, 2] 0 10).run = some (.ok [[-2, -1, 1, 2], [-2, 0, 0, 2], [-1, 0, 0, 1]]) := by
  decide

variable {nums w m : List ℤ} {target left right a b c d x y : ℤ} {i j k n : ℕ}

/-! ## Items -/

theorem item_drop {l : List ℤ} (h : nums.drop n = l) (k : ℕ) (hleft : left = (n + k : ℕ)) (ha : l[k]? = some a) :
    item nums left = .ok a := by
  rw [← h, List.getElem?_drop] at ha
  obtain ⟨hlt, rfl⟩ := List.getElem?_eq_some_iff.1 ha
  exact item_ok (hleft ▸ item?_natCast hlt)

theorem sum4_eq {i j k l : ℤ} (ha : item nums i = .ok a) (hb : item nums j = .ok b) (hc : item nums k = .ok c)
    (hd : item nums l = .ok d) : sum4 nums i j k l = .ok (a + b + c + d) := by
  simp only [sum4, ha, hb, hc, hd]
  rfl

/-! ## Equal numbers at both ends -/

theorem leftRound_short (h : Window nums left right w) (hw : w.length < 2) :
    leftRound nums right left = .ok (.leave left) := by
  rw [leftRound, if_neg fun hlt => absurd (h.lt_iff.1 hlt) (not_le.2 hw)]
  rfl

theorem leftRound_cons (h : Window nums left right (x :: y :: w)) :
    leftRound nums right left = .ok (if x = y then .again (left + 1) else .leave left) := by
  rw [leftRound, if_pos (h.lt_iff.2 (Nat.le_add_left 2 w.length)), item_ok h.first, item_ok h.tail.first]
  exact (apply_ite Except.ok (x = y) _ _).symm

theorem skipLeft_window (h : Window nums left right w) :
    ∃ left', Returns (fun fuel => skipLeft nums right fuel left) (.ok left') ∧
      Window nums left' right (trimLeft w) := by
  induction w using trimLeft.induct generalizing left with
  | case1 => exact ⟨left, Returns.loopM_leave (Returns.lift (leftRound_short h Nat.two_pos)), h⟩
  | case2 x => exact ⟨left, Returns.loopM_leave (Returns.lift (leftRound_short h Nat.one_lt_two)), h⟩
  | case3 x w ih =>
    have hround := leftRound_cons h
    rw [if_pos rfl] at hround
    obtain ⟨left', hleft', hwindow⟩ := ih h.tail
    refine ⟨left', Returns.loopM_again (Returns.lift hround) hleft', ?_⟩
    rwa [trimLeft, if_pos rfl]
  | case4 x y w hne =>
    have hround := leftRound_cons h
    rw [if_neg hne] at hround
    refine ⟨left, Returns.loopM_leave (Returns.lift hround), ?_⟩
    rwa [trimLeft, if_neg hne]

theorem rightRound_short (h : Window nums left right w) (hw : w.length < 2) :
    rightRound nums left right = .ok (.leave right) := by
  rw [rightRound, if_neg fun hlt => absurd (h.lt_iff.1 hlt) (not_le.2 hw)]
  rfl

theorem rightRound_concat (h : Window nums left right (w ++ [y] ++ [x])) :
    rightRound nums left right = .ok (if x = y then .again (right - 1) else .leave right) := by
  have htwo : 2 ≤ (w ++ [y] ++ [x]).length := by simp
  rw [rightRound, if_pos (h.lt_iff.2 htwo), item_ok h.last, item_ok h.dropLast.last]
  exact (apply_ite Except.ok (x = y) _ _).symm

theorem skipRight_window (h : Window nums left right w) :
    ∃ right', Returns (fun fuel => skipRight nums left fuel right) (.ok right') ∧
      Window nums left right' (trimRight w) := by
  obtain ⟨w, rfl⟩ : ∃ u, w = u.reverse := ⟨w.reverse, w.reverse_reverse.symm⟩
  rw [trimRight, List.reverse_reverse]
  induction w using trimLeft.induct generalizing right with
  | case1 => exact ⟨right, Returns.loopM_leave (Returns.lift (rightRound_short h Nat.two_pos)), h⟩
  | case2 x => exact ⟨right, Returns.loopM_leave (Returns.lift (rightRound_short h Nat.one_lt_two)), h⟩
  | case3 x w ih =>
    rw [List.reverse_cons, List.reverse_cons] at h
    have hround := rightRound_concat h
    rw [if_pos rfl] at hround
    obtain ⟨right', hright', hwindow⟩ := ih (by rw [List.reverse_cons]; exact h.dropLast)
    refine ⟨right', Returns.loopM_again (Returns.lift hround) hright', ?_⟩
    rwa [trimLeft, if_pos rfl]
  | case4 x y w hne =>
    have hround := h
    rw [List.reverse_cons, List.reverse_cons] at hround
    have hround := rightRound_concat hround
    rw [if_neg hne] at hround
    refine ⟨right, Returns.loopM_leave (Returns.lift hround), ?_⟩
    rwa [trimLeft, if_neg hne]

theorem skip_ends (h : Window nums left right (x :: (m ++ [y]))) (hw : (x :: (m ++ [y])).Pairwise (· ≤ ·)) :
    ∃ left' right', Returns (fun fuel => skipLeft nums right fuel left) (.ok left') ∧
      Returns (fun fuel => skipRight nums (left' + 1) fuel right) (.ok right') ∧
      Window nums (left' + 1) (right' - 1) (between x y m) := by
  obtain ⟨left', hleft', hwindow⟩ := skipLeft_window h
  rw [trimLeft_ends hw] at hwindow
  split_ifs at hwindow with hxy
  · -- the ends are equal, and the loop on the left has passed all of the window
    obtain ⟨right', hright', hwindow'⟩ := skipRight_window hwindow.tail
    refine ⟨left', right', hleft', hright', ?_⟩
    have hnil : between x y m = [] := by
      refine List.eq_nil_iff_forall_not_mem.2 fun z hz => ?_
      obtain ⟨hz, hzx, -⟩ := mem_between_ends.1 hz
      have hle := ends_le hw hz
      omega
    rw [hnil]
    have hlt := hwindow'.lt_of_nil
    exact Window.nil_of_lt (by omega)
  · obtain ⟨right', hright', hwindow'⟩ := skipRight_window hwindow.tail
    refine ⟨left', right', hleft', hright', ?_⟩
    have hsorted : (m.filter (· ≠ x) ++ [y]).Pairwise (· ≤ ·) :=
      (List.pairwise_cons.1 hw).2.sublist (List.filter_sublist.append_right [y])
    rw [trimRight_concat hsorted] at hwindow'
    exact hwindow'.dropLast

/-! ## The scan -/

theorem round_short {res : List (List ℤ)} (h : Window nums left right w) (hw : w.length < 2) :
    Returns (fun fuel => round nums target i j fuel (left, right, res)) (.ok (.leave res)) := by
  simp only [round, if_neg fun hlt => absurd (h.lt_iff.1 hlt) (not_le.2 hw)]
  exact Returns.done _

theorem round_finds {res : List (List ℤ)} (ha : item nums i = .ok a) (hb : item nums j = .ok b)
    (h : Window nums left right (x :: (m ++ [y]))) (hw : (x :: (m ++ [y])).Pairwise (· ≤ ·)) :
    ∃ left' right' w' new, Returns (fun fuel => round nums target i j fuel (left, right, res))
      (.ok (.again (left', right', res ++ new.map fun l => a :: b :: l))) ∧ Window nums left' right' w' ∧
        w'.Sublist (x :: (m ++ [y])) ∧ w'.length < (x :: (m ++ [y])).length ∧
          Finds (PairIn (target - a - b)) (x :: (m ++ [y])) w' new := by
  have hlt : left < right := h.lt_iff.2 (by simp)
  have hx := item_ok h.first
  have hy := item_ok (Window.last (w := x :: m) h)
  have hsum := sum4_eq ha hb hx hy
  have hround : ∀ fuel, round nums target i j fuel (left, right, res) =
      if a + b + x + y = target then do
        let left ← skipLeft nums right fuel left
        let right ← skipRight nums (left + 1) fuel right
        return .again (left + 1, right - 1, res ++ [[a, b, x, y]])
      else if a + b + x + y < target then return .again (left + 1, right, res)
      else return .again (left, right - 1, res) := fun fuel => by
    simp only [round, if_pos hlt, hsum, ha, hb, hx, hy]
    rfl
  simp only [hround]
  split_ifs with heq hless
  · -- both ends are passed, with everything that is equal to them
    obtain ⟨left', right', hleft', hright', hwindow⟩ := skip_ends h hw
    exact ⟨left' + 1, right' - 1, between x y m, [[x, y]], hleft'.bind_ok (hright'.bind_ok (Returns.done _)), hwindow,
      between_sublist_ends x y m, length_between_lt x y m, finds_between hw (by omega)⟩
  · refine ⟨left + 1, right, m ++ [y], [], ?_, h.tail, List.sublist_cons_self x _, Nat.lt_succ_self _,
      finds_tail hw (by omega)⟩
    rw [List.map_nil, List.append_nil]
    exact Returns.done _
  · refine ⟨left, right - 1, x :: m, [], ?_, Window.dropLast (w := x :: m) h, List.sublist_append_left (x :: m) [y], ?_,
      finds_dropLast hw (by omega)⟩
    · rw [List.map_nil, List.append_nil]
      exact Returns.done _
    · rw [List.length_cons, List.length_cons, List.length_append, List.length_singleton]
      exact Nat.lt_succ_self _

/-- The scan behind two places finds what goes with them. -/
theorem scan_enumerates (target : ℤ) (res : List (List ℤ)) (ha : item nums i = .ok a) (hb : item nums j = .ok b)
    (hnums : nums.Pairwise (· ≤ ·)) (hj : j + 1 ≤ nums.length) :
    ∃ news, Returns (fun fuel => loopM (round nums target i j) fuel ((j : ℤ) + 1, (nums.length : ℤ) - 1, res))
        (.ok (res ++ news.map fun l => a :: b :: l)) ∧
      Enumerates news (Selections (nums.drop (j + 1)) 2 (target - a - b)) := by
  have hw : (nums.drop (j + 1)).Pairwise (· ≤ ·) := hnums.sublist (List.drop_sublist _ nums)
  obtain ⟨news, hnews, henum⟩ := loopM_finds (P := PairIn (target - a - b)) (fun l => a :: b :: l)
    (fun w left right res h hlt => ⟨round_short h hlt, fun l hl => absurd hl.two_le (not_le.2 hlt)⟩)
    (fun w left right res h htwo hw => by
      obtain ⟨x, m, y, rfl⟩ := Window.exists_ends htwo
      exact round_finds ha hb h hw) res (Window.drop hj) hw
  exact ⟨news, hnews, henum.congr fun l => mem_selections_two_iff hw⟩

/-! ## The two loops -/

/-- What is passed over has been seen since the first place of the loop. -/
theorem same_eq {t : ℕ} (hnums : nums.Pairwise (· ≤ ·)) (i : ℕ) (ht : t < (nums.drop i).length) :
    same nums i (i + t) = .ok (decide ((nums.drop i)[t] ∈ (nums.drop i).take t)) := by
  have hx : item nums (i + t : ℕ) = .ok (nums.drop i)[t] := item_drop rfl t rfl (List.getElem?_eq_getElem ht)
  cases t with
  | zero =>
    rw [same, if_neg (show ¬i + 0 > i from lt_irrefl i)]
    rfl
  | succ t =>
    have hy : item nums ((i + (t + 1) : ℕ) - 1) = .ok (nums.drop i)[t] :=
      item_drop rfl t (by omega) (List.getElem?_eq_getElem (Nat.lt_of_succ_lt ht))
    rw [same, if_pos (Nat.lt_add_of_pos_right (Nat.succ_pos t)), hx, hy]
    simp only [mem_take_iff (hnums.sublist (List.drop_sublist i nums)) ht]
    rfl

theorem same_zero_eq (hnums : nums.Pairwise (· ≤ ·)) (hk : k < nums.length) :
    same nums 0 k = .ok (decide (nums[k] ∈ nums.take k)) := by
  have hsame := same_eq hnums 0 hk
  rwa [Nat.zero_add] at hsame

/-- One number, and three of them one behind the other. -/
theorem sum4_three {p q r : ℤ} (ha : item nums i = .ok a) (hn : n + 3 ≤ nums.length) (hp : p = n) (hq : q = n + 1)
    (hr : r = n + 2) : sum4 nums i p q r = .ok (a + ((nums.drop n).take 3).sum) := by
  obtain ⟨b, c, d, hthree⟩ := List.length_eq_three.1
    (show ((nums.drop n).take 3).length = 3 by rw [List.length_take, List.length_drop]; omega)
  have hitem : ∀ (k : ℕ) {x : ℤ}, k < 3 → [b, c, d][k]? = some x → item nums (n + k : ℕ) = .ok x := fun k x hk hx =>
    item_drop rfl k rfl (by rwa [← hthree, List.getElem?_take_of_lt hk] at hx)
  obtain rfl : p = (n + 0 : ℕ) := hp
  obtain rfl : q = (n + 1 : ℕ) := hq
  obtain rfl : r = (n + 2 : ℕ) := hr
  rw [sum4_eq ha (hitem 0 (by decide) rfl) (hitem 1 (by decide) rfl) (hitem 2 (by decide) rfl), hthree, List.sum_cons,
    List.sum_cons, List.sum_singleton]
  congr 1
  omega

/-- Two numbers, and the last two. -/
theorem sum4_last (ha : item nums i = .ok a) (hb : item nums j = .ok b) (hn : 2 ≤ nums.length) :
    sum4 nums i j ((nums.length : ℤ) - 2) ((nums.length : ℤ) - 1) =
      .ok (a + b + (nums.drop (nums.length - 2)).sum) := by
  obtain ⟨c, d, htwo⟩ := List.length_eq_two.1
    (show (nums.drop (nums.length - 2)).length = 2 by rw [List.length_drop]; omega)
  have hc : item nums ((nums.length : ℤ) - 2) = .ok c := item_drop htwo 0 (by omega) rfl
  have hd : item nums ((nums.length : ℤ) - 1) = .ok d := item_drop htwo 1 (by omega) rfl
  rw [sum4_eq ha hb hc hd, htwo, List.sum_cons, List.sum_singleton, add_assoc (a + b)]

theorem inner_visits {t : ℕ} (target : ℤ) (res : List (List ℤ)) (hnums : nums.Pairwise (· ≤ ·))
    (ha : item nums i = .ok a) (hlen : i + 1 + t + 2 < nums.length) (ht : t < (nums.drop (i + 1)).length) :
    ∃ r, Returns (fun fuel => inner nums target i fuel (i + 1 + t) res) (.ok r) ∧
      Visits (nums.drop (i + 1)) (fun b => {l | b :: l ∈ Selections (nums.drop (i + 1)) 3 (target - a)}) (a :: ·) t ht
        res r := by
  have hys := hnums.sublist (List.drop_sublist (i + 1) nums)
  have hdrop : (nums.drop (i + 1)).drop t = nums.drop (i + 1 + t) := List.drop_drop
  have hlast : (nums.drop (i + 1)).drop ((nums.drop (i + 1)).length - 2) = nums.drop (nums.length - 2) := by
    rw [List.drop_drop, List.length_drop]
    congr 1
    omega
  have hb : item nums (i + 1 + t : ℕ) = .ok (nums.drop (i + 1))[t] :=
    item_drop rfl t rfl (List.getElem?_eq_getElem ht)
  obtain ⟨news, hnews, henum⟩ := scan_enumerates target res ha hb hnums (by omega)
  have hinner : ∀ fuel, inner nums target i fuel (i + 1 + t) res =
      if decide ((nums.drop (i + 1))[t] ∈ (nums.drop (i + 1)).take t) then return .again res
      else if a + ((nums.drop (i + 1 + t)).take 3).sum > target then return .leave res
      else if a + (nums.drop (i + 1))[t] + (nums.drop (nums.length - 2)).sum < target then return .again res
      else do
        return .again (← loopM (round nums target i (i + 1 + t)) fuel
          (((i + 1 + t : ℕ) : ℤ) + 1, (nums.length : ℤ) - 1, res)) := fun fuel => by
    simp only [inner, same_eq hnums (i + 1) ht, sum4_three ha hlen rfl rfl rfl, sum4_last ha hb (by omega)]
    rfl
  simp only [hinner, decide_eq_true_eq]
  split_ifs with hold hgt hlt
  · exact ⟨_, Returns.done _, Visits.skip (Or.inl hold)⟩
  · -- `break`: even the smallest numbers from here on are too great
    have hless : target - a < (((nums.drop (i + 1)).drop t).take 3).sum := by
      rw [hdrop]
      omega
    exact ⟨_, Returns.done _, Visits.stop fun b _ hnew l => cons_notMem_selections_of_lt hys hnew hless⟩
  · -- `continue`: even the greatest numbers are too small for this one
    refine ⟨_, Returns.done _, Visits.skip (Or.inr fun l => cons_notMem_selections_of_gt hys ?_)⟩
    rw [hlast]
    omega
  · refine ⟨_, hnews.bind_ok (Returns.done _), Visits.next hold (henum.congr fun l => ?_)⟩
    have hiff := cons_mem_selections_iff (l := l) (n := 2) (T := target - a) ht hold
    rwa [List.drop_drop] at hiff

theorem outer_visits (target : ℤ) (res : List (List ℤ)) (hnums : nums.Pairwise (· ≤ ·)) (hlen : i + 3 < nums.length)
    (hi : i < nums.length) :
    ∃ r, Returns (fun fuel => outer nums target fuel i res) (.ok r) ∧
      Visits nums (fun a => {l | a :: l ∈ Selections nums 4 target}) id i hi res r := by
  have ha : item nums i = .ok nums[i] := item_ok (item?_natCast hi)
  obtain ⟨news, hnews, henum⟩ := forBreak_firsts (nums.drop (i + 1)) (i + 1) (nums.length - 2 - (i + 1))
    (nums[i] :: ·) (by rw [List.length_drop]; omega) (fun t ht res => inner_visits target res hnums ha (by omega) _) res
  have houter : ∀ fuel, outer nums target fuel i res =
      if decide (nums[i] ∈ nums.take i) then return .again res
      else if nums[i] + ((nums.drop (i + 1)).take 3).sum > target then return .leave res
      else if nums[i] + ((nums.drop (nums.length - 3)).take 3).sum < target then return .again res
      else do
        return .again (← forBreak (inner nums target i fuel) (List.range' (i + 1) (nums.length - 2 - (i + 1))) res) :=
      fun fuel => by
    have hfirst := sum4_three (p := (i : ℤ) + 1) (q := (i : ℤ) + 2) (r := (i : ℤ) + 3) (n := i + 1) ha (by omega)
      (by omega) (by omega) (by omega)
    have hlast := sum4_three (p := (nums.length : ℤ) - 3) (q := (nums.length : ℤ) - 2) (r := (nums.length : ℤ) - 1)
      (n := nums.length - 3) ha (by omega) (by omega) (by omega) (by omega)
    simp only [outer, same_zero_eq hnums hi, hfirst, hlast]
    rfl
  simp only [houter, decide_eq_true_eq]
  split_ifs with hold hgt hlt
  · exact ⟨_, Returns.done _, Visits.skip (Or.inl hold)⟩
  · -- `break`, and then `continue`, for the same reasons as in the inner loop
    have hless : target < ((nums.drop i).take 4).sum := by
      rwa [List.drop_eq_getElem_cons hi, List.take_succ_cons, List.sum_cons]
    exact ⟨_, Returns.done _, Visits.stop fun b _ hnew l => cons_notMem_selections_of_lt hnums hnew hless⟩
  · refine ⟨_, Returns.done _, Visits.skip (Or.inr fun l => cons_notMem_selections_of_gt hnums ?_)⟩
    rwa [List.take_of_length_le (by rw [List.length_drop]; omega)] at hlt
  · refine ⟨_, hnews.bind_ok (Returns.done _), Visits.next hold (henum.congr fun l => ?_)⟩
    rw [← selections_eq_firsts (by rw [List.length_drop]; omega)]
    exact cons_mem_selections_iff hi hold

/-- Every selection of four numbers with the sum `target` is in the result once, and nothing else. -/
theorem fourSum_returns (nums : List ℤ) (target : ℤ) :
    ∃ res, Returns (fourSum nums target) (.ok res) ∧ Selects nums 4 target res := by
  have hperm := sorted_perm nums
  have hsorted := sorted_pairwise nums
  rcases Nat.lt_or_ge nums.length 4 with hlt | hge
  · refine ⟨[], ?_, ?_⟩
    · have hres : fourSum nums target = fun _ => pure [] := funext fun _ => if_pos hlt
      rw [hres]
      exact Returns.done _
    · exact selects_of_short hlt
  · obtain ⟨news, hnews, henum⟩ := forBreak_firsts (sorted nums) 0 ((sorted nums).length - 3) id (Nat.sub_le _ _)
      (fun i hi res => by
        rw [Nat.zero_add]
        exact outer_visits target res hsorted (by omega) _) []
    refine ⟨news, ?_, ?_⟩
    · have hres : fourSum nums target = fun fuel => forBreak (outer (sorted nums) target fuel)
          (List.range' 0 ((sorted nums).length - 3)) [] := funext fun _ => if_neg (not_lt.2 hge)
      rw [hres]
      rwa [List.map_id] at hnews
    · rw [← selections_eq_firsts (by rw [length_sorted]; omega)] at henum
      exact (selects_iff hperm hsorted henum subset_rfl).2 subset_rfl

end GoodGoodStudy.LeetCode.FourSum
