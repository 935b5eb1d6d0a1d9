/-
冒泡排序, the first sort of sort.py: `li[i]` is compared with every element behind it and changes places with each that
is smaller. Its comment calls it stable. An element that changes places with one that is not next to it jumps over the
elements between them, also over those with its own key.
-/
import GoodGoodStudy.LeetCode.QuickSort
import GoodGoodStudy.Lib.Stable
import GoodGoodStudy.Lib.Turns

namespace GoodGoodStudy.LeetCode.BubbleSort

open GoodGoodStudy.Lib
open GoodGoodStudy.LeetCode.QuickSort (Exc item swap item_append item_behind swap_append)

variable {α κ : Type} [LinearOrder κ]

/-- The body of the loops. -/
def exchange (key : α → κ) (i : ℕ) (li : List α) (j : ℕ) : Except Exc (List α) := do
  if key (← item li i) > key (← item li j) then swap li i j else return li

def bubble_sort (key : α → κ) (li : List α) : Except Exc (List α) :=
  (List.range' 0 (li.length - 1)).foldlM
    (fun li i => (List.range' (i + 1) (li.length - (i + 1))).foldlM (exchange key i) li) li

variable {key : α → κ} {x : α} {l : List α}

/-! ## The exchanges -/

/-- What the inner loop makes of `li[i]` and the elements behind it. -/
def pass (key : α → κ) (x : α) : List α → α × List α
  | [] => (x, [])
  | y :: l =>
    if key x > key y then ((pass key y l).1, x :: (pass key y l).2) else ((pass key x l).1, y :: (pass key x l).2)

theorem length_pass (key : α → κ) (x : α) (l : List α) : (pass key x l).2.length = l.length := by
  induction l generalizing x with
  | nil => rfl
  | cons y l ih =>
    rw [pass]
    split_ifs
    · exact congrArg Nat.succ (ih y)
    · exact congrArg Nat.succ (ih x)

theorem pass_perm (key : α → κ) (x : α) (l : List α) : ((pass key x l).1 :: (pass key x l).2).Perm (x :: l) := by
  induction l generalizing x with
  | nil => exact List.Perm.refl _
  | cons y l ih =>
    rw [pass]
    split_ifs
    · exact (List.Perm.swap _ _ _).trans ((ih y).cons x)
    · exact ((List.Perm.swap _ _ _).trans ((ih x).cons y)).trans (List.Perm.swap _ _ _)

theorem pass_le (key : α → κ) (x : α) (l : List α) : ∀ a ∈ x :: l, key (pass key x l).1 ≤ key a := by
  induction l generalizing x with
  | nil =>
    intro a ha
    rw [List.mem_singleton.1 ha]
    exact le_rfl
  | cons y l ih =>
    intro a ha
    rw [pass]
    split_ifs with hxy
    · rcases List.mem_cons.1 ha with rfl | ha
      · exact (ih y y List.mem_cons_self).trans hxy.le
      · exact ih y a ha
    · rcases List.mem_cons.1 ha with rfl | ha
      · exact ih a a List.mem_cons_self
      · rcases List.mem_cons.1 ha with rfl | ha
        · exact (ih x x List.mem_cons_self).trans (not_lt.1 hxy)
        · exact ih x a (List.mem_cons_of_mem x ha)

def exchanged (key : α → κ) : List α → List α
  | [] => []
  | x :: l => (pass key x l).1 :: exchanged key (pass key x l).2
termination_by l => l.length
decreasing_by
  rw [length_pass]
  exact Nat.lt_succ_self _

theorem inner_eq (key : α → κ) (pre mid l : List α) (x : α) :
    (List.range' (pre.length + 1 + mid.length) l.length).foldlM (exchange key pre.length) (pre ++ x :: (mid ++ l)) =
      .ok (pre ++ (pass key x l).1 :: (mid ++ (pass key x l).2)) := by
  induction l generalizing mid x with
  | nil => rfl
  | cons y l ih =>
    have hx : item (pre ++ x :: (mid ++ y :: l)) pre.length = .ok x := item_append rfl x _
    have hy : item (pre ++ x :: (mid ++ y :: l)) (pre.length + 1 + mid.length : ℕ) = .ok y :=
      item_behind (by omega) x y l
    have hnext : ∀ z w : α, pre ++ z :: (mid ++ w :: l) = pre ++ z :: ((mid ++ [w]) ++ l) := by simp
    have hrest : ∀ z w : α, (List.range' (pre.length + 1 + mid.length + 1) l.length).foldlM (exchange key pre.length)
        (pre ++ z :: (mid ++ w :: l)) = .ok (pre ++ (pass key z l).1 :: (mid ++ w :: (pass key z l).2)) := fun z w => by
      have hih := ih (mid ++ [w]) z
      rw [List.length_append, List.length_singleton, ← Nat.add_assoc] at hih
      rw [hnext, hih]
      simp
    rw [List.length_cons, List.range'_succ, List.foldlM_cons, exchange, pass]
    simp only [hx, hy, bind, Except.bind]
    split_ifs
    · rw [swap_append rfl (by omega)]
      exact hrest y x
    · exact hrest x y

theorem outer_eq (key : α → κ) (pre l : List α) :
    (List.range' pre.length (l.length - 1)).foldlM
        (fun li i => (List.range' (i + 1) (li.length - (i + 1))).foldlM (exchange key i) li) (pre ++ l) =
      .ok (pre ++ exchanged key l) := by
  fun_induction exchanged key l generalizing pre with
  | case1 => rfl
  | case2 x l ih =>
    have hround : (List.range' (pre.length + 1) ((pre ++ x :: l).length - (pre.length + 1))).foldlM
        (exchange key pre.length) (pre ++ x :: l) = .ok ((pre ++ [(pass key x l).1]) ++ (pass key x l).2) := by
      have hcount : (pre ++ x :: l).length - (pre.length + 1) = l.length := by
        rw [List.length_append, List.length_cons]
        omega
      rw [hcount, List.append_assoc]
      exact inner_eq key pre [] l x
    have hih := ih (pre ++ [(pass key x l).1])
    rw [length_pass, List.length_append, List.length_singleton, List.append_assoc pre _ (exchanged key _)] at hih
    cases l with
    | nil =>
      have hnil : exchanged key (pass key x []).2 = [] := by rw [pass, exchanged]
      rw [hnil]
      rfl
    | cons y l =>
      rw [List.length_cons, Nat.add_sub_cancel, List.length_cons, List.range'_succ, List.foldlM_cons, hround]
      exact hih

theorem bubble_sort_eq (key : α → κ) (li : List α) : bubble_sort key li = .ok (exchanged key li) :=
  outer_eq key [] li

theorem exchanged_perm (key : α → κ) (l : List α) : (exchanged key l).Perm l := by
  fun_induction exchanged key l with
  | case1 => exact List.Perm.refl _
  | case2 x l ih => exact (ih.cons _).trans (pass_perm key x l)

theorem exchanged_pairwise (key : α → κ) (l : List α) : (exchanged key l).Pairwise fun a b => key a ≤ key b := by
  fun_induction exchanged key l with
  | case1 => exact List.Pairwise.nil
  | case2 x l ih =>
    refine List.Pairwise.cons (fun b hb => pass_le key x l b ?_) ih
    have hmem : b ∈ (pass key x l).2 := (exchanged_perm key _).mem_iff.1 hb
    exact (pass_perm key x l).mem_iff.1 (List.mem_cons_of_mem _ hmem)

theorem pass_map {β : Type} (f : β → α) (x : β) (l : List β) : pass key (f x) (l.map f) =
    (f (pass (fun b => key (f b)) x l).1, (pass (fun b => key (f b)) x l).2.map f) := by
  induction l generalizing x with
  | nil => rfl
  | cons y l ih =>
    rw [List.map_cons, pass, pass, ih, ih]
    split_ifs <;> rfl

theorem exchanged_map {β : Type} (f : β → α) (l : List β) :
    exchanged key (l.map f) = (exchanged (fun b => key (f b)) l).map f := by
  fun_induction exchanged (fun b => key (f b)) l with
  | case1 => simp [exchanged]
  | case2 x l ih =>
    rw [List.map_cons, exchanged, pass_map, ih]
    rfl

/-! ## The order of elements with the same key -/

/-- The elements with the key `c` come to a queue, and those with a smaller key turn it. -/
def arrivals (key : α → κ) (c : κ) (l : List α) : List (Option α) :=
  l.filterMap fun a => if key a = c then some (some a) else if key a < c then some none else none

variable {c : κ}

theorem arrivals_cons_eq (h : key x = c) (l : List α) : arrivals key c (x :: l) = some x :: arrivals key c l := by
  rw [arrivals, List.filterMap_cons, if_pos h]
  rfl

theorem arrivals_cons_lt (h : key x < c) (l : List α) : arrivals key c (x :: l) = none :: arrivals key c l := by
  rw [arrivals, List.filterMap_cons, if_neg h.ne, if_pos h]
  rfl

theorem arrivals_cons_gt (h : c < key x) (l : List α) : arrivals key c (x :: l) = arrivals key c l := by
  rw [arrivals, List.filterMap_cons, if_neg h.ne', if_neg h.not_gt]
  rfl

theorem arrivals_congr {l l' : List α} (h : arrivals key c l = arrivals key c l') (x : α) :
    arrivals key c (x :: l) = arrivals key c (x :: l') := by
  rw [arrivals, List.filterMap_cons, arrivals, List.filterMap_cons]
  rw [arrivals, arrivals] at h
  rw [h]

theorem reduceOption_arrivals (key : α → κ) (c : κ) (l : List α) :
    (arrivals key c l).reduceOption = keyed key c l := by
  induction l with
  | nil => rfl
  | cons x l ih =>
    rw [keyed_cons, ← ih]
    rcases lt_trichotomy (key x) c with h | h | h
    · rw [arrivals_cons_lt h, List.reduceOption_cons_of_none, if_neg h.ne]
    · rw [arrivals_cons_eq h, List.reduceOption_cons_of_some, if_pos h]
    · rw [arrivals_cons_gt h, if_neg h.ne']

theorem none_mem_arrivals : none ∈ arrivals key c l ↔ ∃ a ∈ l, key a < c := by
  induction l with
  | nil => simp [arrivals]
  | cons x l ih =>
    rcases lt_trichotomy (key x) c with h | h | h
    · simp [arrivals_cons_lt h, h]
    · simp [arrivals_cons_eq h, ih, h]
    · simp [arrivals_cons_gt h, ih, h.not_gt]

/-- Without its first turn, the queue is the one of the elements that the inner loop leaves behind `li[i]`. -/
theorem arrivals_pass (key : α → κ) (c : κ) (x : α) (l : List α) :
    arrivals key c (pass key x l).2 = spare (arrivals key c (x :: l)) := by
  induction l generalizing x with
  | nil =>
    rcases lt_trichotomy (key x) c with h | h | h
    · rw [arrivals_cons_lt h]
      rfl
    · rw [arrivals_cons_eq h]
      rfl
    · rw [arrivals_cons_gt h]
      rfl
  | cons y l ih =>
    rw [pass]
    split_ifs with hxy
    · -- `x` takes the place of `y`
      rcases lt_or_ge (key y) c with hy | hy
      · have hspare : arrivals key c (pass key y l).2 = arrivals key c l := by
          rw [ih, arrivals_cons_lt hy]
          rfl
        rcases lt_trichotomy (key x) c with hx | hx | hx
        · rw [arrivals_cons_lt hx, arrivals_cons_lt hx, hspare, arrivals_cons_lt hy]
          rfl
        · rw [arrivals_cons_eq hx, arrivals_cons_eq hx, hspare, arrivals_cons_lt hy]
          rfl
        · rw [arrivals_cons_gt hx, arrivals_cons_gt hx, ih y]
      · have hx : c < key x := hy.trans_lt hxy
        rw [arrivals_cons_gt hx, arrivals_cons_gt hx, ih y]
    · -- `y` stays where it is
      rcases lt_trichotomy (key x) c with hx | hx | hx
      · have hspare : arrivals key c (pass key x l).2 = arrivals key c l := by
          rw [ih, arrivals_cons_lt hx]
          rfl
        rw [arrivals_cons_lt hx]
        exact arrivals_congr hspare y
      · have hspare : arrivals key c (pass key x l).2 = put x (arrivals key c l) := by
          rw [ih, arrivals_cons_eq hx]
          rfl
        rw [arrivals_cons_eq hx]
        rcases (not_lt.1 hxy).eq_or_lt with hy | hy
        · rw [arrivals_cons_eq (hy.symm.trans hx), arrivals_cons_eq (hy.symm.trans hx), hspare]
          rfl
        · rw [arrivals_cons_gt (hx ▸ hy), arrivals_cons_gt (hx ▸ hy), hspare]
          rfl
      · have hy : c < key y := hx.trans_le (not_lt.1 hxy)
        rw [arrivals_cons_gt hy, ih x, arrivals_cons_gt hx, arrivals_cons_gt hx, arrivals_cons_gt hy]

/-- If no smaller key than `c` is left, the element that comes to the front is the first one with the key `c`, if it has
this key. -/
theorem keyed_first {came : List α} (hcame : arrivals key c (x :: l) = came.map some) :
    keyed key c [(pass key x l).1] = came.take 1 := by
  have hperm : (keyed key c [(pass key x l).1] ++ keyed key c (pass key x l).2).Perm came := by
    rw [← keyed_append, ← reduceOption_map_some came, ← hcame, reduceOption_arrivals]
    exact (pass_perm key x l).filter _
  have hrest : keyed key c (pass key x l).2 = came.drop 1 := by
    rw [← reduceOption_arrivals, arrivals_pass, hcame, spare_map_some, reduceOption_map_some]
  rw [hrest] at hperm
  cases came with
  | nil => exact (List.append_eq_nil_iff.1 hperm.eq_nil).1
  | cons a came => exact List.perm_singleton.1 ((List.perm_append_right_iff came).1 hperm)

/-- The elements with the key `c` in the sorted list. -/
theorem keyed_exchanged (key : α → κ) (c : κ) (l : List α) :
    keyed key c (exchanged key l) = turned (arrivals key c l) := by
  fun_induction exchanged key l with
  | case1 => rfl
  | case2 x l ih =>
    have hcons : keyed key c ((pass key x l).1 :: exchanged key (pass key x l).2) =
        keyed key c [(pass key x l).1] ++ turned (spare (arrivals key c (x :: l))) := by
      rw [← arrivals_pass, ← ih, ← keyed_append]
      rfl
    rw [hcons]
    rcases exists_eq_map_some (arrivals key c (x :: l)) with ⟨came, hcame⟩ | ⟨came, rest, hrest, -⟩
    · rw [keyed_first hcame, hcame, spare_map_some, turned_map_some, turned_map_some, List.take_append_drop]
    · -- a smaller key comes to the front
      have hnone : none ∈ arrivals key c (x :: l) := by rw [hrest]; simp
      obtain ⟨a, ha, hac⟩ := none_mem_arrivals.1 hnone
      rw [keyed_cons, if_neg ((pass_le key x l a ha).trans_lt hac).ne, turned_spare hnone]
      rfl

/-! ## Stability -/

/-- How many elements with a smaller key than `c` have `k` elements with the key `c` before them. -/
def smallerAfter (key : α → κ) (c : κ) (k : ℕ) (li : List α) : ℕ :=
  li.zipIdx.countP fun a => key a.1 < c ∧ (keyed key c (li.take a.2)).length = k

theorem smallerAfter_concat (key : α → κ) (c : κ) (k : ℕ) (l : List α) (x : α) : smallerAfter key c k (l ++ [x]) =
    smallerAfter key c k l + if key x < c ∧ (keyed key c l).length = k then 1 else 0 := by
  have hold : l.zipIdx.countP (fun a => key a.1 < c ∧ (keyed key c ((l ++ [x]).take a.2)).length = k) =
      smallerAfter key c k l := by
    apply List.countP_congr
    rintro ⟨a, i⟩ hmem
    have hi : i < l.length := List.snd_lt_of_mem_zipIdx hmem
    simp only [List.take_append_of_le_length hi.le]
  rw [smallerAfter, List.zipIdx_append, List.countP_append, hold]
  simp [List.countP_cons]

/-- The key may be one of the elements that are marked. -/
theorem turnsAt_arrivals {β : Type} {f : β → α} {mark : β → κ} (h : ∀ b, mark b = key (f b)) (k : ℕ) (l : List β) :
    turnsAt k (arrivals mark c l) = smallerAfter key c k (l.map f) := by
  induction l using List.reverseRecOn with
  | nil => rfl
  | append_singleton l x ih =>
    have hkeyed : keyed key c (l.map f) = (keyed mark c l).map f := by
      obtain rfl : mark = fun b => key (f b) := funext h
      exact List.filter_map
    have hlen : (arrivals mark c l).reduceOption.length = (keyed key c (l.map f)).length := by
      rw [reduceOption_arrivals, hkeyed, List.length_map]
    have hconcat : arrivals mark c (l ++ [x]) = arrivals mark c l ++ arrivals mark c [x] := List.filterMap_append
    rw [List.map_append, List.map_singleton, smallerAfter_concat, ← ih, ← hlen, hconcat, ← h]
    rcases lt_trichotomy (mark x) c with hx | hx | hx
    · rw [arrivals_cons_lt hx]
      simp [arrivals, turnsAt_concat, hx]
    · rw [arrivals_cons_eq hx]
      simp [arrivals, turnsAt_concat, hx]
    · rw [arrivals_cons_gt hx]
      simp [arrivals, hx.not_gt]

/-- On the elements with their places in the list: the sort is stable exactly if, for every key and every `k`, the number
of elements with a smaller key that stand behind `k` elements with the key is a multiple of `k`. -/
theorem bubble_sort_stable_iff (key : α → κ) (li : List α) :
    ∃ res, bubble_sort (fun a : α × ℕ => key a.1) li.zipIdx = .ok res ∧
      bubble_sort key li = .ok (res.map Prod.fst) ∧
      (StableSort (fun a : α × ℕ => key a.1) li.zipIdx res ↔ ∀ c k, 1 ≤ k → k ∣ smallerAfter key c k li) := by
  have hfst : li.zipIdx.map Prod.fst = li := by simp
  have hnodup : li.zipIdx.Nodup := by
    apply List.Nodup.of_map Prod.snd
    rw [List.zipIdx_map_snd]
    exact List.nodup_range' _
  refine ⟨_, bubble_sort_eq _ _, ?_, ?_⟩
  · rw [bubble_sort_eq, ← exchanged_map, hfst]
  · have hkeyed : ∀ c, keyed (fun a : α × ℕ => key a.1) c (exchanged (fun a => key a.1) li.zipIdx) =
        keyed (fun a => key a.1) c li.zipIdx ↔ ∀ k, 1 ≤ k → k ∣ smallerAfter key c k li := fun c => by
      have hmem : (arrivals (fun a : α × ℕ => key a.1) c li.zipIdx).reduceOption.Nodup := by
        rw [reduceOption_arrivals]
        exact hnodup.filter _
      rw [keyed_exchanged, ← reduceOption_arrivals, turned_eq_iff hmem]
      simp only [turnsAt_arrivals (fun a : α × ℕ => (rfl : key a.1 = key a.1)), hfst]
    constructor
    · exact fun h c => (hkeyed c).1 (h.keyed c)
    · exact fun h => ⟨exchanged_perm _ _, exchanged_pairwise _ _, fun c => (hkeyed c).2 (h c)⟩

/-- The first of two elements with the same key changes places with a smaller one behind both. -/
theorem bubble_sort_unstable : bubble_sort Prod.fst [(2, 'a'), (2, 'b'), (1, 'c')] =
      .ok [(1, 'c'), (2, 'b'), (2, 'a')] ∧
    ¬ StableSort Prod.fst [(2, 'a'), (2, 'b'), (1, 'c')] [(1, 'c'), (2, 'b'), (2, 'a')] := by
  refine ⟨rfl, fun h => ?_⟩
  have hkeyed := h.keyed 2
  revert hkeyed
  decide

end GoodGoodStudy.LeetCode.BubbleSort
