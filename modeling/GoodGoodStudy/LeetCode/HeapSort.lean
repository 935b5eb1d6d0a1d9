/-
堆排序: a heap is built from the last node that has one below it to the first one, and then its greatest element goes to
its end again and again, and the heap is shorter by one.
-/
import Mathlib.Order.RelClasses
import GoodGoodStudy.Lib.HeapRange
import GoodGoodStudy.Lib.Sorting

namespace GoodGoodStudy.LeetCode.HeapSort

open GoodGoodStudy.Lib

variable {α : Type} [LinearOrder α] {n : ℕ}

theorem lt_of_lt_length {length : Fin (n + 1)} {k : ℕ} (h : k < length) : k < n :=
  h.trans_le (Nat.le_of_lt_succ length.isLt)

/-- What an `if` of `maxHeapfy` makes of `largest`. -/
def larger (alist : Vector α n) (length : Fin (n + 1)) (largest : Fin n) (child : ℕ) : Fin n :=
  if h : child < length then
    if alist.get ⟨child, lt_of_lt_length h⟩ > alist.get largest then ⟨child, lt_of_lt_length h⟩ else largest
  else largest

theorem larger_eq_or (alist : Vector α n) (length : Fin (n + 1)) (largest : Fin n) (child : ℕ) :
    larger alist length largest child = largest ∨
      (larger alist length largest child : ℕ) = child ∧ child < length := by
  unfold larger
  split_ifs with h hgt
  · exact Or.inr ⟨rfl, h⟩
  · exact Or.inl rfl
  · exact Or.inl rfl

/-- The greatest of the element at `parent` and those below it. -/
def largest (alist : Vector α n) (length : Fin (n + 1)) (parent : Fin n) : Fin n :=
  let left := 2 * (parent : ℕ) + 1
  let right := 2 * (parent : ℕ) + 2
  larger alist length (larger alist length parent left) right

theorem largest_eq_or (alist : Vector α n) (length : Fin (n + 1)) (parent : Fin n) :
    largest alist length parent = parent ∨
      0 < (largest alist length parent : ℕ) ∧ (largest alist length parent : ℕ) < length ∧
        ((largest alist length parent : ℕ) - 1) / 2 = parent := by
  simp only [largest]
  rcases larger_eq_or alist length (larger alist length parent (2 * parent + 1)) (2 * parent + 2) with heq | ⟨heq, hlt⟩
  · rw [heq]
    rcases larger_eq_or alist length parent (2 * parent + 1) with heq | ⟨heq, hlt⟩
    · exact Or.inl heq
    · exact Or.inr (by omega)
  · exact Or.inr (by omega)

def maxHeapfy (alist : Vector α n) (length : Fin (n + 1)) (parent : Fin n) : Vector α n :=
  if largest alist length parent ≠ parent then
    maxHeapfy (alist.swap (largest alist length parent) parent (largest alist length parent).isLt parent.isLt) length
      (largest alist length parent)
  else alist
termination_by (length : ℕ) - parent
decreasing_by
  have hor := largest_eq_or alist length parent
  omega

/-- The list after `t` rounds, where the index of a round is `lastParent - t`. -/
def built (alist : Vector α n) : (t : ℕ) → t ≤ (n + 1) / 2 → Vector α n
  | 0, _ => alist
  | t + 1, h => maxHeapfy (built alist t (by omega)) (Fin.last n) ⟨(n - 1) / 2 - t, by omega⟩

/-- The number of rounds is `lastParent + 1`. -/
def buildMaxHeap (alist : Vector α n) : Vector α n := built alist ((n + 1) / 2) le_rfl

/-- The body of the loop in `heapSort`. -/
def extract (alist : Vector α n) (i : Fin n) : Vector α n :=
  maxHeapfy (alist.swap 0 i (Nat.zero_lt_of_lt i.isLt) i.isLt) i.castSucc ⟨0, Nat.zero_lt_of_lt i.isLt⟩

theorem index_lt {m : ℕ} (h : m + 1 ≤ n) : n - 1 - m < n := by omega

/-- The list after `m` rounds, where the index of a round is `n - 1 - m`. -/
def extracted (alist : Vector α n) : (m : ℕ) → m ≤ n → Vector α n
  | 0, _ => buildMaxHeap alist
  | m + 1, h => extract (extracted alist m (Nat.le_of_succ_le h)) ⟨n - 1 - m, index_lt h⟩

def heapSort (alist : Vector α n) : Vector α n := extracted alist n le_rfl

/-! ## One node -/

variable {alist : Vector α n} {length : Fin (n + 1)} {parent : Fin n} {lo : ℕ}

theorem larger_ge (alist : Vector α n) (length : Fin (n + 1)) (largest : Fin n) (child : ℕ) :
    alist.get largest ≤ alist.get (larger alist length largest child) ∧
      ∀ h : child < length, alist.get ⟨child, lt_of_lt_length h⟩ ≤ alist.get (larger alist length largest child) := by
  unfold larger
  split_ifs with h hgt
  · exact ⟨hgt.le, fun _ => le_rfl⟩
  · exact ⟨le_rfl, fun _ => not_lt.1 hgt⟩
  · exact ⟨le_rfl, fun h' => absurd h' h⟩

theorem largest_ge (alist : Vector α n) (length : Fin (n + 1)) (parent : Fin n) :
    alist.get parent ≤ alist.get (largest alist length parent) ∧
      ∀ k : ℕ, 0 < k → k < length → (k - 1) / 2 = parent → ∀ hk : k < n,
        alist.get ⟨k, hk⟩ ≤ alist.get (largest alist length parent) := by
  simp only [largest]
  have hleft := larger_ge alist length parent (2 * parent + 1)
  have hright := larger_ge alist length (larger alist length parent (2 * parent + 1)) (2 * parent + 2)
  refine ⟨hleft.1.trans hright.1, fun k hpos hk hparent hkn => ?_⟩
  obtain rfl | rfl : k = 2 * parent + 1 ∨ k = 2 * parent + 2 := by omega
  · exact (hleft.2 hk).trans hright.1
  · exact hright.2 hk

/-- The place where the order is broken goes down until there is none. -/
theorem maxHeapfy_heapFrom (h : HeapHole (· ≥ ·) alist length lo parent) :
    HeapFrom (· ≥ ·) (maxHeapfy alist length parent) length lo := by
  fun_induction maxHeapfy alist length parent with
  | case1 alist parent hne ih =>
    obtain ⟨hpos, hlt, hparent⟩ := (largest_eq_or alist length parent).resolve_left hne
    obtain ⟨hge, hchild⟩ := largest_ge alist length parent
    exact ih (h.swap parent.isLt (largest alist length parent).isLt hpos hlt hparent hge hchild)
  | case2 alist parent heq =>
    have hchild := (largest_ge alist length parent).2
    rw [not_not.1 heq] at hchild
    apply h.heapFrom
    intro k hpos hk hparent hkn
    simp only [hparent]
    exact hchild k hpos hk hparent hkn

theorem maxHeapfy_perm (alist : Vector α n) (length : Fin (n + 1)) (parent : Fin n) :
    (maxHeapfy alist length parent).toList.Perm alist.toList := by
  fun_induction maxHeapfy alist length parent with
  | case1 alist parent hne ih => exact ih.trans (Vector.swap_perm _ _).toList
  | case2 alist parent heq => exact List.Perm.refl _

omit [LinearOrder α] in
theorem get_swap (alist : Vector α n) (i j k : Fin n) : (alist.swap i j i.isLt j.isLt).get k =
    if k = i then alist.get j else if k = j then alist.get i else alist.get k := by
  have hget : (alist.swap i j i.isLt j.isLt)[(k : ℕ)] = _ := Vector.getElem_swap i.isLt j.isLt k.isLt
  simp only [← Fin.ext_iff] at hget
  exact hget

/-- Only the first `length` places change, and what holds of their elements still does. -/
theorem maxHeapfy_frame (alist : Vector α n) (length : Fin (n + 1)) (parent : Fin n) :
    (∀ k : Fin n, length ≤ (k : ℕ) → (maxHeapfy alist length parent).get k = alist.get k) ∧
      ∀ P : α → Prop, (∀ k : Fin n, (k : ℕ) < length → P (alist.get k)) →
        ∀ k : Fin n, (k : ℕ) < length → P ((maxHeapfy alist length parent).get k) := by
  fun_induction maxHeapfy alist length parent with
  | case1 alist parent hne ih =>
    obtain ⟨-, hlt, hparent⟩ := (largest_eq_or alist length parent).resolve_left hne
    refine ⟨fun k hk => ?_, fun P hP => ih.2 P fun k hk => ?_⟩
    · rw [ih.1 k hk, get_swap, if_neg (by omega), if_neg (by omega)]
    · rw [get_swap]
      split_ifs
      · exact hP parent (by omega)
      · exact hP _ hlt
      · exact hP k hk
  | case2 alist parent heq => exact ⟨fun k _ => rfl, fun P hP => hP⟩

/-! ## Building the heap -/

theorem built_perm (alist : Vector α n) (t : ℕ) (ht : t ≤ (n + 1) / 2) :
    (built alist t ht).toList.Perm alist.toList := by
  induction t with
  | zero => exact List.Perm.refl _
  | succ t ih => exact (maxHeapfy_perm _ _ _).trans (ih (by omega))

/-- After `t` rounds the order is right below the last `t` of the nodes that have one below them. -/
theorem built_heapFrom (alist : Vector α n) (t : ℕ) (ht : t ≤ (n + 1) / 2) :
    HeapFrom (· ≥ ·) (built alist t ht) n ((n + 1) / 2 - t) := by
  induction t with
  | zero =>
    intro k hpos hk hlo
    omega
  | succ t ih =>
    have hfrom := ih (by omega)
    have hlo : (n + 1) / 2 - t = (n - 1) / 2 - t + 1 := by omega
    have hlo' : (n + 1) / 2 - (t + 1) = (n - 1) / 2 - t := by omega
    rw [hlo] at hfrom
    rw [hlo', built]
    exact maxHeapfy_heapFrom hfrom.hole

/-! ## Extraction -/

/-- The first `m` elements are a heap, the others are sorted, and not smaller than those of the heap. -/
structure Extracted (alist : Vector α n) (m : ℕ) : Prop where
  heap : HeapFrom (· ≥ ·) alist m 0
  sorted : ∀ i j : Fin n, m ≤ (i : ℕ) → i ≤ j → alist.get i ≤ alist.get j
  above : ∀ i j : Fin n, (i : ℕ) < m → m ≤ (j : ℕ) → alist.get i ≤ alist.get j

section Extract

variable {i : Fin n}

theorem zero_lt (i : Fin n) : 0 < n := Nat.zero_lt_of_lt i.isLt

omit [LinearOrder α] in
theorem get_swap_zero (alist : Vector α n) (i k : Fin n) : (alist.swap 0 i (zero_lt i) i.isLt).get k =
    if k = ⟨0, zero_lt i⟩ then alist.get i else if k = i then alist.get ⟨0, zero_lt i⟩ else alist.get k :=
  get_swap alist ⟨0, zero_lt i⟩ i k

/-- The first element comes to `i`. -/
theorem extract_get_self (alist : Vector α n) (i : Fin n) : (extract alist i).get i = alist.get ⟨0, zero_lt i⟩ := by
  have hsame := (maxHeapfy_frame (alist.swap 0 i (zero_lt i) i.isLt) i.castSucc ⟨0, zero_lt i⟩).1
  rw [extract, hsame i le_rfl, get_swap_zero]
  split_ifs with hi hi'
  · rw [hi]
  · rfl
  · exact absurd rfl hi'

theorem extract_get_behind {k : Fin n} (hk : i < k) : (extract alist i).get k = alist.get k := by
  have hsame := (maxHeapfy_frame (alist.swap 0 i (zero_lt i) i.isLt) i.castSucc ⟨0, zero_lt i⟩).1
  rw [extract, hsame k hk.le, get_swap_zero, if_neg ?_, if_neg hk.ne']
  rintro rfl
  exact Nat.not_lt_zero _ hk

/-- What holds of the elements up to `i` holds of those before it afterwards. -/
theorem extract_get_before (P : α → Prop) (hP : ∀ k : Fin n, (k : ℕ) < i + 1 → P (alist.get k)) :
    ∀ k : Fin n, (k : ℕ) < i → P ((extract alist i).get k) := by
  apply (maxHeapfy_frame (alist.swap 0 i (zero_lt i) i.isLt) i.castSucc ⟨0, zero_lt i⟩).2 P
  intro k hk
  rw [get_swap_zero]
  split_ifs
  · exact hP i (Nat.lt_succ_self _)
  · exact hP _ (Nat.succ_pos _)
  · exact hP k (Nat.lt_succ_of_lt hk)

theorem Extracted.extract (h : Extracted alist (i + 1)) : Extracted (HeapSort.extract alist i) i where
  heap := maxHeapfy_heapFrom (h.heap.swap_last i.isLt)
  sorted k j hk hkj := by
    rcases hk.eq_or_lt with hk | hk
    · obtain rfl : i = k := Fin.ext hk
      rcases hkj.eq_or_lt with rfl | hkj
      · exact le_rfl
      · rw [extract_get_self, extract_get_behind hkj]
        exact h.above _ j (Nat.succ_pos _) hkj
    · rw [extract_get_behind hk, extract_get_behind (lt_of_lt_of_le hk hkj)]
      exact h.sorted k j hk hkj
  above k j hk hj := by
    rcases hj.eq_or_lt with hj | hj
    · obtain rfl : i = j := Fin.ext hj
      rw [extract_get_self]
      exact extract_get_before (· ≤ alist.get ⟨0, zero_lt i⟩)
        (fun k' hk' => h.heap.first (Nat.succ_le_of_lt i.isLt) hk') k hk
    · rw [extract_get_behind hj]
      exact extract_get_before (· ≤ alist.get j) (fun k' hk' => h.above k' j hk' hj) k hk

end Extract

theorem extracted_perm (alist : Vector α n) (t : ℕ) (ht : t ≤ n) :
    (extracted alist t ht).toList.Perm alist.toList := by
  induction t with
  | zero => exact built_perm alist _ le_rfl
  | succ t ih => exact ((maxHeapfy_perm _ _ _).trans (Vector.swap_perm _ _).toList).trans (ih (by omega))

theorem extracted_ok (alist : Vector α n) (t : ℕ) (ht : t ≤ n) : Extracted (extracted alist t ht) (n - t) := by
  induction t with
  | zero =>
    have hheap := built_heapFrom alist ((n + 1) / 2) le_rfl
    rw [Nat.sub_self] at hheap
    exact ⟨hheap, fun i j hi => absurd i.isLt (by omega), fun i j _ hj => absurd j.isLt (by omega)⟩
  | succ t ih =>
    have hround := ih (by omega)
    have hm : n - t = n - 1 - t + 1 := by omega
    have hm' : n - (t + 1) = n - 1 - t := by omega
    rw [hm] at hround
    rw [hm', extracted]
    exact Extracted.extract (i := ⟨n - 1 - t, by omega⟩) hround

/-- After every round of the second loop the first elements are a heap, the others are sorted and above it; in the end
the list is sorted. -/
theorem heapSort_sorted (alist : Vector α n) :
    (∀ t (ht : t ≤ n), Extracted (extracted alist t ht) (n - t) ∧ (extracted alist t ht).toList.Perm alist.toList) ∧
      (heapSort alist).toList = sorted alist.toList := by
  refine ⟨fun t ht => ⟨extracted_ok alist t ht, extracted_perm alist t ht⟩, ?_⟩
  apply eq_sorted (extracted_perm alist n le_rfl)
  have hsorted := (extracted_ok alist n le_rfl).sorted
  rw [List.pairwise_iff_getElem]
  intro i j hi hj hij
  rw [Vector.length_toList] at hi hj
  exact hsorted ⟨i, hi⟩ ⟨j, hj⟩ (by omega) hij.le

end GoodGoodStudy.LeetCode.HeapSort
