/-
The `Heap` of the exercise "the weight of the last stone", a binary heap in a list with a flag for its
direction, and `lastStoneWeight` on top of it. The heap is a priority queue over every sequence of its
calls, and the loop over the stones comes to the weight that smashing the two heaviest stones leaves.
-/
import Mathlib.Algebra.Order.Group.Int
import Mathlib.Algebra.Order.Group.Multiset
import Mathlib.Data.List.Sort
import GoodGoodStudy.Lib.HeapOrder
import GoodGoodStudy.Lib.Run

namespace GoodGoodStudy.LeetCode.Heap

open GoodGoodStudy.Lib

variable {α : Type*} [LinearOrder α]

/-! ## The heap -/

/-- `_smaller`. -/
def smaller (desc : Bool) (lhs rhs : α) : Bool := if desc then decide (lhs > rhs) else decide (lhs < rhs)

omit [LinearOrder α] in
theorem parent_lt {heap : Array α} {index : Nat} (h : index < heap.size) : (index - 1) / 2 < heap.size := by omega

/-- `_sift_up`. -/
def siftUp (desc : Bool) (heap : Array α) (index : Nat) (h : index < heap.size) : Array α :=
  if index = 0 then heap
  else
    have hparent := parent_lt h
    if smaller desc heap[(index - 1) / 2] heap[index] then heap
    else siftUp desc (heap.swap ((index - 1) / 2) index) ((index - 1) / 2) (by rw [Array.size_swap]; exact hparent)
termination_by index

/-- The variable `smallest` at the end of a round of `_sift_down`. -/
def smallest (desc : Bool) (heap : Array α) (index : Nat) (h : index * 2 + 1 < heap.size) : Fin heap.size :=
  let left : Fin heap.size := ⟨index * 2 + 1, h⟩
  let smallest : Fin heap.size := ⟨index, by omega⟩
  let smallest := if smaller desc heap[left] heap[smallest] then left else smallest
  if hright : index * 2 + 2 < heap.size then
    let right : Fin heap.size := ⟨index * 2 + 2, hright⟩
    if smaller desc heap[right] heap[smallest] then right else smallest
  else smallest

theorem le_smallest (desc : Bool) (heap : Array α) (index : Nat) (h : index * 2 + 1 < heap.size) :
    index ≤ smallest desc heap index h := by
  unfold smallest
  grind

/-- `_sift_down`. -/
def siftDown (desc : Bool) (heap : Array α) (index : Nat) : Array α :=
  if h : index * 2 + 1 < heap.size then
    if smallest desc heap index h = index then heap
    else siftDown desc (heap.swap index (smallest desc heap index h)) (smallest desc heap index h)
  else heap
termination_by heap.size - index
decreasing_by
  have := le_smallest desc heap index h
  rw [Array.size_swap]
  omega

def push (desc : Bool) (heap : Array α) (item : α) : Array α :=
  siftUp desc (heap.push item) heap.size (by rw [Array.size_push]; omega)

omit [LinearOrder α] in
theorem last_lt {heap : Array α} (h : 0 < heap.size) : heap.size - 1 < heap.size := Nat.sub_lt h Nat.one_pos

/-- `pop` on a heap that is not empty. -/
def pop (desc : Bool) (heap : Array α) (h : 0 < heap.size) : α × Array α :=
  (heap[0], siftDown desc (heap.swap 0 (heap.size - 1) h (last_lt h)).pop 0)

/-! ## Heap order -/

/-- The order of the flag: ascending for a heap of minima, descending for a heap of maxima. -/
def Before (desc : Bool) (x y : α) : Prop := if desc then y ≤ x else x ≤ y

theorem not_smaller {desc : Bool} {x y : α} : smaller desc y x = false ↔ Before desc x y := by
  cases desc <;> simp [smaller, Before]

theorem before_of_smaller {desc : Bool} {x y : α} (h : smaller desc x y = true) : Before desc x y := by
  cases desc
  · exact le_of_lt (by simpa [smaller] using h)
  · exact le_of_lt (by simpa [smaller] using h)

instance (desc : Bool) : IsPreorder α (Before desc) where
  refl x := by cases desc <;> exact le_refl x
  trans x y z hxy hyz := by
    cases desc
    · exact le_trans (show x ≤ y from hxy) hyz
    · exact le_trans (show z ≤ y from hyz) hxy

theorem siftUp_heapOrder {desc : Bool} {heap : Array α} {index : Nat} (h : index < heap.size)
    (ha : HeapUp (Before desc) heap index) : HeapOrder (Before desc) (siftUp desc heap index h) := by
  induction index using Nat.strongRecOn generalizing heap with
  | ind index ih =>
    unfold siftUp
    dsimp only
    split_ifs with h0 hsm
    · exact ha.heapOrder fun _ hpos => absurd hpos (by omega)
    · exact ha.heapOrder fun _ _ => before_of_smaller hsm
    · have hle : Before desc heap[index] heap[(index - 1) / 2] := not_smaller.1 (by simpa using hsm)
      exact ih _ (by omega) _ (ha.swap h (by omega) hle)

/-- The node chosen is the node itself or one below it, and comes before all three. -/
theorem smallest_spec (desc : Bool) (heap : Array α) (index : Nat) (h : index * 2 + 1 < heap.size) :
    (smallest desc heap index h = index ∨ (smallest desc heap index h - 1) / 2 = index) ∧
      Before desc heap[smallest desc heap index h] heap[index] ∧
      ∀ k, ∀ hk : k < heap.size, 0 < k → (k - 1) / 2 = index →
        Before desc heap[smallest desc heap index h] heap[k] := by
  have hrefl : ∀ x : α, Before desc x x := refl
  have htrans : ∀ x y z : α, Before desc x y → Before desc y z → Before desc x z := fun x y z => trans_of _
  have hsm : ∀ x y : α, smaller desc x y = true → Before desc x y := fun x y => before_of_smaller
  have hns : ∀ x y : α, smaller desc y x = false → Before desc x y := fun x y => not_smaller.1
  refine ⟨?_, ?_, fun k hk hpos hpar => ?_⟩
  · unfold smallest
    grind
  · unfold smallest
    grind
  · obtain rfl | rfl : k = index * 2 + 1 ∨ k = index * 2 + 2 := by omega
    · unfold smallest
      grind
    · unfold smallest
      grind

theorem siftDown_heapOrder {desc : Bool} {heap : Array α} {index : Nat} (ha : HeapDown (Before desc) heap index) :
    HeapOrder (Before desc) (siftDown desc heap index) := by
  fun_induction siftDown with
  | case1 heap index h heq =>
    obtain ⟨-, -, hbelow⟩ := smallest_spec desc heap index h
    apply ha.heapOrder
    rintro k rfl hk hpos
    have hk' := hbelow k hk hpos rfl
    simpa only [Fin.getElem_fin, heq] using hk'
  | case2 heap index h hne ih =>
    obtain ⟨hchild, hself, hbelow⟩ := smallest_spec desc heap index h
    have hpar := hchild.resolve_left hne
    have hge := le_smallest desc heap index h
    exact ih (ha.swap (by omega) (smallest desc heap index h).isLt (by omega) hpar hself hbelow)
  | case3 heap index h =>
    apply ha.heapOrder
    intro k hk hsize hpos
    omega

/-! ## The items -/

theorem siftUp_perm (desc : Bool) {heap : Array α} {index : Nat} (h : index < heap.size) :
    (siftUp desc heap index h).Perm heap := by
  induction index using Nat.strongRecOn generalizing heap with
  | ind index ih =>
    unfold siftUp
    dsimp only
    split_ifs
    · exact Array.Perm.rfl
    · exact Array.Perm.rfl
    · exact (ih _ (by omega) _).trans (Array.swap_perm _ _)

theorem siftDown_perm (desc : Bool) (heap : Array α) (index : Nat) : (siftDown desc heap index).Perm heap := by
  fun_induction siftDown with
  | case1 => exact Array.Perm.rfl
  | case2 heap index h _ ih => exact ih.trans (Array.swap_perm _ _)
  | case3 => exact Array.Perm.rfl

/-- The items of a heap. -/
def items (heap : Array α) : Multiset α := heap.toList

omit [LinearOrder α] in
theorem items_eq_of_perm {heap heap' : Array α} (h : heap.Perm heap') : items heap = items heap' :=
  Multiset.coe_eq_coe.2 h.toList

omit [LinearOrder α] in
theorem items_append (heap : Array α) (item : α) : items (heap.push item) = item ::ₘ items heap := by
  unfold items
  rw [Array.toList_push, Multiset.cons_coe]
  exact Multiset.coe_eq_coe.2 (List.perm_append_singleton item heap.toList)

theorem items_push (desc : Bool) (heap : Array α) (item : α) : items (push desc heap item) = item ::ₘ items heap := by
  unfold push
  rw [items_eq_of_perm (siftUp_perm desc _), items_append]

theorem items_pop (desc : Bool) {heap : Array α} (h : 0 < heap.size) :
    (pop desc heap h).1 ::ₘ items (pop desc heap h).2 = items heap := by
  have hperm : (heap.swap 0 (heap.size - 1)).Perm heap := Array.swap_perm _ _
  have hsplit : heap.swap 0 (heap.size - 1) = (heap.swap 0 (heap.size - 1)).pop.push heap[0] := by
    apply Array.ext
    · rw [Array.size_push, Array.size_pop, Array.size_swap]
      omega
    · intro k hk _
      grind
  unfold pop
  rw [items_eq_of_perm (siftDown_perm desc _ _), ← items_append, ← hsplit, items_eq_of_perm hperm]

theorem size_pop (desc : Bool) {heap : Array α} (h : 0 < heap.size) : (pop desc heap h).2.size = heap.size - 1 := by
  unfold pop
  rw [(siftDown_perm desc _ _).size_eq, Array.size_pop, Array.size_swap]

theorem size_push (desc : Bool) (heap : Array α) (item : α) : (push desc heap item).size = heap.size + 1 := by
  unfold push
  rw [(siftUp_perm desc _).size_eq, Array.size_push]

theorem push_heapOrder {desc : Bool} {heap : Array α} (ha : HeapOrder (Before desc) heap) (item : α) :
    HeapOrder (Before desc) (push desc heap item) :=
  siftUp_heapOrder _ (ha.push item)

theorem pop_heapOrder {desc : Bool} {heap : Array α} (ha : HeapOrder (Before desc) heap) (h : 0 < heap.size) :
    HeapOrder (Before desc) (pop desc heap h).2 :=
  siftDown_heapOrder (ha.pop h)

/-- `pop` returns an item that comes before all items of the heap. -/
theorem pop_before {desc : Bool} {heap : Array α} (ha : HeapOrder (Before desc) heap) (h : 0 < heap.size) :
    ∀ y ∈ items heap, Before desc (pop desc heap h).1 y := by
  intro y hy
  obtain ⟨k, hk, rfl⟩ := Array.mem_iff_getElem.1 (Array.mem_toList_iff.1 (Multiset.mem_coe.1 hy))
  exact ha.first k hk

/-! ## Sequences of calls -/

inductive Call (α : Type*)
  | push (item : α)
  | pop
  deriving DecidableEq, Repr

/-- A call, with the item that it returns; `pop` on an empty list raises `IndexError`. -/
def call (desc : Bool) (heap : Array α) : Call α → Option (Array α × Option α)
  | .push item => some (push desc heap item, none)
  | .pop => if h : 0 < heap.size then some ((pop desc heap h).2, some (pop desc heap h).1) else none

/-- The items that a sequence of calls pushes. -/
def pushed : List (Call α) → Multiset α
  | [] => 0
  | .push item :: calls => item ::ₘ pushed calls
  | .pop :: calls => pushed calls

/-- The items among the answers to a sequence of calls. -/
def popped : List (Option α) → Multiset α
  | [] => 0
  | none :: answers => popped answers
  | some item :: answers => item ::ₘ popped answers

/-- What a call does to the order and the items. -/
theorem call_spec {desc : Bool} {heap heap' : Array α} {c : Call α} {answer : Option α}
    (ha : HeapOrder (Before desc) heap) (h : call desc heap c = some (heap', answer)) :
    HeapOrder (Before desc) heap' ∧ items heap' + popped [answer] = items heap + pushed [c] := by
  cases c with
  | push item =>
    cases h
    refine ⟨push_heapOrder ha item, ?_⟩
    have hpushed : pushed [Call.push item] = {item} := rfl
    have hpopped : popped [(none : Option α)] = 0 := rfl
    rw [items_push, hpushed, hpopped, add_zero, ← Multiset.singleton_add, add_comm]
  | pop =>
    unfold call at h
    split_ifs at h with hsize
    cases h
    refine ⟨pop_heapOrder ha hsize, ?_⟩
    have hpushed : pushed [(Call.pop : Call α)] = 0 := rfl
    have hpopped : popped [some (pop desc heap hsize).1] = {(pop desc heap hsize).1} := rfl
    rw [← items_pop desc hsize, hpushed, hpopped, add_zero, ← Multiset.singleton_add, add_comm]

omit [LinearOrder α] in
theorem popped_cons (answer : Option α) (answers : List (Option α)) :
    popped (answer :: answers) = popped [answer] + popped answers := by
  cases answer <;> simp [popped]

omit [LinearOrder α] in
theorem pushed_cons (c : Call α) (calls : List (Call α)) : pushed (c :: calls) = pushed [c] + pushed calls := by
  cases c <;> simp [pushed]

theorem run_spec {desc : Bool} {heap heap' : Array α} {calls : List (Call α)} {answers : List (Option α)}
    (ha : HeapOrder (Before desc) heap) (h : runOut (call desc) heap calls = some (heap', answers)) :
    HeapOrder (Before desc) heap' ∧ items heap' + popped answers = items heap + pushed calls := by
  induction calls generalizing heap answers with
  | nil =>
    cases h
    exact ⟨ha, rfl⟩
  | cons c calls ih =>
    simp only [runOut, Option.bind_eq_bind, Option.bind_eq_some_iff, Prod.exists] at h
    obtain ⟨heap₁, answer, hc, heap₂, rest, hrest, h⟩ := h
    cases h
    obtain ⟨ha₁, hitems₁⟩ := call_spec ha hc
    obtain ⟨ha₂, hitems₂⟩ := ih ha₁ hrest
    refine ⟨ha₂, ?_⟩
    calc items heap' + popped (answer :: rest)
        = (items heap' + popped rest) + popped [answer] := by rw [popped_cons, add_comm (popped [answer]), add_assoc]
      _ = (items heap₁ + popped [answer]) + pushed calls := by rw [hitems₂, add_right_comm]
      _ = items heap + pushed (c :: calls) := by rw [hitems₁, add_assoc, ← pushed_cons]

/-! ## The stones -/

/-- The body of `while heap.size > 1` in `lastStoneWeight`. -/
def smashTwo (heap : Array Int) (h : 1 < heap.size) : Array Int :=
  have hy : 0 < (pop true heap (by omega)).2.size := by rw [size_pop]; omega
  let x := pop true heap (by omega)
  let y := pop true x.2 hy
  if x.1 ≠ y.1 then push true y.2 (x.1 - y.1) else y.2

theorem size_smashTwo_lt (heap : Array Int) (h : 1 < heap.size) : (smashTwo heap h).size < heap.size := by
  unfold smashTwo
  dsimp only
  split_ifs
  · rw [size_push, size_pop, size_pop]
    omega
  · rw [size_pop, size_pop]
    omega

/-- `while heap.size > 1`. -/
def smash (heap : Array Int) : Array Int := if h : 1 < heap.size then smash (smashTwo heap h) else heap
termination_by heap.size
decreasing_by exact size_smashTwo_lt heap h

def lastStoneWeight (stones : List Int) : Int :=
  let heap := smash (stones.foldl (push true) #[])
  if h : 0 < heap.size then heap[0] else 0

/-- What the game comes to: the weight that is left of stones, given from the heaviest to the lightest, when
the two heaviest are smashed again and again. -/
def weightLeft : List Int → Int
  | [] => 0
  | [stone] => stone
  | x :: y :: stones => weightLeft (if x = y then stones else stones.orderedInsert (· ≥ ·) (x - y))
termination_by stones => stones.length
decreasing_by
  split
  · simp only [List.length_cons]
    omega
  · rw [List.orderedInsert_length]
    simp only [List.length_cons]
    omega

/-- The heaviest stone comes first in a descending list, and is the one that a heap of maxima returns. -/
theorem pop_heaviest {heap : Array Int} (ha : HeapOrder (Before true) heap) (h : 0 < heap.size) {stones : List Int}
    (hsorted : stones.Pairwise (· ≥ ·)) (hstones : items heap = stones) :
    ∃ rest, stones = (pop true heap h).1 :: rest ∧ items (pop true heap h).2 = rest := by
  have hpop := items_pop true h
  rw [hstones] at hpop
  cases stones with
  | nil => exact absurd hpop Multiset.cons_ne_zero
  | cons x rest =>
    have hx : x ≤ (pop true heap h).1 := pop_before ha h x (by rw [hstones]; exact List.mem_cons_self)
    have hp : (pop true heap h).1 ≤ x := by
      have hmem : (pop true heap h).1 ∈ x :: rest := by
        rw [← Multiset.mem_coe, ← hpop]
        exact Multiset.mem_cons_self _ _
      rcases List.mem_cons.1 hmem with he | hmem
      · exact le_of_eq he
      · exact (List.pairwise_cons.1 hsorted).1 _ hmem
    have he := le_antisymm hx hp
    refine ⟨rest, by rw [he], ?_⟩
    rw [← he, ← Multiset.cons_coe] at hpop
    exact (Multiset.cons_inj_right x).1 hpop

/-- One round takes the two heaviest stones out and puts what is left of them back. -/
theorem smashTwo_spec {heap : Array Int} (ha : HeapOrder (Before true) heap) (h : 1 < heap.size) {stones : List Int}
    (hsorted : stones.Pairwise (· ≥ ·)) (hstones : items heap = stones) :
    ∃ x y rest, stones = x :: y :: rest ∧ rest.Pairwise (· ≥ ·) ∧ HeapOrder (Before true) (smashTwo heap h) ∧
      items (smashTwo heap h) = (if x = y then rest else rest.orderedInsert (· ≥ ·) (x - y) : List Int) := by
  have hpos : 0 < heap.size := by omega
  have hpos' : 0 < (pop true heap hpos).2.size := by rw [size_pop]; omega
  obtain ⟨rest, rfl, hx⟩ := pop_heaviest ha hpos hsorted hstones
  obtain ⟨rest, rfl, hy⟩ := pop_heaviest (pop_heapOrder ha hpos) hpos' (List.pairwise_cons.1 hsorted).2 hx
  have hheap := pop_heapOrder (pop_heapOrder ha hpos) hpos'
  refine ⟨_, _, rest, rfl, (List.pairwise_cons.1 (List.pairwise_cons.1 hsorted).2).2, ?_⟩
  unfold smashTwo
  dsimp only
  by_cases heq : (pop true heap hpos).1 = (pop true (pop true heap hpos).2 hpos').1
  · rw [if_neg (not_not.2 heq), if_pos heq]
    exact ⟨hheap, hy⟩
  · rw [if_pos heq, if_neg heq]
    refine ⟨push_heapOrder hheap _, ?_⟩
    rw [items_push, hy, Multiset.cons_coe]
    exact Multiset.coe_eq_coe.2 (List.perm_orderedInsert _ _ _).symm

/-- At the end at most one stone is left, and it weighs what the game comes to. -/
theorem smash_spec {heap : Array Int} (ha : HeapOrder (Before true) heap) {stones : List Int}
    (hsorted : stones.Pairwise (· ≥ ·)) (hstones : items heap = stones) :
    (smash heap = #[] ∧ weightLeft stones = 0) ∨ ∃ w, smash heap = #[w] ∧ weightLeft stones = w := by
  fun_induction smash generalizing stones with
  | case1 heap h ih =>
    obtain ⟨x, y, rest, rfl, hrest, horder, hitems⟩ := smashTwo_spec ha h hsorted hstones
    unfold weightLeft
    apply ih horder _ hitems
    split_ifs
    · exact hrest
    · exact hrest.orderedInsert _ _
  | case2 heap h =>
    rcases Nat.eq_zero_or_pos heap.size with h0 | hpos
    · obtain rfl := Array.size_eq_zero_iff.1 h0
      obtain rfl : stones = [] := (Multiset.coe_eq_zero stones).1 hstones.symm
      exact .inl ⟨rfl, by unfold weightLeft; rfl⟩
    · obtain ⟨w, rfl⟩ := Array.size_eq_one_iff.1 (show heap.size = 1 by omega)
      obtain rfl : stones = [w] := Multiset.coe_eq_singleton.1 hstones.symm
      exact .inr ⟨w, rfl, by unfold weightLeft; rfl⟩

theorem foldl_push_spec (desc : Bool) (stones : List α) {heap : Array α} (ha : HeapOrder (Before desc) heap) :
    HeapOrder (Before desc) (stones.foldl (push desc) heap) ∧
      items (stones.foldl (push desc) heap) = items heap + (stones : Multiset α) := by
  induction stones generalizing heap with
  | nil => exact ⟨ha, (add_zero _).symm⟩
  | cons stone stones ih =>
    obtain ⟨horder, hitems⟩ := ih (push_heapOrder ha stone)
    refine ⟨horder, ?_⟩
    rw [List.foldl_cons, hitems, items_push, Multiset.cons_add, ← Multiset.cons_coe, Multiset.add_cons]

theorem heapOrder_empty (desc : Bool) : HeapOrder (Before desc) (#[] : Array α) := by
  intro k hk
  exact absurd hk (Nat.not_lt_zero k)

theorem lastStoneWeight_eq (stones : List Int) :
    lastStoneWeight stones = weightLeft (stones.insertionSort (· ≥ ·)) := by
  obtain ⟨horder, hitems⟩ := foldl_push_spec true stones (heapOrder_empty true)
  have hsorted : items (stones.foldl (push true) #[]) = stones.insertionSort (· ≥ ·) := by
    rw [hitems]
    exact (zero_add _).trans (Multiset.coe_eq_coe.2 (List.perm_insertionSort _ _).symm)
  unfold lastStoneWeight
  rcases smash_spec horder (List.pairwise_insertionSort _ _) hsorted with ⟨h, hw⟩ | ⟨w, h, hw⟩
  · rw [h, hw]
    rfl
  · rw [h, hw]
    rfl

end GoodGoodStudy.LeetCode.Heap
