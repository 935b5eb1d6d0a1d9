/-
Heap order in an array, for any total preorder: the node `k` hangs below the node `(k - 1) / 2`. One
swap moves the place where the order is broken one level up or one level down; when the elements
there are in order, the array is a heap.
-/
import Mathlib.Data.List.Basic
import Mathlib.Order.Defs.Unbundled

namespace GoodGoodStudy.Lib

variable {α : Type*} {le : α → α → Prop}

/-- The node `k` is in order with the node above it. -/
def EdgeOk (le : α → α → Prop) (a : Array α) (k : Nat) : Prop :=
  ∀ h : k < a.size, 0 < k → le a[(k - 1) / 2] a[k]

/-- Every node is in order with the node above it. -/
def HeapOrder (le : α → α → Prop) (a : Array α) : Prop := ∀ k, EdgeOk le a k

/-- The node above `i` is in order with the nodes below `i`. -/
def SkipOk (le : α → α → Prop) (a : Array α) (i : Nat) : Prop :=
  ∀ k, ∀ h : k < a.size, 0 < i → (k - 1) / 2 = i → le a[((k - 1) / 2 - 1) / 2] a[k]

/-- Heap order, but for the edge above `i`. -/
def HeapUp (le : α → α → Prop) (a : Array α) (i : Nat) : Prop := (∀ k, k ≠ i → EdgeOk le a k) ∧ SkipOk le a i

/-- Heap order, but for the edges below `i`. -/
def HeapDown (le : α → α → Prop) (a : Array α) (i : Nat) : Prop :=
  (∀ k, (k - 1) / 2 ≠ i → EdgeOk le a k) ∧ SkipOk le a i

/-- The first element comes before all others. -/
theorem HeapOrder.first [IsPreorder α le] {a : Array α} (ha : HeapOrder le a) (k : Nat) (hk : k < a.size) :
    le a[0] a[k] := by
  induction k using Nat.strongRecOn with
  | ind k ih =>
    rcases Nat.eq_zero_or_pos k with rfl | hpos
    · exact refl _
    · exact trans_of le (ih ((k - 1) / 2) (by omega) (by omega)) (ha k hk hpos)

theorem HeapUp.heapOrder {a : Array α} {i : Nat} (ha : HeapUp le a i) (hi : EdgeOk le a i) : HeapOrder le a := by
  intro k
  by_cases hk : k = i
  · rw [hk]
    exact hi
  · exact ha.1 k hk

theorem HeapDown.heapOrder {a : Array α} {i : Nat} (ha : HeapDown le a i)
    (hi : ∀ k, (k - 1) / 2 = i → EdgeOk le a k) : HeapOrder le a := by
  intro k
  by_cases hk : (k - 1) / 2 = i
  · exact hi k hk
  · exact ha.1 k hk

/-- The element at `i` moves up past the one above it. -/
theorem HeapUp.swap [IsPreorder α le] {a : Array α} {i : Nat} (ha : HeapUp le a i) (hi : i < a.size) (hpos : 0 < i)
    (hle : le a[i] a[(i - 1) / 2]) : HeapUp le (a.swap ((i - 1) / 2) i) ((i - 1) / 2) := by
  obtain ⟨hedge, hskip⟩ := ha
  have htrans : ∀ x y z, le x y → le y z → le x z := fun x y z => trans_of le
  constructor
  · intro k hk hsize hkpos
    rw [Array.size_swap] at hsize
    -- `k` is `i` itself, hangs below `i`, hangs next to `i`, or is somewhere else
    have hk' := hedge k
    have hbelow := hskip k hsize hpos
    unfold EdgeOk at hk'
    grind
  · intro k hsize hppos hk
    rw [Array.size_swap] at hsize
    -- the element that came down is above what was above it
    have hk' := hedge k
    have hparent := hedge ((i - 1) / 2)
    unfold EdgeOk at hk' hparent
    grind

/-- The element at `i` moves down past the first of those below it. -/
theorem HeapDown.swap [IsPreorder α le] {a : Array α} {i s : Nat} (ha : HeapDown le a i) (hi : i < a.size)
    (hs : s < a.size) (hspos : 0 < s) (his : (s - 1) / 2 = i) (hle : le a[s] a[i])
    (hfirst : ∀ k, ∀ h : k < a.size, 0 < k → (k - 1) / 2 = i → le a[s] a[k]) :
    HeapDown le (a.swap i s) s := by
  obtain ⟨hedge, hskip⟩ := ha
  constructor
  · intro k hk hsize hkpos
    rw [Array.size_swap] at hsize
    -- `k` is `i` itself, `s` or its sibling, or somewhere else
    have hk' := hedge k
    have hsib := hfirst k hsize hkpos
    have habove := hskip s hs
    unfold EdgeOk at hk'
    grind
  · intro k hsize hpos hk
    rw [Array.size_swap] at hsize
    have hk' := hedge k
    unfold EdgeOk at hk'
    grind

/-- A new last element is in order with everything but the element above it. -/
theorem HeapOrder.push {a : Array α} (ha : HeapOrder le a) (x : α) : HeapUp le (a.push x) a.size := by
  constructor
  · intro k hk hsize hkpos
    rw [Array.size_push] at hsize
    have hk' := ha k
    unfold EdgeOk at hk'
    grind
  · intro k hsize hpos hk
    rw [Array.size_push] at hsize
    omega

/-- The last element takes the place of the first one. -/
theorem HeapOrder.pop {a : Array α} (ha : HeapOrder le a) (h : 0 < a.size) :
    HeapDown le (a.swap 0 (a.size - 1) h (by omega)).pop 0 := by
  constructor
  · intro k hk hsize hkpos
    rw [Array.size_pop, Array.size_swap] at hsize
    have hk' := ha k
    unfold EdgeOk at hk'
    grind
  · intro k hsize hpos hk
    exact absurd hpos (Nat.lt_irrefl 0)

end GoodGoodStudy.Lib
