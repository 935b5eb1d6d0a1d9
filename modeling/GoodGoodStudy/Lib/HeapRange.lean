/-
Heap order in the first `m` places of a vector, from an index on: only the edges below nodes from `lo` on count. So a
heap is built from its end, one node after the other, and taken apart again: its first element changes places with its
last one, which no longer belongs to it. Each time the order is broken below one node, and one swap moves this place one
level down.
-/
import Mathlib.Data.List.Basic
import Mathlib.Order.Defs.Unbundled
import Mathlib.Order.Basic

namespace GoodGoodStudy.Lib

variable {α : Type*} {n m lo i s : ℕ} {le : α → α → Prop} {v : Vector α n}

/-- The node `k` is in order with the node above it. -/
def NodeOk (le : α → α → Prop) (v : Vector α n) (k : ℕ) : Prop := ∀ hk : k < n, le v[(k - 1) / 2] v[k]

/-- Heap order in the first `m` places, below the nodes from `lo` on. -/
def HeapFrom (le : α → α → Prop) (v : Vector α n) (m lo : ℕ) : Prop :=
  ∀ k, 0 < k → k < m → lo ≤ (k - 1) / 2 → NodeOk le v k

/-- The same but for the edges below `i`; what is below `i` is in order with what is above it. -/
structure HeapHole (le : α → α → Prop) (v : Vector α n) (m lo i : ℕ) : Prop where
  node : ∀ k, 0 < k → k < m → lo ≤ (k - 1) / 2 → (k - 1) / 2 ≠ i → NodeOk le v k
  skip : ∀ k, 0 < k → k < m → (k - 1) / 2 = i → 0 < i → lo ≤ (i - 1) / 2 → ∀ hk : k < n,
    le v[((k - 1) / 2 - 1) / 2] v[k]

theorem HeapHole.heapFrom (h : HeapHole le v m lo i) (hi : ∀ k, 0 < k → k < m → (k - 1) / 2 = i → NodeOk le v k) :
    HeapFrom le v m lo := by
  intro k hpos hk hlo
  by_cases hki : (k - 1) / 2 = i
  · exact hi k hpos hk hki
  · exact h.node k hpos hk hlo hki

/-- The node before the first one of a heap may be out of order. -/
theorem HeapFrom.hole (h : HeapFrom le v m (lo + 1)) : HeapHole le v m lo lo where
  node k hpos hk hlo hne := h k hpos hk (by omega)
  skip k hpos hk hki hlo hle := by omega

/-- The first element changes places with the last one, which does not belong to the heap any more. -/
theorem HeapFrom.swap_last (h : HeapFrom le v (m + 1) 0) (hm : m < n) :
    HeapHole le (v.swap 0 m (Nat.zero_lt_of_lt hm) hm) m 0 0 where
  node k hpos hk hlo hne hkn := by
    have hk' := h k hpos (by omega) hlo hkn
    grind
  skip k hpos hk hki hlo := absurd hlo (Nat.lt_irrefl 0)

/-- The first element comes before all others of the heap. -/
theorem HeapFrom.first [IsPreorder α le] (h : HeapFrom le v m 0) (hm : m ≤ n) {k : ℕ} (hk : k < m) :
    le v[0] v[k] := by
  induction k using Nat.strongRecOn with
  | ind k ih =>
    rcases Nat.eq_zero_or_pos k with rfl | hpos
    · exact refl _
    · exact trans_of le (ih ((k - 1) / 2) (by omega) (by omega)) (h k hpos hk (Nat.zero_le _) (by omega))

/-- The element at `i` moves down past the first of those below it. -/
theorem HeapHole.swap [IsPreorder α le] (h : HeapHole le v m lo i) (hi : i < n) (hs : s < n) (hspos : 0 < s)
    (hsm : s < m) (his : (s - 1) / 2 = i) (hle : le v[s] v[i])
    (hfirst : ∀ k, 0 < k → k < m → (k - 1) / 2 = i → ∀ hk : k < n, le v[s] v[k]) :
    HeapHole le (v.swap s i hs hi) m lo s := by
  constructor
  · intro k hpos hk hlo hne hkn
    -- `k` is `i` itself, `s` or its sibling, or somewhere else
    have hk' := h.node k hpos hk hlo
    have hsib := hfirst k hpos hk
    have habove := h.skip s hspos hsm his
    unfold NodeOk at hk'
    grind
  · intro k hpos hk hks _ hlo hkn
    have hk' := h.node k hpos hk
    unfold NodeOk at hk'
    grind

end GoodGoodStudy.Lib
