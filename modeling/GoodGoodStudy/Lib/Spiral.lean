/-
The spiral through a rectangular grid: the first row, and then the spiral through the other rows, with the grid turned
counterclockwise so that its last column comes first. It takes every cell once. `layout` gives the coordinates of a grid
that was turned some times.
-/
import Mathlib.Tactic.Ring
import GoodGoodStudy.Lib.Grid

namespace GoodGoodStudy.Lib

variable {r c : ℕ}

/-- Where a cell of the turned grid was before, under the first row. -/
def turn (p : Cell c r) : Cell (r + 1) c := (p.2.succ, p.1.rev)

theorem turn_injective : Function.Injective (turn : Cell c r → Cell (r + 1) c) := by
  rintro ⟨i, j⟩ ⟨k, l⟩ h
  obtain ⟨hj, hi⟩ := Prod.mk.inj h
  exact Prod.ext (Fin.rev_inj.1 hi) (Fin.succ_inj.1 hj)

/-- The clockwise spiral from the first cell inwards. -/
def spiral : (r c : ℕ) → List (Cell r c)
  | 0, _ => []
  | r + 1, c => (List.finRange c).map (fun j => (0, j)) ++ (spiral c r).map turn
termination_by r c => r + c

theorem spiral_zero (c : ℕ) : spiral 0 c = [] := by rw [spiral]

theorem spiral_succ (r c : ℕ) :
    spiral (r + 1) c = (List.finRange c).map (fun j => (0, j)) ++ (spiral c r).map turn := by rw [spiral]

theorem spiral_zero_right (r : ℕ) : spiral r 0 = [] := by
  cases r with
  | zero => exact spiral_zero 0
  | succ r => rw [spiral_succ, spiral_zero, List.finRange_zero, List.map_nil, List.map_nil, List.append_nil]

theorem mem_spiral (p : Cell r c) : p ∈ spiral r c := by
  induction hn : r + c using Nat.strongRecOn generalizing r c with
  | _ n ih =>
    obtain ⟨i, j⟩ := p
    cases r with
    | zero => exact i.elim0
    | succ r =>
      rw [spiral_succ, List.mem_append]
      cases i using Fin.cases with
      | zero => exact Or.inl (List.mem_map.2 ⟨j, List.mem_finRange j, rfl⟩)
      | succ i =>
        refine Or.inr (List.mem_map.2 ⟨(j.rev, i), ih (c + r) (by omega) _ rfl, ?_⟩)
        rw [turn, Fin.rev_rev]

theorem nodup_spiral (r c : ℕ) : (spiral r c).Nodup := by
  induction hn : r + c using Nat.strongRecOn generalizing r c with
  | _ n ih =>
    cases r with
    | zero =>
      rw [spiral_zero]
      exact List.nodup_nil
    | succ r =>
      rw [spiral_succ]
      refine List.Nodup.append ?_ ((ih (c + r) (by omega) c r rfl).map turn_injective) ?_
      · exact (List.nodup_finRange c).map fun _ _ h => (Prod.mk.inj h).2
      · -- the turned cells are not in the first row
        rw [List.disjoint_left]
        intro p hrow hrest
        obtain ⟨j, -, rfl⟩ := List.mem_map.1 hrow
        obtain ⟨q, -, hq⟩ := List.mem_map.1 hrest
        exact Fin.succ_ne_zero _ (Prod.mk.inj hq).1

theorem length_spiral (r c : ℕ) : (spiral r c).length = r * c := by
  have hperm : (spiral r c).Perm (cells r c) :=
    (List.perm_ext_iff_of_nodup (nodup_spiral r c) nodup_cells).2 fun p => iff_of_true (mem_spiral p) (mem_cells p)
  rw [hperm.length_eq, cells, List.length_product, List.length_finRange, List.length_finRange]

/-! ## Coordinates -/

/-- The coordinates of the cells when the rows go along `v` and follow each other to the right of it, the first cell
being at `o`. -/
def layout (o v : ℤ × ℤ) (p : Cell r c) : ℤ × ℤ := (o.1 + p.1 * v.2 + p.2 * v.1, o.2 - p.1 * v.1 + p.2 * v.2)

theorem layout_id (p : Cell r c) : layout (0, 0) (0, 1) p = (↑p.1, ↑p.2) := by simp [layout]

/-- The turned grid begins where its first row begins, right of the end of the row that was taken. -/
theorem layout_turn (o v : ℤ × ℤ) (p : Cell c r) :
    layout o v (turn p) = layout (o.1 + (c - 1) * v.1 + v.2, o.2 + (c - 1) * v.2 - v.1) (v.2, -v.1) p := by
  have hrev : ((p.1.rev : ℕ) : ℤ) = c - 1 - p.1 := by
    rw [Fin.val_rev]
    omega
  simp only [layout, turn, hrev, Fin.val_succ, Nat.cast_add, Nat.cast_one]
  exact Prod.ext (by ring) (by ring)

end GoodGoodStudy.Lib
