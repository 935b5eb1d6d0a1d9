/-
The exercises 200, number of islands, and 1254, number of closed islands. Every function counts the searches that it
starts, each of which sinks an island; for closed islands, what can be reached from the border is sunk before. The
numbers are those of the components of the land, and of the components that have no cell on the border.
-/
import GoodGoodStudy.Lib.GridFlood

namespace GoodGoodStudy.LeetCode.Islands

open GoodGoodStudy.Lib

variable {m n c : ℕ}

/-! ## The number of islands -/

/-- The letters `'1'` and `'0'`, and the number 0 that two of the functions write over land. -/
inductive Tile
  | one
  | zero
  | sunk
  deriving DecidableEq, Repr

def Solution2.dfs : ℕ → Grid (m + 1) c Tile → Cell (m + 1) c → Option (Grid (m + 1) c Tile) :=
  fillDepth [(1, 0), (-1, 0), (0, 1), (0, -1)] .one .sunk

def Solution2.numIslands (fuel : ℕ) (grid : Grid (m + 1) c Tile) : Option ℕ := countFills .one dfs fuel grid

/-- The queue of the loops is empty whenever a search starts. -/
def Solution3.numIslands (fuel : ℕ) (grid : Grid (m + 1) c Tile) : Option ℕ :=
  countFills .one (fillBreadth [(1, 0), (-1, 0), (0, 1), (0, -1)] .one .zero) fuel grid

def Solution.dfs : ℕ → Grid (m + 1) c Tile → Cell (m + 1) c → Option (Grid (m + 1) c Tile) :=
  fillDepth [(-1, 0), (1, 0), (0, -1), (0, 1)] .one .sunk

def Solution.numIslands (fuel : ℕ) (grid : Grid (m + 1) c Tile) : Option ℕ := countFills .one dfs fuel grid

/-! ## The number of closed islands -/

/-- The numbers 0, for land, and 1. -/
inductive Square
  | zero
  | one
  deriving DecidableEq, Repr

abbrev Board (m n : ℕ) := Grid (m + 1) (n + 1) Square

abbrev Pos (m n : ℕ) := Cell (m + 1) (n + 1)

def directions : List (ℤ × ℤ) := [(1, 0), (-1, 0), (0, 1), (0, -1)]

def dfs : ℕ → Board m n → Pos m n → Option (Board m n)
  | 0, _, _ => none
  | fuel + 1, grid, p =>
    if grid.get p = .one then some grid
    else
      (neighbours directions p).foldlM (fun grid q => if grid.get q = .zero then dfs fuel grid q else some grid)
        (grid.set p .one)

/-- The cells of the border in the order of the two loops over it, the corners twice. -/
def border (m n : ℕ) : List (Pos m n) :=
  ((List.finRange (m + 1)).flatMap fun i => [(i, ⟨0, n.succ_pos⟩), (i, Fin.last n)]) ++
    (List.finRange (n + 1)).flatMap fun j => [(⟨0, m.succ_pos⟩, j), (Fin.last m, j)]

def closedIsland (fuel : ℕ) (grid : Board m n) : Option ℕ :=
  ((border m n).foldlM (dfs fuel) grid).bind (countFills .zero dfs fuel)

def OnBorder (p : Pos m n) : Prop := (p.1 : ℕ) = 0 ∨ p.1 = Fin.last m ∨ (p.2 : ℕ) = 0 ∨ p.2 = Fin.last n

theorem mem_border (p : Pos m n) : p ∈ border m n ↔ OnBorder p := by
  obtain ⟨i, j⟩ := p
  simp only [border, OnBorder, List.mem_append, List.mem_flatMap, List.mem_finRange, true_and, List.mem_cons,
    List.not_mem_nil, or_false, Prod.mk.injEq, Fin.ext_iff]
  constructor
  · rintro (⟨k, ⟨-, h⟩ | ⟨-, h⟩⟩ | ⟨k, ⟨h, -⟩ | ⟨h, -⟩⟩)
    · exact Or.inr (Or.inr (Or.inl h))
    · exact Or.inr (Or.inr (Or.inr h))
    · exact Or.inl h
    · exact Or.inr (Or.inl h)
  · rintro (h | h | h | h)
    · exact Or.inr ⟨j, Or.inl ⟨h, rfl⟩⟩
    · exact Or.inr ⟨j, Or.inr ⟨h, rfl⟩⟩
    · exact Or.inl ⟨i, Or.inl ⟨rfl, h⟩⟩
    · exact Or.inl ⟨i, Or.inr ⟨rfl, h⟩⟩

/-- From land the search is a flood fill: it is only called for land. -/
theorem dfs_eq : ∀ (fuel : ℕ) (grid : Board m n) (p : Pos m n), grid.get p = .zero →
    dfs fuel grid p = fillDepth directions .zero .one fuel grid p
  | 0, _, _, _ => rfl
  | fuel + 1, grid, p, hp => by
    rw [dfs, fillDepth, hp, if_neg nofun]
    congr 1
    funext grid q
    split_ifs with hq
    · exact dfs_eq fuel grid q hq
    · rfl

theorem one_ne_zero : Square.one ≠ .zero := nofun

theorem directions_perm : directions.Perm [(-1, 0), (1, 0), (0, -1), (0, 1)] := by decide

theorem dfs_returns (grid : Board m n) (p : Pos m n) (hp : grid.get p = .zero) :
    ∃ g', Returns (fun fuel => dfs fuel grid p) g' ∧ Floods .zero .one grid {p} g' := by
  simp only [dfs_eq _ grid p hp]
  exact fillDepth_returns directions_perm one_ne_zero grid p hp

/-- From any cell, as at the border. -/
theorem dfs_returns_of_any (grid : Board m n) (p : Pos m n) :
    ∃ g', Returns (fun fuel => dfs fuel grid p) g' ∧ Floods .zero .one grid {p} g' := by
  cases hp : grid.get p with
  | zero => exact dfs_returns grid p hp
  | one =>
    refine ⟨grid, Returns.call (fun fuel => ?_) (Returns.pure grid), Floods.refl ?_⟩
    · rw [dfs, if_pos hp]
    · rintro q rfl
      rw [hp]
      exact one_ne_zero

theorem closedIsland_returns (grid : Board m n) : Returns (fun fuel => closedIsland fuel grid)
    {C ∈ components SharesSide (tiles .zero grid) | ∀ p ∈ C, ¬ OnBorder p}.ncard := by
  obtain ⟨g', hret, hflood⟩ := Floods.foldlM one_ne_zero dfs grid (fun g' p _ => dfs_returns_of_any g' p) (border m n)
  have hclosed : components SharesSide (tiles .zero g') =
      {C ∈ components SharesSide (tiles .zero grid) | ∀ p ∈ C, ¬ OnBorder p} := by
    rw [hflood.flood.components_eq fun _ _ h => h.symm]
    refine Set.ext fun C => and_congr_right fun _ => ?_
    exact ⟨fun h p hp hb => h p ((mem_border p).2 hb) hp, fun h p hb hp => h p hp ((mem_border p).1 hb)⟩
  rw [← hclosed]
  exact hret.bind (countFills_returns dfs_returns g')

/-- The numbers of islands and of closed islands. -/
theorem islands_count : (∀ grid : Grid (m + 1) c Tile,
    Returns (fun fuel => Solution2.numIslands fuel grid) (components SharesSide (tiles .one grid)).ncard ∧
      Returns (fun fuel => Solution3.numIslands fuel grid) (components SharesSide (tiles .one grid)).ncard ∧
      Returns (fun fuel => Solution.numIslands fuel grid) (components SharesSide (tiles .one grid)).ncard) ∧
    ∀ grid : Board m n, Returns (fun fuel => closedIsland fuel grid)
      {C ∈ components SharesSide (tiles .zero grid) | ∀ p ∈ C, ¬ OnBorder p}.ncard := by
  have hsunk : Tile.sunk ≠ .one := nofun
  have hzero : Tile.zero ≠ .one := nofun
  exact ⟨fun grid => ⟨countFills_returns (fillDepth_returns directions_perm hsunk) grid,
    countFills_returns (fillBreadth_returns directions_perm hzero) grid,
    countFills_returns (fillDepth_returns (List.Perm.refl _) hsunk) grid⟩, closedIsland_returns⟩

end GoodGoodStudy.LeetCode.Islands
