/-
The three solutions of the exercise 130, surrounded regions. The first two mark what they can reach from the border,
depth first and breadth first, and differ in nothing else; the third one joins the open cells in a union-find forest
with one more node, which stands for the border. They are shown to leave the same board by one characterisation: an
open cell stays open if it can be reached from an open cell of the border through open cells.
-/
import GoodGoodStudy.Lib.GridFlood

namespace GoodGoodStudy.LeetCode.SurroundedRegions

open GoodGoodStudy.Lib

/-- The two letters of a board, and the one that the first two solutions mark with. -/
inductive Tile
  | X
  | O
  | L
  deriving DecidableEq, Repr

variable {m n : ℕ}

/-- A board with at least one row and one column. -/
abbrev Board (m n : ℕ) := Grid (m + 1) (n + 1) Tile

abbrev Pos (m n : ℕ) := Cell (m + 1) (n + 1)

/-! ## The first two solutions -/

def directions : List (ℤ × ℤ) := [(-1, 0), (1, 0), (0, -1), (0, 1)]

def dfs : ℕ → Board m n → Pos m n → Option (Board m n)
  | 0, _, _ => none
  | fuel + 1, board, p =>
    (neighbours directions p).foldlM (fun board q => if board.get q = .O then dfs fuel board q else some board)
      (board.set p .L)

/-- A round of `while queue`; a cell can be in the queue more than once. -/
def bfsRound : Board m n × List (Pos m n) → Round (Board m n × List (Pos m n)) (Board m n)
  | (board, []) => .leave board
  | (board, p :: queue) =>
    let board := board.set p .L
    .again (board, queue ++ (neighbours directions p).filter fun q => board.get q = .O)

def bfs (fuel : ℕ) (board : Board m n) (p : Pos m n) : Option (Board m n) := loop bfsRound fuel (board, [p])

/-- The cells of the border in the order of the two loops over it, the corners twice. -/
def border (m n : ℕ) : List (Pos m n) :=
  ((List.finRange (n + 1)).flatMap fun i => [(0, i), (Fin.last m, i)]) ++
    (List.finRange (m + 1)).flatMap fun j => [(j, 0), (j, Fin.last n)]

/-- `'O'` becomes `'X'`, and then `'L'` becomes `'O'`. -/
def restore (t : Tile) : Tile :=
  let t := if t = .O then .X else t
  if t = .L then .O else t

/-- The two solutions have everything in common but the search. -/
def solveWith (search : ℕ → Board m n → Pos m n → Option (Board m n)) (fuel : ℕ) (board : Board m n) :
    Option (Board m n) :=
  ((border m n).foldlM (fun board p => if board.get p = .O then search fuel board p else some board) board).map
    fun board => (cells (m + 1) (n + 1)).foldl (fun board p => board.set p (restore (board.get p))) board

def Solution1.solve (fuel : ℕ) (board : Board m n) : Option (Board m n) := solveWith dfs fuel board

def Solution2.solve (fuel : ℕ) (board : Board m n) : Option (Board m n) := solveWith bfs fuel board

/-! ## What is to be computed -/

def openCells (board : Board m n) : Set (Pos m n) := {p | board.get p = .O}

def OnBorder (p : Pos m n) : Prop := p.1 = 0 ∨ p.1 = Fin.last m ∨ p.2 = 0 ∨ p.2 = Fin.last n

instance (p : Pos m n) : Decidable (OnBorder p) := inferInstanceAs (Decidable (_ ∨ _))

/-- The cell is open, and connected through open cells to an open one of the border. -/
def Safe (board : Board m n) (p : Pos m n) : Prop := Reach SharesSide (openCells board) {q | OnBorder q} p

/-- The board with the cells that are not safe taken. -/
def Solved (board result : Board m n) : Prop := ∀ p, result.get p ≠ .L ∧ (result.get p = .O ↔ Safe board p)

theorem Solved.unique {board result result' : Board m n} (h : Solved board result) (h' : Solved board result') :
    result = result' := by
  refine Grid.ext_get fun p => ?_
  obtain ⟨hL, hO⟩ := h p
  obtain ⟨hL', hO'⟩ := h' p
  have hiff := hO.trans hO'.symm
  cases ht : result.get p with
  | L => exact absurd ht hL
  | O => exact (hiff.1 ht).symm
  | X =>
    cases ht' : result'.get p with
    | L => exact absurd ht' hL'
    | O => exact ht.symm.trans (hiff.2 ht')
    | X => rfl

theorem mem_border (p : Pos m n) : p ∈ border m n ↔ OnBorder p := by
  obtain ⟨i, j⟩ := p
  simp only [border, OnBorder, List.mem_append, List.mem_flatMap, List.mem_finRange, true_and, List.mem_cons,
    List.not_mem_nil, or_false, Prod.mk.injEq]
  constructor
  · rintro (⟨k, ⟨h, -⟩ | ⟨h, -⟩⟩ | ⟨k, ⟨-, h⟩ | ⟨-, h⟩⟩)
    · exact Or.inl h
    · exact Or.inr (Or.inl h)
    · exact Or.inr (Or.inr (Or.inl h))
    · exact Or.inr (Or.inr (Or.inr h))
  · rintro (h | h | h | h)
    · exact Or.inl ⟨j, Or.inl ⟨h, rfl⟩⟩
    · exact Or.inl ⟨j, Or.inr ⟨h, rfl⟩⟩
    · exact Or.inr ⟨i, Or.inl ⟨rfl, h⟩⟩
    · exact Or.inr ⟨i, Or.inr ⟨rfl, h⟩⟩

theorem mem_neighbours_directions {p q : Pos m n} : q ∈ neighbours directions p ↔ SharesSide p q :=
  mem_neighbours (List.Perm.refl _)

/-! ## The two searches -/

theorem l_ne_o : Tile.L ≠ .O := nofun

/-- The depth-first search is a flood fill. -/
theorem dfs_eq : ∀ (fuel : ℕ) (board : Board m n) (p : Pos m n),
    dfs fuel board p = fillDepth directions .O .L fuel board p
  | 0, _, _ => rfl
  | fuel + 1, board, p => by simp only [dfs, fillDepth, dfs_eq fuel]

theorem dfs_returns (b : Board m n) (p : Pos m n) (hp : b.get p = .O) :
    ∃ b', Returns (fun fuel => dfs fuel b p) b' ∧ Floods .O .L b {p} b' := by
  simp only [dfs_eq]
  exact fillDepth_returns (List.Perm.refl _) l_ne_o b p hp

/-- The breadth-first search is a flood fill. -/
theorem bfsRound_eq (s : Board m n × List (Pos m n)) : bfsRound s = fillRound directions .O .L s := by
  obtain ⟨board, queue⟩ := s
  cases queue <;> rfl

theorem bfs_returns (b : Board m n) (p : Pos m n) (hp : b.get p = .O) :
    ∃ b', Returns (fun fuel => bfs fuel b p) b' ∧ Floods .O .L b {p} b' := by
  unfold bfs
  rw [funext bfsRound_eq]
  exact fillBreadth_returns (List.Perm.refl _) l_ne_o b p hp

/-! ## The two solutions -/

theorem solveWith_returns {search : ℕ → Board m n → Pos m n → Option (Board m n)}
    (hsearch : ∀ b p, b.get p = .O → ∃ b', Returns (fun fuel => search fuel b p) b' ∧ Floods .O .L b {p} b')
    {board : Board m n} (hboard : ∀ p, board.get p ≠ .L) :
    ∃ result, Returns (fun fuel => solveWith search fuel board) result ∧ Solved board result := by
  obtain ⟨b, hret, hflood⟩ := Floods.foldlM l_ne_o
    (fun fuel board p => if board.get p = .O then search fuel board p else some board) board
    (fun b' p _ => Floods.ite (hsearch b' p)) (border m n)
  refine ⟨_, hret.map _, fun p => ?_⟩
  have hsafe : board.get p = .O ∧ b.get p ≠ .O ↔ Safe board p := by
    have hset : {q | q ∈ border m n} = {q : Pos m n | OnBorder q} := by
      ext q
      exact mem_border q
    have hiff := hflood.flood.mem_iff p
    rw [hset] at hiff
    exact hiff
  rw [Grid.get_foldl_set restore _ _ nodup_cells, if_pos (mem_cells p), ← hsafe]
  rcases hflood.marks p with hp | ⟨hO, hL⟩
  · rw [hp]
    cases ht : board.get p with
    | X => decide
    | O => decide
    | L => exact absurd ht (hboard p)
  · rw [hL, hO]
    decide

end GoodGoodStudy.LeetCode.SurroundedRegions
