/-
The exercise 289, a step of the game of life in place. The first loop writes codes that still tell the old state of a
cell: -1 for one that was alive and dies, and 2 for one that was dead and comes to life. The second loop replaces them.
-/
import Mathlib.Data.Fintype.Prod
import GoodGoodStudy.Lib.Grid

namespace GoodGoodStudy.LeetCode.GameOfLife

open GoodGoodStudy.Lib

variable {r c : ℕ}

/-! ## The code -/

def neighbors : List (ℤ × ℤ) := [(1, 0), (1, -1), (0, -1), (-1, -1), (-1, 0), (-1, 1), (0, 1), (1, 1)]

/-- A round of the innermost loop: a cell that is or was alive is counted. -/
def look (board : Grid r c ℤ) (p : Cell r c) (live : ℕ) (neighbor : ℤ × ℤ) : ℕ :=
  match cell? r c (p.1 + neighbor.1) (p.2 + neighbor.2) with
  | some q => if (board.get q).natAbs = 1 then live + 1 else live
  | none => live

def liveNeighbors (board : Grid r c ℤ) (p : Cell r c) : ℕ := neighbors.foldl (look board p) 0

/-- A round of the first loop. -/
def mark (board : Grid r c ℤ) (p : Cell r c) : Grid r c ℤ :=
  let live := liveNeighbors board p
  let board := if board.get p = 1 ∧ (live < 2 ∨ live > 3) then board.set p (-1) else board
  if board.get p = 0 ∧ live = 3 then board.set p 2 else board

/-- A round of the second loop. -/
def update (board : Grid r c ℤ) (p : Cell r c) : Grid r c ℤ := board.set p (if board.get p > 0 then 1 else 0)

/-- The two loops, each in some order. -/
def step (first second : List (Cell r c)) (board : Grid r c ℤ) : Grid r c ℤ :=
  second.foldl update (first.foldl mark board)

/-- `none` is the error that there is no `board[0]`. -/
def gameOfLife (board : Grid r c ℤ) : Option (Grid r c ℤ) :=
  if r = 0 then none else some (step (cells r c) (cells r c) board)

example : gameOfLife (⟨#v[#v[0, 1, 0], #v[0, 1, 0], #v[0, 1, 0]]⟩ : Grid 3 3 ℤ) =
    some ⟨#v[#v[0, 0, 0], #v[1, 1, 1], #v[0, 0, 0]]⟩ := by decide +kernel

/-! ## The rules -/

/-- One of the up to eight cells around. -/
def Around (p q : Cell r c) : Prop :=
  q ≠ p ∧ ((q.1 : ℤ) - p.1).natAbs ≤ 1 ∧ ((q.2 : ℤ) - p.2).natAbs ≤ 1

instance (p q : Cell r c) : Decidable (Around p q) := inferInstanceAs (Decidable (_ ∧ _))

/-- The number of living cells around. -/
def alive (board : Grid r c ℤ) (p : Cell r c) : ℕ :=
  (Finset.univ.filter fun q => Around p q ∧ board.get q = 1).card

/-- A living cell lives on with two or three living cells around; a dead one comes to life with three. -/
def successor (board : Grid r c ℤ) (p : Cell r c) : ℤ :=
  if board.get p = 1 then if alive board p = 2 ∨ alive board p = 3 then 1 else 0
  else if alive board p = 3 then 1 else 0

/-! ## The cells around -/

theorem mem_neighbours_neighbors {p q : Cell r c} : q ∈ neighbours neighbors p ↔ Around p q := by
  rw [mem_neighbours_iff]
  unfold Around neighbors
  rw [ne_eq, cell_eq_iff]
  simp only [List.mem_cons, List.not_mem_nil, or_false, exists_eq_or_imp, exists_eq_left]
  omega

theorem nodup_neighbours {dirs : List (ℤ × ℤ)} (h : dirs.Nodup) (p : Cell r c) : (neighbours dirs p).Nodup := by
  refine h.filterMap fun d d' q hq hq' => ?_
  obtain ⟨h₁, h₂⟩ := cell?_eq_some.1 hq
  obtain ⟨h₁', h₂'⟩ := cell?_eq_some.1 hq'
  exact Prod.ext (by omega) (by omega)

theorem foldl_look (board : Grid r c ℤ) (p : Cell r c) (dirs : List (ℤ × ℤ)) (live : ℕ) :
    dirs.foldl (look board p) live = live + (neighbours dirs p).countP fun q => (board.get q).natAbs = 1 := by
  induction dirs generalizing live with
  | nil => rfl
  | cons d dirs ih =>
    rw [List.foldl_cons, ih]
    unfold neighbours look
    rcases hq : cell? r c (p.1 + d.1) (p.2 + d.2) with _ | q
    · simp only [List.filterMap_cons, hq]
    · simp only [List.filterMap_cons, hq, List.countP_cons, decide_eq_true_eq]
      split_ifs <;> omega

/-- The codes tell which cells were alive. -/
def Tells (board codes : Grid r c ℤ) : Prop := ∀ p, (codes.get p).natAbs = 1 ↔ board.get p = 1

theorem Tells.liveNeighbors_eq {board codes : Grid r c ℤ} (h : Tells board codes) (p : Cell r c) :
    liveNeighbors codes p = alive board p := by
  rw [liveNeighbors, foldl_look, Nat.zero_add, List.countP_eq_length_filter,
    ← List.toFinset_card_of_nodup ((nodup_neighbours (by decide) p).filter _)]
  unfold alive
  congr 1
  ext q
  rw [List.mem_toFinset, List.mem_filter, mem_neighbours_neighbors, decide_eq_true_iff, h q, Finset.mem_filter,
    and_iff_right (Finset.mem_univ q)]

/-! ## The two loops -/

/-- What the first loop writes. -/
def code (board : Grid r c ℤ) (p : Cell r c) : ℤ :=
  if board.get p = 1 then if alive board p < 2 ∨ alive board p > 3 then -1 else 1
  else if alive board p = 3 then 2 else 0

theorem natAbs_code (board : Grid r c ℤ) (p : Cell r c) : (code board p).natAbs = 1 ↔ board.get p = 1 := by
  unfold code
  split_ifs with h <;> simp [h]

theorem code_pos_iff (board : Grid r c ℤ) (p : Cell r c) :
    (if code board p > 0 then 1 else 0) = successor board p := by
  unfold code successor
  split_ifs <;> omega

theorem mark_dead {codes : Grid r c ℤ} {p : Cell r c} (h : codes.get p = 0) :
    mark codes p = if liveNeighbors codes p = 3 then codes.set p 2 else codes := by
  unfold mark
  simp [h]

theorem mark_alive {codes : Grid r c ℤ} {p : Cell r c} (h : codes.get p = 1) :
    mark codes p = if liveNeighbors codes p < 2 ∨ liveNeighbors codes p > 3 then codes.set p (-1) else codes := by
  unfold mark
  simp only [h, true_and]
  -- the code -1 that the first test writes is not the 0 that the second one asks for
  split_ifs with hlive hset hset
  · rw [Grid.get_set, if_pos rfl] at hset
    exact absurd hset.1 (by decide)
  · rfl
  · exact absurd (h.symm.trans hset.1) (by decide)
  · rfl

/-- A round writes the code, if the cell has still its old state. -/
theorem get_mark {board codes : Grid r c ℤ} (h : Tells board codes) {p : Cell r c} (hp : codes.get p = board.get p)
    (h01 : board.get p = 0 ∨ board.get p = 1) (q : Cell r c) :
    (mark codes p).get q = if q = p then code board p else codes.get q := by
  have hsame : ∀ v, codes.get p = v → codes.get q = if q = p then v else codes.get q := fun v hv => by
    split_ifs with hq
    · rw [hq, hv]
    · rfl
  unfold code
  rcases h01 with h0 | h1
  · have hne : board.get p ≠ 1 := by omega
    rw [mark_dead (hp.trans h0), h.liveNeighbors_eq p, if_neg hne]
    by_cases hlive : alive board p = 3
    · rw [if_pos hlive, if_pos hlive]
      exact codes.get_set p q 2
    · rw [if_neg hlive, if_neg hlive]
      exact hsame 0 (hp.trans h0)
  · rw [mark_alive (hp.trans h1), h.liveNeighbors_eq p, if_pos h1]
    by_cases hlive : alive board p < 2 ∨ alive board p > 3
    · rw [if_pos hlive, if_pos hlive]
      exact codes.get_set p q (-1)
    · rw [if_neg hlive, if_neg hlive]
      exact hsame 1 (hp.trans h1)

/-- The first loop, in any order: a round keeps what the codes tell, and the old state of the cells to come. -/
theorem get_foldl_mark {board : Grid r c ℤ} (h01 : ∀ p, board.get p = 0 ∨ board.get p = 1) {l : List (Cell r c)}
    (hl : l.Nodup) {codes : Grid r c ℤ} (h : Tells board codes) (hold : ∀ p ∈ l, codes.get p = board.get p)
    (q : Cell r c) : (l.foldl mark codes).get q = if q ∈ l then code board q else codes.get q := by
  induction l generalizing codes with
  | nil => rfl
  | cons p l ih =>
    obtain ⟨hp, hl⟩ := List.nodup_cons.1 hl
    have hget := get_mark h (hold p List.mem_cons_self) (h01 p)
    have htells : Tells board (mark codes p) := fun q => by
      rw [hget]
      split_ifs with hq
      · rw [hq]
        exact natAbs_code board p
      · exact h q
    have hrest : ∀ q ∈ l, (mark codes p).get q = board.get q := fun q hq => by
      rw [hget, if_neg (fun heq : q = p => hp (heq ▸ hq))]
      exact hold q (List.mem_cons_of_mem p hq)
    rw [List.foldl_cons, ih hl htells hrest, hget]
    by_cases hq : q = p
    · rw [hq, if_neg hp, if_pos rfl, if_pos List.mem_cons_self]
    · simp only [List.mem_cons, hq, false_or, if_false]

/-- Both loops, in any order of the cells. -/
theorem step_eq {board : Grid r c ℤ} (h01 : ∀ p, board.get p = 0 ∨ board.get p = 1) {first second : List (Cell r c)}
    (hfirst : first.Perm (cells r c)) (hsecond : second.Perm (cells r c)) :
    step first second board = Grid.ofFn (successor board) := by
  have htells : Tells board board := fun p => by
    rcases h01 p with h | h <;> simp [h]
  refine Grid.ext_get fun p => ?_
  unfold step update
  rw [Grid.get_foldl_set (fun v => if v > 0 then 1 else 0) second _ (hsecond.nodup_iff.2 nodup_cells),
    if_pos (hsecond.mem_iff.2 (mem_cells p)), get_foldl_mark h01 (hfirst.nodup_iff.2 nodup_cells) htells fun _ _ => rfl,
    if_pos (hfirst.mem_iff.2 (mem_cells p)), Grid.get_ofFn, ← code_pos_iff]

theorem gameOfLife_eq (board : Grid r c ℤ) (hr : 0 < r) (h01 : ∀ p, board.get p = 0 ∨ board.get p = 1) :
    gameOfLife board = some (Grid.ofFn (successor board)) ∧
      ∀ first second : List (Cell r c), first.Perm (cells r c) → second.Perm (cells r c) →
        step first second board = Grid.ofFn (successor board) := by
  refine ⟨?_, fun first second hfirst hsecond => step_eq h01 hfirst hsecond⟩
  unfold gameOfLife
  rw [if_neg hr.ne', step_eq h01 (List.Perm.refl _) (List.Perm.refl _)]

theorem gameOfLife_eq_row : gameOfLife (⟨#v[#v[1, 1, 1]]⟩ : Grid 1 3 ℤ) =
      some (Grid.ofFn (successor (⟨#v[#v[1, 1, 1]]⟩ : Grid 1 3 ℤ))) ∧
    ∀ first second : List (Cell 1 3), first.Perm (cells 1 3) → second.Perm (cells 1 3) →
      step first second (⟨#v[#v[1, 1, 1]]⟩ : Grid 1 3 ℤ) =
        Grid.ofFn (successor (⟨#v[#v[1, 1, 1]]⟩ : Grid 1 3 ℤ)) :=
  gameOfLife_eq ⟨#v[#v[1, 1, 1]]⟩ Nat.one_pos (by decide)

end GoodGoodStudy.LeetCode.GameOfLife
