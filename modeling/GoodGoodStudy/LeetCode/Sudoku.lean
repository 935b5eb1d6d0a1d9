/-
`solveSudoku` of the exercise 37. A depth-first search over the blank cells in the order of the rows, with tables of the
digits that each row, column and block has. A choice is undone in the tables when the search comes back, but not on the
board: what the search leaves on a board that it cannot complete is the last digit that it has tried in each cell.
-/
import Mathlib.Data.Fintype.EquivFin
import Mathlib.Data.Fintype.Prod
import GoodGoodStudy.Lib.Grid
import GoodGoodStudy.Lib.Loop

namespace GoodGoodStudy.LeetCode.Sudoku

open GoodGoodStudy.Lib

/-- `'.'`, or the text of `d + 1`. -/
inductive Tile
  | blank
  | digit (d : Fin 9)
  deriving DecidableEq, Repr

abbrev Board := Grid 9 9 Tile

abbrev Pos := Cell 9 9

/-- The block of a cell, `(i // 3, j // 3)`. -/
def block (p : Pos) : Cell 3 3 := (⟨p.1 / 3, by omega⟩, ⟨p.2 / 3, by omega⟩)

/-! ## The search -/

/-- The board, the tables of the digits that are used, and `self.flag`. -/
structure State where
  board : Board
  raw : Grid 9 9 Bool := .replicate 9 9 false
  col : Grid 9 9 Bool := .replicate 9 9 false
  blocks : Grid 3 3 (Vector Bool 9) := .replicate 3 3 (.replicate 9 false)
  flag : Bool := false

namespace State

def free (s : State) (p : Pos) (d : Fin 9) : Bool :=
  !s.raw.get (p.1, d) && !s.col.get (d, p.2) && !(s.blocks.get (block p))[d]

/-- The entries of a cell and a digit in the three tables are set. -/
def mark (s : State) (p : Pos) (d : Fin 9) (used : Bool) : State :=
  { s with
    raw := s.raw.set (p.1, d) used
    col := s.col.set (d, p.2) used
    blocks := s.blocks.set (block p) ((s.blocks.get (block p)).set d used) }

def write (s : State) (p : Pos) (d : Fin 9) : State := { s with board := s.board.set p (.digit d) }

end State

/-- The body of the loop over the digits for a cell; `search` is the call for the next cell. -/
def tryDigit (search : State → State) (p : Pos) (d : Fin 9) (s : State) : State :=
  if s.free p d then (search ((s.mark p d true).write p d)).mark p d false else s

/-- The loop; it returns when the flag is raised. -/
def tryDigits (search : State → State) (p : Pos) : List (Fin 9) → State → State
  | [], s => s
  | d :: digits, s =>
    let s := tryDigit search p d s
    if s.flag then s else tryDigits search p digits s

/-- `dfs(depth)`, with the cells from that depth on. -/
def dfs : List Pos → State → State
  | [], s => { s with flag := true }
  | p :: spaces, s => tryDigits (dfs spaces) p (List.finRange 9) s

/-- The blank cells, and the tables of the given digits. -/
def setUp (board : Board) : List Pos × State :=
  (cells 9 9).foldl (fun (spaces, s) p =>
    match board.get p with
    | .blank => (spaces ++ [p], s)
    | .digit d => (spaces, s.mark p d true)) ([], { board })

/-- The board after the call. -/
def solveSudoku (board : Board) : Board :=
  let (spaces, s) := setUp board
  (dfs spaces s).board

/-! ## Completions -/

/-- Two cells in one row, one column or one block. -/
def SameUnit (p q : Pos) : Prop := p.1 = q.1 ∨ p.2 = q.2 ∨ block p = block q

instance (p q : Pos) : Decidable (SameUnit p q) := inferInstanceAs (Decidable (_ ∨ _))

theorem SameUnit.symm {p q : Pos} (h : SameUnit p q) : SameUnit q p :=
  h.imp Eq.symm (Or.imp Eq.symm Eq.symm)

/-- No digit is given twice in a row, a column or a block. -/
def NoConflict (board : Board) : Prop :=
  ∀ p q d, p ≠ q → SameUnit p q → board.get p = .digit d → board.get q ≠ .digit d

/-- The given digits stay, no cell is blank, and every row, column and block has each digit exactly once. -/
structure IsCompletion (board result : Board) : Prop where
  given : ∀ p d, board.get p = .digit d → result.get p = .digit d
  full : ∀ p, result.get p ≠ .blank
  row : ∀ i d, ∃! j, result.get (i, j) = .digit d
  column : ∀ j d, ∃! i, result.get (i, j) = .digit d
  block : ∀ b d, ∃! p, block p = b ∧ result.get p = .digit d

theorem exists_digit {t : Tile} (h : t ≠ .blank) : ∃ d, t = .digit d := by
  cases t with
  | blank => exact absurd rfl h
  | digit d => exact ⟨d, rfl⟩

/-- Nine cells that are filled without a conflict have each digit exactly once. -/
theorem existsUnique_digit {result : Board} (hfull : ∀ p, result.get p ≠ .blank) (h : NoConflict result)
    (cell : Fin 9 → Pos) (hinj : Function.Injective cell) (hunit : ∀ k l, SameUnit (cell k) (cell l)) (d : Fin 9) :
    ∃! k, result.get (cell k) = .digit d := by
  choose e he using fun k => exists_digit (hfull (cell k))
  have hbij : Function.Bijective e := by
    refine Finite.injective_iff_bijective.1 fun k l hkl => ?_
    by_contra hne
    exact h (cell k) (cell l) (e k) (fun heq => hne (hinj heq)) (hunit k l) (he k) (by rw [hkl, he l])
  obtain ⟨k, rfl, huniq⟩ := hbij.existsUnique d
  refine ⟨k, he k, fun l hl => huniq l ?_⟩
  have hdigit := (he l).symm.trans hl
  exact Tile.digit.inj hdigit

/-- The cells of a block. -/
def blockCell (b : Cell 3 3) (k : Fin 9) : Pos := (⟨3 * b.1 + k / 3, by omega⟩, ⟨3 * b.2 + k % 3, by omega⟩)

theorem block_blockCell (b : Cell 3 3) (k : Fin 9) : block (blockCell b k) = b := by
  refine Prod.ext (Fin.ext ?_) (Fin.ext ?_)
  · show (3 * (b.1 : ℕ) + k / 3) / 3 = b.1
    omega
  · show (3 * (b.2 : ℕ) + k % 3) / 3 = b.2
    omega

theorem blockCell_injective (b : Cell 3 3) : Function.Injective (blockCell b) := by
  intro k l h
  have hrow := congrArg (fun p : Pos => (p.1 : ℕ)) h
  have hcol := congrArg (fun p : Pos => (p.2 : ℕ)) h
  simp only [blockCell] at hrow hcol
  exact Fin.ext (by omega)

theorem exists_blockCell (p : Pos) : ∃ k, blockCell (block p) k = p := by
  refine ⟨⟨3 * (p.1 % 3) + p.2 % 3, by omega⟩, Prod.ext (Fin.ext ?_) (Fin.ext ?_)⟩
  · show 3 * ((p.1 : ℕ) / 3) + (3 * ((p.1 : ℕ) % 3) + p.2 % 3) / 3 = p.1
    omega
  · show 3 * ((p.2 : ℕ) / 3) + (3 * ((p.1 : ℕ) % 3) + p.2 % 3) % 3 = p.2
    omega

theorem isCompletion_iff {board result : Board} : IsCompletion board result ↔
    (∀ p d, board.get p = .digit d → result.get p = .digit d) ∧ (∀ p, result.get p ≠ .blank) ∧ NoConflict result := by
  constructor
  · intro h
    refine ⟨h.given, h.full, fun p q d hne hunit hp hq => hne ?_⟩
    obtain ⟨i, j⟩ := p
    obtain ⟨k, l⟩ := q
    rcases hunit with hrow | hcol | hblock
    · obtain rfl : i = k := hrow
      exact Prod.ext rfl ((h.row i d).unique hp hq)
    · obtain rfl : j = l := hcol
      exact Prod.ext ((h.column j d).unique hp hq) rfl
    · exact (h.block _ d).unique ⟨hblock, hp⟩ ⟨rfl, hq⟩
  · rintro ⟨hgiven, hfull, h⟩
    refine ⟨hgiven, hfull, fun i d => ?_, fun j d => ?_, fun b d => ?_⟩
    · exact existsUnique_digit hfull h (fun j => (i, j)) (fun _ _ heq => (Prod.ext_iff.1 heq).2)
        (fun _ _ => Or.inl rfl) d
    · exact existsUnique_digit hfull h (fun i => (i, j)) (fun _ _ heq => (Prod.ext_iff.1 heq).1)
        (fun _ _ => Or.inr (Or.inl rfl)) d
    · obtain ⟨k, hk, huniq⟩ := existsUnique_digit hfull h (blockCell b) (blockCell_injective b)
        (fun k l => Or.inr (Or.inr (by rw [block_blockCell, block_blockCell]))) d
      refine ⟨blockCell b k, ⟨block_blockCell b k, hk⟩, ?_⟩
      rintro p ⟨rfl, hp⟩
      obtain ⟨l, hl⟩ := exists_blockCell p
      have hlk : l = k := huniq l (show result.get (blockCell (block p) l) = _ by rw [hl, hp])
      rw [← hlk, hl]

/-! ## Tables -/

namespace State

/-- The tables say which digits occur in the units of a cell, the cells of the list left out. -/
def Tables (s : State) (todo : List Pos) : Prop :=
  ∀ p d, s.free p d = true ↔ ∀ q, q ∉ todo → SameUnit p q → s.board.get q ≠ .digit d

structure SameTables (s s' : State) : Prop where
  raw : s'.raw = s.raw
  col : s'.col = s.col
  blocks : s'.blocks = s.blocks

@[simp] theorem mark_board (s : State) (p : Pos) (d : Fin 9) (used : Bool) : (s.mark p d used).board = s.board := rfl

theorem SameTables.trans {s₁ s₂ s₃ : State} (h₁ : SameTables s₁ s₂) (h₂ : SameTables s₂ s₃) : SameTables s₁ s₃ :=
  ⟨h₂.raw.trans h₁.raw, h₂.col.trans h₁.col, h₂.blocks.trans h₁.blocks⟩

theorem SameTables.free {s s' : State} (h : SameTables s s') (p : Pos) (d : Fin 9) : s'.free p d = s.free p d := by
  rw [State.free, State.free, h.raw, h.col, h.blocks]

theorem free_iff {s : State} {p : Pos} {d : Fin 9} : s.free p d = true ↔
    s.raw.get (p.1, d) = false ∧ s.col.get (d, p.2) = false ∧ (s.blocks.get (block p))[d] = false := by
  simp only [State.free, Bool.and_eq_true, Bool.not_eq_true', and_assoc]

theorem get_mark_blocks (s : State) (p : Pos) (d : Fin 9) (used : Bool) (b : Cell 3 3) (e : Fin 9) :
    ((s.mark p d used).blocks.get b)[e] = if b = block p ∧ e = d then used else (s.blocks.get b)[e] := by
  rw [mark, Grid.get_set]
  by_cases hb : b = block p
  · subst hb
    rw [if_pos rfl]
    by_cases he : e = d
    · subst he
      simp
    · have hne : (d : ℕ) ≠ e := fun heq => he (Fin.ext heq.symm)
      simp [he, hne]
  · rw [if_neg hb, if_neg fun h => hb h.1]

theorem free_mark {s : State} {p q : Pos} {d e : Fin 9} :
    (s.mark p d true).free q e = true ↔ s.free q e = true ∧ ¬ (e = d ∧ SameUnit q p) := by
  rw [free_iff, free_iff, get_mark_blocks]
  simp only [mark, Grid.get_set, SameUnit, Prod.mk.injEq]
  by_cases he : e = d
  · subst he
    simp only [and_true, true_and, not_or]
    split_ifs <;> simp_all
  · simp only [he, and_false, false_and, if_false, not_false_eq_true, and_true]

/-- To undo a choice that the tables allowed. -/
theorem SameTables.unmark {s s' : State} {p : Pos} {d : Fin 9} (hfree : s.free p d = true)
    (h : SameTables (s.mark p d true) s') : SameTables s (s'.mark p d false) := by
  obtain ⟨hraw, hcol, hblock⟩ := free_iff.1 hfree
  refine ⟨?_, ?_, ?_⟩
  · show s'.raw.set (p.1, d) false = s.raw
    rw [h.raw, ← hraw]
    exact Grid.set_get_self _ _ _
  · show s'.col.set (d, p.2) false = s.col
    rw [h.col, ← hcol]
    exact Grid.set_get_self _ _ _
  · show s'.blocks.set (block p) ((s'.blocks.get (block p)).set d false) = s.blocks
    have hset : ((s.blocks.get (block p)).set d true).set d false = s.blocks.get (block p) := by
      rw [Vector.set_set, ← hblock]
      exact Vector.set_getElem_self _
    have hget : s'.blocks.get (block p) = (s.blocks.get (block p)).set d true := by
      rw [h.blocks, mark, Grid.get_set, if_pos rfl]
    rw [hget, hset, h.blocks]
    exact Grid.set_get_self _ _ _

theorem SameTables.tables {s s' : State} (h : SameTables s s') {todo : List Pos}
    (hboard : ∀ q ∉ todo, s'.board.get q = s.board.get q) (ht : s.Tables todo) : s'.Tables todo := by
  intro p d
  rw [h.free, ht p d]
  exact forall_congr' fun q => forall_congr' fun hq => by rw [hboard q hq]

/-- A cell that gets a digit counts as filled. -/
theorem Tables.choose {s : State} {p : Pos} {todo : List Pos} (ht : s.Tables (p :: todo)) (hp : p ∉ todo) (d : Fin 9) :
    ((s.mark p d true).write p d).Tables todo := by
  intro q e
  show (s.mark p d true).free q e = true ↔ ∀ r ∉ todo, SameUnit q r → (s.board.set p (.digit d)).get r ≠ .digit e
  rw [free_mark, ht q e]
  constructor
  · rintro ⟨hfree, hnot⟩ r hr hunit
    rw [Grid.get_set]
    by_cases hrp : r = p
    · subst hrp
      rw [if_pos rfl]
      exact fun heq => hnot ⟨(Tile.digit.inj heq).symm, hunit⟩
    · rw [if_neg hrp]
      exact hfree r (by simp [hrp, hr]) hunit
  · intro h
    refine ⟨fun r hr hunit => ?_, ?_⟩
    · have hrp := List.ne_of_not_mem_cons hr
      have hne := h r (List.not_mem_of_not_mem_cons hr) hunit
      rwa [Grid.get_set, if_neg hrp] at hne
    · rintro ⟨rfl, hunit⟩
      exact h p hp hunit (by rw [Grid.get_set, if_pos rfl])

end State

/-! ## What a call finds -/

/-- The board with the cells of the list filled, each without a conflict. -/
structure Extends (board : Board) (todo : List Pos) (result : Board) : Prop where
  same : ∀ p ∉ todo, result.get p = board.get p
  full : ∀ p ∈ todo, ∃ d, result.get p = .digit d
  fits : ∀ p ∈ todo, ∀ q d, q ≠ p → SameUnit p q → result.get p = .digit d → result.get q ≠ .digit d

theorem Extends.congr {board board' result : Board} {todo : List Pos} (h : Extends board todo result)
    (hboard : ∀ p ∉ todo, board.get p = board'.get p) : Extends board' todo result :=
  ⟨fun p hp => (h.same p hp).trans (hboard p hp), h.full, h.fits⟩

open State

/-- One cell is filled first, with a digit that the tables allow. -/
theorem extends_cons_iff {s : State} {p : Pos} {todo : List Pos} {result : Board} (ht : s.Tables (p :: todo))
    (hp : p ∉ todo) (d : Fin 9) : Extends s.board (p :: todo) result ∧ result.get p = .digit d ↔
      s.free p d = true ∧ Extends (s.board.set p (.digit d)) todo result := by
  constructor
  · rintro ⟨h, hd⟩
    refine ⟨(ht p d).2 fun q hq hunit => ?_, fun q hq => ?_, fun q hq => h.full q (List.mem_cons_of_mem p hq),
      fun q hq => h.fits q (List.mem_cons_of_mem p hq)⟩
    · rw [← h.same q hq]
      exact h.fits p List.mem_cons_self q d (List.ne_of_not_mem_cons hq) hunit hd
    · rw [Grid.get_set]
      by_cases hqp : q = p
      · rw [if_pos hqp, hqp, hd]
      · rw [if_neg hqp]
        exact h.same q (by simp [hqp, hq])
  · rintro ⟨hfree, h⟩
    have hd : result.get p = .digit d := by rw [h.same p hp, Grid.get_set, if_pos rfl]
    have hsame : ∀ q ∉ p :: todo, result.get q = s.board.get q := by
      intro q hq
      rw [h.same q (List.not_mem_of_not_mem_cons hq), Grid.get_set, if_neg (List.ne_of_not_mem_cons hq)]
    refine ⟨⟨hsame, fun q hq => ?_, fun q hq r e hne hunit hqe => ?_⟩, hd⟩
    · rcases List.mem_cons.1 hq with rfl | hq
      · exact ⟨d, hd⟩
      · exact h.full q hq
    · rcases List.mem_cons.1 hq with rfl | hq
      · obtain rfl : d = e := Tile.digit.inj (hd.symm.trans hqe)
        by_cases hr : r ∈ todo
        · exact fun hre => h.fits r hr q d (Ne.symm hne) hunit.symm hre hqe
        · rw [hsame r (by simp [hne, hr])]
          exact (ht q d).1 hfree r (by simp [hne, hr]) hunit
      · exact h.fits q hq r e hne hunit hqe

/-- The state after a search for the cells of the list: the tables are as before, and so is the board outside these
cells; a raised flag says that the board is filled, and no flag that it cannot be filled. -/
structure Searched (s : State) (todo : List Pos) (s' : State) : Prop where
  tables : SameTables s s'
  same : ∀ p ∉ todo, s'.board.get p = s.board.get p
  found : s'.flag = true → Extends s.board todo s'.board
  exhausted : s'.flag = false → ∀ result, ¬ Extends s.board todo result

/-- The same for the loop over some of the digits of a cell. -/
structure Tried (s : State) (p : Pos) (todo : List Pos) (digits : List (Fin 9)) (s' : State) : Prop where
  tables : SameTables s s'
  same : ∀ q ∉ p :: todo, s'.board.get q = s.board.get q
  found : s'.flag = true → Extends s.board (p :: todo) s'.board
  exhausted : s'.flag = false → ∀ d ∈ digits, ∀ result, Extends s.board (p :: todo) result → result.get p ≠ .digit d

theorem Tried.nil {s : State} {p : Pos} {todo : List Pos} (hflag : s.flag = false) : Tried s p todo [] s :=
  ⟨⟨rfl, rfl, rfl⟩, fun _ _ => rfl, fun h => absurd (hflag.symm.trans h) Bool.false_ne_true,
    fun _ _ hd => absurd hd List.not_mem_nil⟩

theorem Tried.trans {s s₁ s₂ : State} {p : Pos} {todo : List Pos} {digits₁ digits₂ : List (Fin 9)}
    (h₁ : Tried s p todo digits₁ s₁) (hflag : s₁.flag = false) (h₂ : Tried s₁ p todo digits₂ s₂) :
    Tried s p todo (digits₁ ++ digits₂) s₂ := by
  refine ⟨h₁.tables.trans h₂.tables, fun q hq => (h₂.same q hq).trans (h₁.same q hq), fun hf => ?_, fun hf d hd => ?_⟩
  · exact (h₂.found hf).congr h₁.same
  · intro result hext
    rcases List.mem_append.1 hd with hd | hd
    · exact h₁.exhausted hflag d hd result hext
    · exact h₂.exhausted hf d hd result (hext.congr fun q hq => (h₁.same q hq).symm)

section Try

variable {search : State → State} {p : Pos} {todo : List Pos} (hp : p ∉ todo)
  (hsearch : ∀ s : State, s.flag = false → s.Tables todo → Searched s todo (search s))
include hp hsearch

theorem tryDigit_tried (d : Fin 9) {s : State} (hflag : s.flag = false) (ht : s.Tables (p :: todo)) :
    Tried s p todo [d] (tryDigit search p d s) := by
  unfold tryDigit
  split_ifs with hfree
  · have h := hsearch ((s.mark p d true).write p d) hflag (ht.choose hp d)
    have htables : SameTables (s.mark p d true) (search ((s.mark p d true).write p d)) :=
      ⟨h.tables.raw, h.tables.col, h.tables.blocks⟩
    refine ⟨htables.unmark hfree, fun q hq => ?_, fun hf => ?_, fun hf e he result hext hres => ?_⟩
    · rw [mark_board, h.same q (List.not_mem_of_not_mem_cons hq)]
      exact (Grid.get_set _ _ _ _).trans (if_neg (List.ne_of_not_mem_cons hq))
    · exact ((extends_cons_iff ht hp d).2 ⟨hfree, h.found hf⟩).1
    · rw [List.mem_singleton.1 he] at hres
      exact h.exhausted hf result ((extends_cons_iff ht hp d).1 ⟨hext, hres⟩).2
  · refine ⟨⟨rfl, rfl, rfl⟩, fun _ _ => rfl, fun h => absurd (hflag.symm.trans h) Bool.false_ne_true,
      fun _ e he result hext hres => hfree ?_⟩
    rw [List.mem_singleton.1 he] at hres
    exact ((extends_cons_iff ht hp d).1 ⟨hext, hres⟩).1

theorem tryDigits_tried (digits : List (Fin 9)) {s : State} (hflag : s.flag = false) (ht : s.Tables (p :: todo)) :
    Tried s p todo digits (tryDigits search p digits s) := by
  induction digits generalizing s with
  | nil => exact .nil hflag
  | cons d digits ih =>
    have h := tryDigit_tried hp hsearch d hflag ht
    rw [tryDigits]
    split_ifs with hf
    · exact ⟨h.tables, h.same, h.found, fun hf' => absurd (hf'.symm.trans hf) Bool.false_ne_true⟩
    · rw [Bool.not_eq_true] at hf
      exact h.trans hf (ih hf (h.tables.tables h.same ht))

theorem tryDigit_writes {d : Fin 9} {s : State} (hflag : s.flag = false) (ht : s.Tables (p :: todo))
    (hfree : s.free p d = true) : (tryDigit search p d s).board.get p = .digit d := by
  rw [tryDigit, if_pos hfree, mark_board, (hsearch ((s.mark p d true).write p d) hflag (ht.choose hp d)).same p hp]
  exact (Grid.get_set _ _ _ _).trans (if_pos rfl)

/-- A cell for which some digit is allowed is not blank after the loop. -/
theorem tryDigits_writes (digits : List (Fin 9)) {s : State} (hflag : s.flag = false) (ht : s.Tables (p :: todo))
    (h : s.board.get p ≠ .blank ∨ ∃ d ∈ digits, s.free p d = true) :
    (tryDigits search p digits s).board.get p ≠ .blank := by
  induction digits generalizing s with
  | nil => exact h.elim id fun ⟨d, hd, _⟩ => absurd hd List.not_mem_nil
  | cons d digits ih =>
    have htried := tryDigit_tried hp hsearch d hflag ht
    have hfilled : (tryDigit search p d s).board.get p ≠ .blank ∨ ∃ e ∈ digits, s.free p e = true := by
      by_cases hfree : s.free p d = true
      · rw [tryDigit_writes hp hsearch hflag ht hfree]
        exact Or.inl nofun
      · rw [tryDigit, if_neg hfree]
        refine h.imp id fun ⟨e, he, hfe⟩ => ⟨e, ?_, hfe⟩
        rcases List.mem_cons.1 he with rfl | he
        · exact absurd hfe hfree
        · exact he
    rw [tryDigits]
    split_ifs with hf
    · -- the loop ends with a filled board
      obtain ⟨e, he⟩ := (htried.found hf).full p List.mem_cons_self
      rw [he]
      nofun
    · rw [Bool.not_eq_true] at hf
      refine ih hf (htried.tables.tables htried.same ht) ?_
      simp only [htried.tables.free]
      exact hfilled

end Try

/-- Nothing happens in a cell for which no digit is allowed. -/
theorem tryDigits_of_not_free {search : State → State} {p : Pos} {s : State} (hflag : s.flag = false)
    (digits : List (Fin 9)) (h : ∀ d ∈ digits, s.free p d = false) : tryDigits search p digits s = s := by
  induction digits with
  | nil => rfl
  | cons d digits ih =>
    have hfree : ¬ s.free p d = true := by rw [h d List.mem_cons_self]; exact Bool.false_ne_true
    have hskip : tryDigit search p d s = s := if_neg hfree
    rw [tryDigits, hskip, hflag]
    exact ih fun e he => h e (List.mem_cons_of_mem d he)

/-- A call for cells that are all different. -/
theorem dfs_searched {todo : List Pos} (hnodup : todo.Nodup) {s : State} (hflag : s.flag = false)
    (ht : s.Tables todo) : Searched s todo (dfs todo s) := by
  induction todo generalizing s with
  | nil =>
    exact ⟨⟨rfl, rfl, rfl⟩, fun _ _ => rfl,
      fun _ => ⟨fun _ _ => rfl, fun _ h => absurd h List.not_mem_nil, fun _ h => absurd h List.not_mem_nil⟩,
      fun h => absurd h.symm Bool.false_ne_true⟩
  | cons p todo ih =>
    obtain ⟨hp, hnodup⟩ := List.nodup_cons.1 hnodup
    have h := tryDigits_tried hp (fun s hflag ht => ih hnodup hflag ht) (List.finRange 9) hflag ht
    refine ⟨h.tables, h.same, h.found, fun hf result hext => ?_⟩
    obtain ⟨d, hd⟩ := hext.full p List.mem_cons_self
    exact h.exhausted hf d (List.mem_finRange d) result hext hd

/-! ## The whole search -/

def blanks (board : Board) : List Pos := (cells 9 9).filter fun p => board.get p = .blank

theorem mem_blanks {board : Board} {p : Pos} : p ∈ blanks board ↔ board.get p = .blank := by
  rw [blanks, List.mem_filter, decide_eq_true_iff, and_iff_right (mem_cells p)]

/-- What the loop over the board has found in the cells that it has passed. -/
structure Scanned (board : Board) (passed : List Pos) (r : List Pos × State) : Prop where
  spaces : r.1 = passed.filter fun p => board.get p = .blank
  same : r.2.board = board
  flag : r.2.flag = false
  free : ∀ p d, r.2.free p d = true ↔ ∀ q ∈ passed, SameUnit p q → board.get q ≠ .digit d

namespace Scanned

variable {board : Board} {passed spaces : List Pos} {s : State}

theorem blank (h : Scanned board passed (spaces, s)) {r : Pos} (hr : board.get r = .blank) :
    Scanned board (passed ++ [r]) (spaces ++ [r], s) := by
  refine ⟨?_, h.same, h.flag, fun p d => ?_⟩
  · rw [List.filter_append, ← h.spaces]
    simp [hr]
  · rw [h.free p d, List.forall_mem_append, List.forall_mem_singleton, hr]
    exact (and_iff_left fun _ => nofun).symm

theorem digit (h : Scanned board passed (spaces, s)) {r : Pos} {e : Fin 9} (hr : board.get r = .digit e) :
    Scanned board (passed ++ [r]) (spaces, s.mark r e true) := by
  refine ⟨?_, h.same, h.flag, fun p d => ?_⟩
  · rw [List.filter_append, ← h.spaces]
    simp [hr]
  · rw [free_mark, h.free p d, List.forall_mem_append, List.forall_mem_singleton, hr]
    refine and_congr_right fun _ => ?_
    constructor
    · exact fun h hunit heq => h ⟨(Tile.digit.inj heq).symm, hunit⟩
    · exact fun h ⟨heq, hunit⟩ => h hunit (congrArg Tile.digit heq.symm)

end Scanned

theorem scanned_setUp (board : Board) : Scanned board (cells 9 9) (setUp board) := by
  refine foldl_mem (P := Scanned board) (cells 9 9) (fun passed r _ s h => ?_) [] ⟨rfl, rfl, rfl, fun p d => ?_⟩
  · obtain ⟨spaces, s⟩ := s
    show Scanned board (passed ++ [r]) (match board.get r with
      | .blank => (spaces ++ [r], s)
      | .digit d => (spaces, s.mark r d true))
    cases hr : board.get r with
    | blank => exact h.blank hr
    | digit e => exact h.digit hr
  · simp [State.free]

theorem setUp_spec (board : Board) : ∃ s, setUp board = (blanks board, s) ∧ s.board = board ∧ s.flag = false ∧
    s.Tables (blanks board) := by
  have h := scanned_setUp board
  refine ⟨(setUp board).2, Prod.ext h.spaces rfl, h.same, h.flag, fun p d => (h.free p d).trans ?_⟩
  rw [h.same]
  refine forall_congr' fun q => ⟨fun h _ => h (mem_cells q), fun h _ hunit heq => ?_⟩
  exact h (fun hblank => by rw [mem_blanks.1 hblank] at heq; cases heq) hunit heq

/-- To fill the blank cells without a conflict is to complete the board, if the given digits do not conflict. -/
theorem extends_blanks_iff {board result : Board} (hboard : NoConflict board) :
    Extends board (blanks board) result ↔ IsCompletion board result := by
  rw [isCompletion_iff]
  constructor
  · intro h
    have hgiven : ∀ p, board.get p ≠ .blank → result.get p = board.get p :=
      fun p hp => h.same p fun hmem => hp (mem_blanks.1 hmem)
    refine ⟨fun p d hp => ?_, fun p hp => ?_, fun p q d hne hunit hp hq => ?_⟩
    · rw [hgiven p (by rw [hp]; nofun), hp]
    · by_cases hblank : board.get p = .blank
      · obtain ⟨d, hd⟩ := h.full p (mem_blanks.2 hblank)
        rw [hp] at hd
        cases hd
      · exact hblank ((hgiven p hblank).symm.trans hp)
    · by_cases hpb : board.get p = .blank
      · exact h.fits p (mem_blanks.2 hpb) q d (Ne.symm hne) hunit hp hq
      · by_cases hqb : board.get q = .blank
        · exact h.fits q (mem_blanks.2 hqb) p d hne hunit.symm hq hp
        · exact hboard p q d hne hunit ((hgiven p hpb).symm.trans hp) ((hgiven q hqb).symm.trans hq)
  · rintro ⟨hgiven, hfull, h⟩
    refine ⟨fun p hp => ?_, fun p _ => exists_digit (hfull p), fun p _ q d hne hunit => h p q d (Ne.symm hne) hunit⟩
    obtain ⟨d, hd⟩ := exists_digit fun hblank => hp (mem_blanks.2 hblank)
    rw [hd, hgiven p d hd]

/-- The search completes the board if it can be completed. -/
theorem isCompletion_solveSudoku {board : Board} (h : ∃ result, IsCompletion board result) :
    IsCompletion board (solveSudoku board) := by
  obtain ⟨result, hresult⟩ := h
  have hboard : NoConflict board := fun p q d hne hunit hp hq =>
    (isCompletion_iff.1 hresult).2.2 p q d hne hunit (hresult.given p d hp) (hresult.given q d hq)
  obtain ⟨s, hs, rfl, hflag, ht⟩ := setUp_spec board
  have hsearched := dfs_searched (nodup_cells.filter _) hflag ht
  rw [← extends_blanks_iff hboard] at hresult ⊢
  rw [solveSudoku, hs]
  cases hf : (dfs (blanks s.board) s).flag with
  | true => exact hsearched.found hf
  | false => exact absurd hresult (hsearched.exhausted hf result)

/-! ## What is left of a board that cannot be completed -/

def firstBlank (board : Board) : Option Pos := (cells 9 9).find? fun p => board.get p = .blank

/-- Every digit is given in the row, the column or the block of the first blank cell. -/
def FirstBlankTaken (board : Board) : Prop :=
  ∀ p, firstBlank board = some p → ∀ d, ∃ q, SameUnit p q ∧ board.get q = .digit d

theorem exists_firstBlank {board : Board} (hboard : NoConflict board) (h : ¬ ∃ result, IsCompletion board result) :
    ∃ p todo, firstBlank board = some p ∧ blanks board = p :: todo := by
  cases hblanks : blanks board with
  | nil =>
    refine absurd ⟨board, isCompletion_iff.2 ⟨fun _ _ => id, fun p hp => ?_, hboard⟩⟩ h
    have hmem := mem_blanks.2 hp
    rw [hblanks] at hmem
    exact List.not_mem_nil hmem
  | cons p todo =>
    refine ⟨p, todo, ?_, rfl⟩
    rw [firstBlank, ← List.head?_filter]
    exact congrArg List.head? hblanks

/-- The tables at the beginning. -/
theorem free_iff_not_taken {s : State} {p : Pos} {d : Fin 9} (ht : s.Tables (blanks s.board)) :
    s.free p d = true ↔ ¬ ∃ q, SameUnit p q ∧ s.board.get q = .digit d := by
  rw [ht p d]
  constructor
  · rintro h ⟨q, hunit, hq⟩
    exact h q (fun hblank => by rw [mem_blanks.1 hblank] at hq; cases hq) hunit hq
  · exact fun h q _ hunit hq => h ⟨q, hunit, hq⟩

/-- A board that cannot be completed is left as it was if and only if there is no digit to try in its first blank
cell. -/
theorem solveSudoku_unchanged_iff {board : Board} (hboard : NoConflict board)
    (h : ¬ ∃ result, IsCompletion board result) : solveSudoku board = board ↔ FirstBlankTaken board := by
  obtain ⟨p, todo, hfirst, hblanks⟩ := exists_firstBlank hboard h
  obtain ⟨s, hs, rfl, hflag, ht⟩ := setUp_spec board
  have hp : s.board.get p = .blank := mem_blanks.1 (by rw [hblanks]; exact List.mem_cons_self)
  have hnodup : (p :: todo).Nodup := hblanks ▸ nodup_cells.filter _
  have htaken : FirstBlankTaken s.board ↔ ∀ d, s.free p d = false := by
    rw [FirstBlankTaken, hfirst]
    simp only [Option.some.injEq, forall_eq', ← Bool.not_eq_true, free_iff_not_taken ht, not_not]
  rw [htaken, solveSudoku, hs, hblanks]
  rw [hblanks] at ht
  show (tryDigits (dfs todo) p (List.finRange 9) s).board = s.board ↔ _
  constructor
  · intro heq d
    by_contra hfree
    rw [Bool.not_eq_false] at hfree
    obtain ⟨hmem, hnodup⟩ := List.nodup_cons.1 hnodup
    refine tryDigits_writes hmem (fun s hflag ht => dfs_searched hnodup hflag ht) (List.finRange 9) hflag ht
      (Or.inr ⟨d, List.mem_finRange d, hfree⟩) ?_
    rw [heq, hp]
  · intro hfree
    rw [tryDigits_of_not_free hflag (List.finRange 9) fun d _ => hfree d]

/-- A cell that sees every digit cannot be filled. -/
theorem not_completable {board : Board} {p : Pos} (hp : ∀ d, ∃ q, q ≠ p ∧ SameUnit p q ∧ board.get q = .digit d) :
    ¬ ∃ result, IsCompletion board result := by
  rintro ⟨result, h⟩
  obtain ⟨d, hd⟩ := exists_digit (h.full p)
  obtain ⟨q, hne, hunit, hq⟩ := hp d
  exact (isCompletion_iff.1 h).2.2 p q d (Ne.symm hne) hunit hd (h.given q d hq)

/-- The board on which every digit is given once, in its place. -/
def placed (place : Fin 9 → Pos) : Board := .ofFn fun p =>
  match (List.finRange 9).find? fun d => place d = p with
  | some d => .digit d
  | none => .blank

theorem noConflict_placed (place : Fin 9 → Pos) : NoConflict (placed place) := by
  have hplace : ∀ {p d}, (placed place).get p = .digit d → place d = p := by
    intro p d hp
    rw [placed, Grid.get_ofFn] at hp
    split at hp
    · rename_i e he
      rw [← Tile.digit.inj hp]
      simpa using List.find?_some he
    · cases hp
  exact fun p q d hne _ hp hq => hne ((hplace hp).symm.trans (hplace hq))

/-- The digits from `2` on in the first row, and `1` below the cell that is left. -/
def stuck : Board := placed fun d => if d = 0 then (3, 0) else (0, d)

theorem stuck_unchanged : solveSudoku stuck = stuck := by
  have htaken : ∀ d, ∃ q, q ≠ (0, 0) ∧ SameUnit (0, 0) q ∧ stuck.get q = .digit d := fun d =>
    ⟨if d = 0 then (3, 0) else (0, d), by revert d; decide +kernel⟩
  refine (solveSudoku_unchanged_iff (noConflict_placed _) (not_completable htaken)).2 fun p hp => ?_
  obtain rfl : (0, 0) = p := Option.some.inj (hp ▸ by decide +kernel)
  exact fun d => (htaken d).imp fun q hq => hq.2

/-- `1` and `2` can stand only in the first two cells of the first row, and neither of them in the second. -/
def deadEnd : Board := placed fun d => if d = 0 then (3, 1) else if d = 1 then (4, 1) else (0, d)

/-- The digit that was tried last stays in the first cell. -/
theorem deadEnd_not_restored : NoConflict deadEnd ∧ (¬ ∃ result, IsCompletion deadEnd result) ∧
    solveSudoku deadEnd ≠ deadEnd := by
  have htaken : ∀ d, ∃ q, q ≠ (0, 1) ∧ SameUnit (0, 1) q ∧ deadEnd.get q = .digit d := fun d =>
    ⟨if d = 0 then (3, 1) else if d = 1 then (4, 1) else (0, d), by revert d; decide +kernel⟩
  exact ⟨noConflict_placed _, not_completable htaken, by decide +kernel⟩

/-- Every row is the one before moved by three places, or by four if a block ends there. -/
def shifted : Board := .ofFn fun p => .digit ⟨(3 * p.1 + p.1 / 3 + p.2) % 9, Nat.mod_lt _ (by decide)⟩

/-- The same without the first block. -/
def withoutBlock : Board := .ofFn fun p => if block p = (0, 0) then .blank else shifted.get p

theorem isCompletion_withoutBlock : IsCompletion withoutBlock (solveSudoku withoutBlock) := by
  refine isCompletion_solveSudoku ⟨shifted, isCompletion_iff.2 ⟨fun p d hp => ?_, fun p hp => ?_, ?_⟩⟩
  · rw [withoutBlock, Grid.get_ofFn] at hp
    split_ifs at hp
    exact hp
  · rw [shifted, Grid.get_ofFn] at hp
    cases hp
  · rintro ⟨i, j⟩ ⟨k, l⟩ d hne hunit hp hq
    rw [shifted, Grid.get_ofFn] at hp hq
    have hsum : (3 * (i : ℕ) + i / 3 + j) % 9 = (3 * (k : ℕ) + k / 3 + l) % 9 :=
      congrArg Fin.val ((Tile.digit.inj hp).trans (Tile.digit.inj hq).symm)
    have hcolumn : ∀ i k j : Fin 9, (3 * (i : ℕ) + i / 3 + j) % 9 = (3 * (k : ℕ) + k / 3 + j) % 9 → i = k := by
      decide +kernel
    simp only [SameUnit, block, Prod.mk.injEq, Fin.ext_iff] at hunit
    have heq : (i : ℕ) = k ∧ (j : ℕ) = l := by
      rcases hunit with hrow | hcol | hblock
      · obtain rfl : i = k := Fin.ext hrow
        generalize 3 * (i : ℕ) + i / 3 = x at hsum
        exact ⟨rfl, by omega⟩
      · obtain rfl : j = l := Fin.ext hcol
        exact ⟨congrArg Fin.val (hcolumn i k j hsum), rfl⟩
      · omega
    exact hne (Prod.ext (Fin.ext heq.1) (Fin.ext heq.2))

end GoodGoodStudy.LeetCode.Sudoku
