/-
Three functions that ask whether a word can be read on a board: the exercise 79 and the two solutions of the exercise 12
of the second collection. The first two are the same search with a list of the cells on its way and a flag; the third
one marks the cells on a board of its own and passes its result on to every call. None of them writes to the board.
-/
import Mathlib.Data.Finset.Lattice.Lemmas
import Mathlib.Data.Fintype.Prod
import GoodGoodStudy.LeetCode.WordSearch

namespace GoodGoodStudy.LeetCode.WordExist

open GoodGoodStudy.Lib GoodGoodStudy.LeetCode.WordSearch

variable {m n : ℕ}

/-! ## A list of visited cells -/

def directions : List (ℤ × ℤ) := [(1, 0), (-1, 0), (0, 1), (0, -1)]

/-- The board, `visited` and `self.found`. -/
structure State (m n : ℕ) where
  board : Board m n
  visited : List (Pos m n) := []
  found : Bool := false

/-- `dfs(raw, col, length, visited)`, with the rest of the word from the index `length` on. -/
def dfs : WordSearch.Word → ℤ → ℤ → State m n → State m n
  | [], _, _, s => { s with found := true }
  | a :: rest, raw, col, s =>
    match cell? (m + 1) (n + 1) raw col with
    | none => s
    | some p =>
      if s.found = false ∧ p ∉ s.visited ∧ s.board.get p = a then
        let s := directions.foldl (fun s d => dfs rest (raw + d.1) (col + d.2) s) { s with visited := s.visited ++ [p] }
        { s with visited := s.visited.dropLast }
      else s

/-- The loop over the cells, which returns as soon as the word is found. -/
def search (word : WordSearch.Word) : List (Pos m n) → State m n → State m n × Bool
  | [], s => (s, s.found)
  | p :: ps, s =>
    let s := { s with visited := [] }
    if s.found then (s, true) else search word ps (dfs word p.1 p.2 s)

/-- The board after the call, and the result. -/
def Exercise79.exist (board : Board m n) (word : WordSearch.Word) : Board m n × Bool :=
  let (s, found) := search word (cells (m + 1) (n + 1)) { board }
  (s.board, found)

/-- The same search under other names; a board with a row passes the check at the beginning. -/
def Offer12.Solution.exist (board : Board m n) (word : WordSearch.Word) : Board m n × Bool := Exercise79.exist board word

/-! ## A board of free cells -/

namespace Offer12.Solution2

/-- The board, and `dp`, where a cell that is on the way is `False`. -/
structure State (m n : ℕ) where
  board : Board m n
  dp : Grid (m + 1) (n + 1) Bool := .replicate (m + 1) (n + 1) true

/-- `dfs(i, j, cur, res)`, with the letter at the index `cur` and the rest of the word behind it. -/
def dfs : Char → WordSearch.Word → Pos m n → Bool → State m n → Bool × State m n
  | a, rest, p, res, s =>
    if res then (res, s)
    else if s.dp.get p ∧ s.board.get p = a then
      match rest with
      | [] => (true, s)
      | b :: rest =>
        let (res, s) := (neighbours directions p).foldl (fun (res, s) q =>
          let (r, s) := dfs b rest q res s
          (res || r, s)) (res, { s with dp := s.dp.set p false })
        (res, { s with dp := s.dp.set p true })
    else (false, s)

/-- The loop over the cells of a row. -/
def searchRow (a : Char) (rest : WordSearch.Word) : List (Pos m n) → Bool → State m n → Bool × State m n
  | [], res, s => (res, s)
  | p :: ps, res, s =>
    if s.board.get p = a then
      let (r, s) := dfs a rest p res s
      let res := res || r
      if res then (res, s) else searchRow a rest ps res s
    else searchRow a rest ps res s

/-- `none` is the missing first letter of an empty word. -/
def exist (board : Board m n) (word : WordSearch.Word) : Option (Board m n × Bool) :=
  if (m + 1) * (n + 1) < word.length then some (board, false)
  else
    match word with
    | [] => none
    | a :: rest =>
      let (res, s) := (List.finRange (m + 1)).foldl (fun (res, s) i =>
        searchRow a rest ((List.finRange (n + 1)).map fun j => (i, j)) res s) (false, { board })
      some (s.board, res)

end Offer12.Solution2

/-! ## The first search -/

theorem directions_perm : directions.Perm WordSearch.Solution.directions := by decide

/-- A call leaves `visited` as it was, and raises the flag if it finds the rest of the word. -/
theorem dfs_spec (board : Board m n) (word : WordSearch.Word) (raw col : ℤ) (visited : List (Pos m n)) (found : Bool) :
    ∃ found', dfs word raw col ⟨board, visited, found⟩ = ⟨board, visited, found'⟩ ∧
      (found' = true ↔ found = true ∨ WordSearch.Solution.FoundAt board visited.toFinset word raw col) := by
  induction word generalizing raw col visited found with
  | nil => exact ⟨true, rfl, iff_of_true rfl (Or.inr (Or.inl rfl))⟩
  | cons a rest ih =>
    cases hcell : cell? (m + 1) (n + 1) raw col with
    | none =>
      refine ⟨found, ?_, (or_iff_left (WordSearch.Solution.not_foundAt_of_none hcell)).symm⟩
      simp only [dfs, hcell]
    | some p =>
      rw [WordSearch.Solution.foundAt_cons_iff directions_perm hcell, List.mem_toFinset]
      by_cases hgo : found = false ∧ p ∉ visited ∧ board.get p = a
      · obtain ⟨rfl, hfree, rfl⟩ := hgo
        -- the flag after some of the four calls
        obtain ⟨found', heq, hfound⟩ := foldl_mem (f := fun s d => dfs rest (raw + d.1) (col + d.2) s)
          (P := fun pre s => ∃ found, s = ⟨board, visited ++ [p], found⟩ ∧ (found = true ↔
            ∃ d ∈ pre, WordSearch.Solution.FoundAt board (insert p visited.toFinset) rest (raw + d.1) (col + d.2)))
          directions (fun pre d _ s hs => by
            obtain ⟨found, rfl, hfound⟩ := hs
            obtain ⟨found', heq, hfound'⟩ := ih (raw + d.1) (col + d.2) (visited ++ [p]) found
            refine ⟨found', heq, ?_⟩
            rw [hfound', hfound, exists_mem_concat, List.toFinset_append, Finset.union_comm]
            rfl) [] (s := ⟨board, visited ++ [p], false⟩)
          ⟨false, rfl, iff_of_false Bool.false_ne_true fun ⟨d, hd, _⟩ => List.not_mem_nil hd⟩
        refine ⟨found', ?_, ?_⟩
        · simp only [dfs, hcell, hfree, not_false_eq_true, and_self, if_true, heq, List.dropLast_concat]
        · rw [hfound, List.nil_append]
          simp [hfree]
      · refine ⟨found, by simp only [dfs, hcell, if_neg hgo], (or_iff_left_of_imp fun h => ?_).symm⟩
        by_contra hfound
        exact hgo ⟨Bool.eq_false_iff.2 hfound, h.2.1, h.1⟩

theorem search_spec (board : Board m n) (word : WordSearch.Word) (ps visited : List (Pos m n)) (found : Bool) :
    ∃ s found', search word ps ⟨board, visited, found⟩ = (s, found') ∧ s.board = board ∧
      (found' = true ↔ found = true ∨ ∃ p ∈ ps, WordSearch.Solution.FoundAt board ∅ word p.1 p.2) := by
  induction ps generalizing visited found with
  | nil => exact ⟨_, found, rfl, rfl, (or_iff_left fun ⟨p, hp, _⟩ => List.not_mem_nil hp).symm⟩
  | cons p ps ih =>
    rw [search]
    cases found with
    | true => exact ⟨_, true, rfl, rfl, iff_of_true rfl (Or.inl rfl)⟩
    | false =>
      obtain ⟨found₁, heq₁, hfound₁⟩ := dfs_spec board word p.1 p.2 [] false
      obtain ⟨s, found₂, heq₂, hboard, hfound₂⟩ := ih [] found₁
      refine ⟨s, found₂, ?_, hboard, ?_⟩
      · simp only [heq₁, heq₂]
        rfl
      · rw [hfound₂, hfound₁, List.toFinset_nil, List.exists_mem_cons_iff, or_assoc]

/-- A call that starts at a cell finds the word if it can be read from there. -/
theorem foundAt_cell_iff {board : Board m n} {word : WordSearch.Word} (hword : word ≠ []) (p : Pos m n) :
    WordSearch.Solution.FoundAt board ∅ word p.1 p.2 ↔ Trail board ∅ p word := by
  have hcell : cell? (m + 1) (n + 1) p.1 p.2 = some p := cell?_eq_some.2 ⟨rfl, rfl⟩
  unfold WordSearch.Solution.FoundAt
  rw [hcell]
  constructor
  · rintro (h | ⟨q, hq, htrail⟩)
    · exact absurd h hword
    · exact Option.some.inj hq ▸ htrail
  · exact fun htrail => Or.inr ⟨p, rfl, htrail⟩

theorem exist_spec (board : Board m n) {word : WordSearch.Word} (hword : word ≠ []) :
    ∃ found, Exercise79.exist board word = (board, found) ∧ (found = true ↔ Spelled board word) := by
  obtain ⟨s, found, heq, rfl, hfound⟩ := search_spec board word (cells (m + 1) (n + 1)) [] false
  refine ⟨found, by rw [Exercise79.exist, heq], ?_⟩
  rw [hfound, spelled_iff hword]
  simp only [Bool.false_eq_true, false_or, mem_cells, true_and, foundAt_cell_iff hword]

/-! ## The other search -/

namespace Offer12.Solution2

/-- The cells that are on the way. -/
def busy (dp : Grid (m + 1) (n + 1) Bool) : Finset (Pos m n) := {q | dp.get q = false}

theorem mem_busy {dp : Grid (m + 1) (n + 1) Bool} {p : Pos m n} : p ∈ busy dp ↔ dp.get p = false := by
  rw [busy, Finset.mem_filter_univ]

theorem busy_set (dp : Grid (m + 1) (n + 1) Bool) (p : Pos m n) : busy (dp.set p false) = insert p (busy dp) := by
  ext q
  rw [mem_busy, Finset.mem_insert, mem_busy, Grid.get_set]
  by_cases hq : q = p
  · simp [hq]
  · simp [hq]

/-- A call comes back with its result as it was if the word is found already or the cell does not go on with it. -/
theorem dfs_of_not (board : Board m n) (rest : WordSearch.Word) {a : Char} {p : Pos m n} {res : Bool}
    {dp : Grid (m + 1) (n + 1) Bool} (h : ¬ (res = false ∧ dp.get p = true ∧ board.get p = a)) :
    dfs a rest p res ⟨board, dp⟩ = (res, ⟨board, dp⟩) ∧
      (res = true ↔ res = true ∨ Trail board (busy dp) p (a :: rest)) := by
  cases res with
  | true => exact ⟨by cases rest <;> simp only [dfs, if_true], iff_of_true rfl (Or.inl rfl)⟩
  | false =>
    have hgo : ¬ (dp.get p = true ∧ board.get p = a) := fun hgo => h ⟨rfl, hgo⟩
    refine ⟨by cases rest <;> simp only [dfs, Bool.false_eq_true, if_false, if_neg hgo],
      (or_iff_left fun htrail => ?_).symm⟩
    obtain ⟨rest', heq, hfree, -⟩ := trail_iff.1 htrail
    rw [mem_busy, Bool.not_eq_false] at hfree
    exact hgo ⟨hfree, (List.cons.inj heq).1.symm⟩

/-- A call leaves `dp` as it was. -/
theorem dfs_spec (board : Board m n) (rest : WordSearch.Word) (a : Char) (p : Pos m n) (res : Bool)
    (dp : Grid (m + 1) (n + 1) Bool) : ∃ res', dfs a rest p res ⟨board, dp⟩ = (res', ⟨board, dp⟩) ∧
      (res' = true ↔ res = true ∨ Trail board (busy dp) p (a :: rest)) := by
  by_cases hgo : res = false ∧ dp.get p = true ∧ board.get p = a
  · obtain ⟨rfl, hfree, rfl⟩ := hgo
    have hnot : p ∉ busy dp := fun hmem => Bool.false_ne_true ((mem_busy.1 hmem).symm.trans hfree)
    cases rest with
    | nil =>
      refine ⟨true, by simp only [dfs, Bool.false_eq_true, if_false, hfree, and_self, if_true], ?_⟩
      exact iff_of_true rfl (Or.inr (trail_iff.2 ⟨[], rfl, hnot, Or.inl rfl⟩))
    | cons b rest =>
      -- the result after some of the neighbours
      obtain ⟨res', s', heq, rfl, hres⟩ := foldl_mem (f := fun (res, s) q =>
          let (r, s) := dfs b rest q res s
          (res || r, s))
        (P := fun pre (t : Bool × State m n) => ∃ res s, t = (res, s) ∧ s = ⟨board, dp.set p false⟩ ∧
          (res = true ↔ ∃ q ∈ pre, Trail board (insert p (busy dp)) q (b :: rest)))
        (neighbours directions p) (fun pre q _ _ ht => by
          obtain ⟨res, _, rfl, rfl, hres⟩ := ht
          obtain ⟨res', heq, hres'⟩ := dfs_spec board rest b q res (dp.set p false)
          refine ⟨res || res', _, by simp only [heq], rfl, ?_⟩
          rw [Bool.or_eq_true, hres', ← or_assoc, or_self, hres, exists_mem_concat, busy_set]) []
        ⟨false, _, rfl, rfl, iff_of_false Bool.false_ne_true fun ⟨q, hq, _⟩ => List.not_mem_nil hq⟩
      have hback : (dp.set p false).set p true = dp := by
        rw [← hfree]
        exact Grid.set_get_self dp p false
      refine ⟨res', ?_, ?_⟩
      · simp only [dfs, Bool.false_eq_true, if_false, hfree, and_self, if_true]
        rw [heq, hback]
      · rw [hres, List.nil_append, trail_iff]
        simp [hnot, mem_neighbours directions_perm]
  · exact ⟨res, dfs_of_not board rest hgo⟩

theorem searchRow_spec (board : Board m n) (a : Char) (rest : WordSearch.Word) (dp : Grid (m + 1) (n + 1) Bool)
    (ps : List (Pos m n)) (res : Bool) : ∃ res', searchRow a rest ps res ⟨board, dp⟩ = (res', ⟨board, dp⟩) ∧
      (res' = true ↔ res = true ∨ ∃ p ∈ ps, Trail board (busy dp) p (a :: rest)) := by
  induction ps generalizing res with
  | nil => exact ⟨res, rfl, (or_iff_left fun ⟨p, hp, _⟩ => List.not_mem_nil hp).symm⟩
  | cons p ps ih =>
    obtain ⟨res', heq, hres'⟩ := dfs_spec board rest a p res dp
    rw [List.exists_mem_cons_iff, ← or_assoc]
    by_cases hp : board.get p = a
    · cases hor : res || res' with
      | true =>
        refine ⟨true, by simp only [searchRow, hp, if_true, heq, hor], iff_of_true rfl (Or.inl ?_)⟩
        rw [Bool.or_eq_true, hres'] at hor
        exact hor.elim Or.inl id
      | false =>
        obtain ⟨res₂, heq₂, hres₂⟩ := ih false
        refine ⟨res₂, ?_, ?_⟩
        · simp only [searchRow, hp, if_true, heq, hor, Bool.false_eq_true, if_false, heq₂]
        · obtain ⟨rfl, rfl⟩ := Bool.or_eq_false_iff.1 hor
          rw [hres₂, ← hres']
    · obtain ⟨res₂, heq₂, hres₂⟩ := ih res
      have hno : ¬ Trail board (busy dp) p (a :: rest) := by
        intro htrail
        obtain ⟨_, hcons, -⟩ := trail_iff.1 htrail
        exact hp (List.cons.inj hcons).1.symm
      refine ⟨res₂, by simp only [searchRow, if_neg hp, heq₂], ?_⟩
      rw [hres₂, or_iff_left hno]

/-- A path has no more cells than the board. -/
theorem length_le_of_spelled {board : Board m n} {word : WordSearch.Word} (h : Spelled board word) :
    word.length ≤ (m + 1) * (n + 1) := by
  obtain ⟨ps, -, hnodup, rfl⟩ := h
  rw [List.length_map]
  exact hnodup.length_le_card.trans_eq (by simp)

theorem exist_spec (board : Board m n) {word : WordSearch.Word} (hword : word ≠ []) :
    ∃ found, exist board word = some (board, found) ∧ (found = true ↔ Spelled board word) := by
  unfold exist
  split_ifs with hlen
  · exact ⟨false, rfl, iff_of_false Bool.false_ne_true fun h => absurd (length_le_of_spelled h) (Nat.not_le.2 hlen)⟩
  · obtain ⟨a, rest, rfl⟩ := List.exists_cons_of_ne_nil hword
    obtain ⟨res, s, heq, rfl, hres⟩ := foldl_mem (f := fun (res, s) i =>
        searchRow a rest ((List.finRange (n + 1)).map fun j => (i, j)) res s)
      (P := fun pre (t : Bool × State m n) => ∃ res s, t = (res, s) ∧ s = { board } ∧
        (res = true ↔ ∃ i ∈ pre, ∃ j, Trail board ∅ (i, j) (a :: rest)))
      (List.finRange (m + 1)) (fun pre i _ _ ht => by
        obtain ⟨res, _, rfl, rfl, hres⟩ := ht
        obtain ⟨res', heq, hres'⟩ := searchRow_spec board a rest (.replicate (m + 1) (n + 1) true)
          ((List.finRange (n + 1)).map fun j => (i, j)) res
        refine ⟨res', _, heq, rfl, ?_⟩
        have hbusy : busy (.replicate (m + 1) (n + 1) true) = (∅ : Finset (Pos m n)) := by
          ext q
          simp [mem_busy]
        rw [hres', hres, exists_mem_concat, hbusy]
        simp) []
      ⟨false, _, rfl, rfl, iff_of_false Bool.false_ne_true fun ⟨i, hi, _⟩ => List.not_mem_nil hi⟩
    refine ⟨res, by simp only [heq], ?_⟩
    rw [hres, spelled_iff hword, Prod.exists]
    simp

end Offer12.Solution2

/-- The three functions say of a word that is not empty whether it can be read on the board, and leave the board as it
was. -/
theorem exist_agree (board : Board m n) {word : WordSearch.Word} (hword : word ≠ []) : ∃ found,
    Exercise79.exist board word = (board, found) ∧ Offer12.Solution.exist board word = (board, found) ∧
      Offer12.Solution2.exist board word = some (board, found) ∧ (found = true ↔ Spelled board word) := by
  obtain ⟨found, heq, hfound⟩ := exist_spec board hword
  obtain ⟨found', heq', hfound'⟩ := Offer12.Solution2.exist_spec board hword
  obtain rfl : found = found' := Bool.eq_iff_iff.2 (hfound.trans hfound'.symm)
  exact ⟨found, heq, heq, heq', hfound⟩

theorem exist_agree_square :
    let board : Board 1 1 := ⟨#v[#v['A', 'B'], #v['C', 'D']]⟩
    ∃ found, Exercise79.exist board ['A', 'B', 'D'] = (board, found) ∧
      Offer12.Solution.exist board ['A', 'B', 'D'] = (board, found) ∧
        Offer12.Solution2.exist board ['A', 'B', 'D'] = some (board, found) ∧
          (found = true ↔ Spelled board ['A', 'B', 'D']) :=
  exist_agree ⟨#v[#v['A', 'B'], #v['C', 'D']]⟩ (by decide)

end GoodGoodStudy.LeetCode.WordExist
