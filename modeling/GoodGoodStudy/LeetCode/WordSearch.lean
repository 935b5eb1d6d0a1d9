/-
The two solutions of the exercise 212, word search II. The first one searches the board for one word after the other,
the second one for all at once, along a trie from which it takes the words that it has found and the branches that have
become empty; the cells on its way it marks on the board, and unmarks them when it comes back.
-/
import Mathlib.Data.Finset.Basic
import GoodGoodStudy.Lib.Grid
import GoodGoodStudy.Lib.Loop
import GoodGoodStudy.Lib.Nested

namespace GoodGoodStudy.LeetCode.WordSearch

open GoodGoodStudy.Lib

variable {m n : ℕ}

/-- A board with at least one row and one column. -/
abbrev Board (m n : ℕ) := Grid (m + 1) (n + 1) Char

abbrev Pos (m n : ℕ) := Cell (m + 1) (n + 1)

abbrev Word := List Char

/-! ## Word by word -/

namespace Solution

def directions : List (ℤ × ℤ) := [(-1, 0), (1, 0), (0, -1), (0, 1)]

/-- `visited`, `path` and `self.flag`. -/
structure State (m n : ℕ) where
  visited : Finset (Pos m n)
  path : Word
  flag : Bool
  deriving DecidableEq

/-- `none` is the end of the fuel, or an index out of range. -/
def dfs (board : Board m n) (word : Word) : ℕ → ℤ → ℤ → ℕ → State m n → Option (State m n)
  | 0, _, _, _, _ => none
  | fuel + 1, i, j, length, s =>
    if s.path ≠ word.take length then some s
    else if s.path = word then some { s with flag := true }
    else
      match cell? (m + 1) (n + 1) i j with
      | none => some s
      | some p => word[length]?.bind fun a =>
        if board.get p = a ∧ p ∉ s.visited ∧ s.flag = false then
          (directions.foldlM (fun s d => dfs board word fuel (i + d.1) (j + d.2) (length + 1) s)
            { s with visited := insert p s.visited, path := s.path ++ [board.get p] }).map fun s =>
              { s with visited := s.visited.erase p, path := s.path.dropLast }
        else some s

def helper (fuel : ℕ) (board : Board m n) (target : Word) : Option Bool :=
  (cells (m + 1) (n + 1)).foldlM (fun flag p => target[0]?.bind fun a =>
    if board.get p = a then (dfs board target fuel p.1 p.2 0 ⟨∅, [], flag⟩).map State.flag else some flag) false

def findWords (fuel : ℕ) (board : Board m n) (words : List Word) : Option (List Word) :=
  words.foldlM (fun res word => (helper fuel board word).map fun inWords =>
    if inWords then res ++ [word] else res) []

end Solution

/-! ## All words at once -/

/-- A dictionary, or the word that is stored at its end. -/
abbrev Tree := Nested Char Word

namespace Solution2

def direct : List (ℤ × ℤ) := [(-1, 0), (0, 1), (1, 0), (0, -1)]

/-- The loop over a word, at the node that it has come to. -/
def insertWord (word : Word) : Tree → Word → Option Tree
  | .dict items, [] => some (.dict (Nested.setItem items '#' (.leaf word)))
  | .dict items, i :: rest =>
    let items := if (items.lookup i).isNone then Nested.setItem items i (.dict []) else items
    (items.lookup i).bind fun node => (insertWord word node rest).map fun node => .dict (Nested.setItem items i node)
  | .leaf _, _ => none

def buildTrie (words : List Word) : Option Tree := words.foldlM (fun root word => insertWord word root word) (.dict [])

/-- `if '#' in trie: res.append(trie.pop('#'))`; in a trie of words without `'#'` a word is stored there. -/
def popWord : Tree → List Word → Option (Tree × List Word)
  | .dict items, res =>
    match items.lookup '#' with
    | none => some (.dict items, res)
    | some (.leaf word) => some (.dict (Nested.eraseItem items '#'), res ++ [word])
    | some (.dict _) => none
  | .leaf _, _ => none

/-- The node with its changed child, which is taken out if nothing is left of it. -/
def putBack : Tree → Char → Tree → Tree
  | .dict items, tmp, .dict [] => .dict (Nested.eraseItem items tmp)
  | .dict items, tmp, trie => .dict (Nested.setItem items tmp trie)
  | .leaf word, _, _ => .leaf word

/-- The board, the node and `res`. -/
structure State (m n : ℕ) where
  board : Board m n
  node : Tree
  res : List Word

/-- `none` is the end of the fuel, or a word that is used as a dictionary. -/
def dfs : ℕ → ℤ → ℤ → State m n → Option (State m n)
  | 0, _, _, _ => none
  | fuel + 1, i, j, s =>
    match cell? (m + 1) (n + 1) i j with
    | none => some s
    | some p =>
      let tmp := s.board.get p
      match s.node.get? tmp with
      | none => some s
      | some trie => (popWord trie s.res).bind fun (trie, res) =>
        (direct.foldlM (fun s d => dfs fuel (d.1 + i) (d.2 + j) s) ⟨s.board.set p '$', trie, res⟩).map fun t =>
          ⟨t.board.set p tmp, putBack s.node tmp t.node, t.res⟩

/-- The board after the call, and the words. -/
def findWords (fuel : ℕ) (board : Board m n) (words : List Word) : Option (Board m n × List Word) :=
  (buildTrie words).bind fun root =>
    ((cells (m + 1) (n + 1)).foldlM (fun s p => dfs fuel p.1 p.2 s) ⟨board, root, []⟩).map fun s => (s.board, s.res)

end Solution2

/-! ## What is to be found -/

/-- The word can be read along a path of cells that share sides and are all different. -/
def Spelled (board : Board m n) (word : Word) : Prop :=
  ∃ ps : List (Pos m n), ps.IsChain SharesSide ∧ ps.Nodup ∧ ps.map board.get = word

theorem spelled_iff {board : Board m n} {word : Word} (hword : word ≠ []) :
    Spelled board word ↔ ∃ p, Trail board ∅ p word := by
  constructor
  · rintro ⟨ps, hchain, hnodup, rfl⟩
    cases ps with
    | nil => exact absurd rfl hword
    | cons p ps => exact ⟨p, ps, hchain, hnodup, fun q _ => Finset.notMem_empty q, rfl⟩
  · rintro ⟨p, ps, hchain, hnodup, -, hmap⟩
    exact ⟨p :: ps, hchain, hnodup, hmap⟩

/-! ## The first solution -/

namespace Solution

/-- What a call looks for: the rest of the word, from the cell with these coordinates; nothing of the word can be left
anywhere. -/
def FoundAt (board : Board m n) (visited : Finset (Pos m n)) (rest : Word) (i j : ℤ) : Prop :=
  rest = [] ∨ ∃ p, cell? (m + 1) (n + 1) i j = some p ∧ Trail board visited p rest

theorem not_foundAt_of_none {board : Board m n} {visited : Finset (Pos m n)} {a : Char} {rest : Word} {i j : ℤ}
    (hcell : cell? (m + 1) (n + 1) i j = none) : ¬ FoundAt board visited (a :: rest) i j := by
  rintro (h | ⟨p, hp, -⟩)
  · cases h
  · rw [hcell] at hp
    cases hp

theorem foundAt_cons_iff {dirs : List (ℤ × ℤ)} (hdirs : dirs.Perm directions) {board : Board m n}
    {visited : Finset (Pos m n)} {a : Char} {rest : Word} {i j : ℤ} {p : Pos m n}
    (hcell : cell? (m + 1) (n + 1) i j = some p) :
    FoundAt board visited (a :: rest) i j ↔ board.get p = a ∧ p ∉ visited ∧
      ∃ d ∈ dirs, FoundAt board (insert p visited) rest (i + d.1) (j + d.2) := by
  have hnext : (∃ d ∈ dirs, FoundAt board (insert p visited) rest (i + d.1) (j + d.2)) ↔
      rest = [] ∨ ∃ q, SharesSide p q ∧ Trail board (insert p visited) q rest := by
    rw [← exists_direction_iff hdirs hcell]
    constructor
    · rintro ⟨d, hd, hrest | hfound⟩
      · exact Or.inl hrest
      · exact Or.inr ⟨d, hd, hfound⟩
    · rintro (hrest | ⟨d, hd, hfound⟩)
      · exact ⟨(-1, 0), hdirs.mem_iff.2 List.mem_cons_self, Or.inl hrest⟩
      · exact ⟨d, hd, Or.inr hfound⟩
  rw [hnext]
  constructor
  · rintro (h | ⟨p', hp', htrail⟩)
    · cases h
    · obtain rfl : p = p' := Option.some.inj (hcell.symm.trans hp')
      obtain ⟨rest', heq, hfree, hrest⟩ := trail_iff.1 htrail
      obtain ⟨rfl, rfl⟩ := List.cons.inj heq
      exact ⟨rfl, hfree, hrest⟩
  · rintro ⟨rfl, hfree, hrest⟩
    exact Or.inr ⟨p, hcell, trail_iff.2 ⟨rest, rfl, hfree, hrest⟩⟩

/-- The calls in the four directions, if a call finds what it looks for. -/
theorem directions_return {board : Board m n} {word rest path : Word} {visited : Finset (Pos m n)}
    (hdfs : ∀ i j flag, ∃ flag',
      Returns (fun fuel => dfs board word fuel i j path.length ⟨visited, path, flag⟩) ⟨visited, path, flag'⟩ ∧
        (flag' = true ↔ flag = true ∨ FoundAt board visited rest i j)) (i j : ℤ) :
    ∃ flag', Returns (fun fuel => directions.foldlM
        (fun s d => dfs board word fuel (i + d.1) (j + d.2) path.length s) ⟨visited, path, false⟩)
        ⟨visited, path, flag'⟩ ∧
      (flag' = true ↔ ∃ d ∈ directions, FoundAt board visited rest (i + d.1) (j + d.2)) := by
  have hstep : ∀ (pre : List (ℤ × ℤ)) (d : ℤ × ℤ) (s : State m n),
      (∃ flag, s = ⟨visited, path, flag⟩ ∧
        (flag = true ↔ ∃ e ∈ pre, FoundAt board visited rest (i + e.1) (j + e.2))) →
      ∃ s', Returns (fun fuel => dfs board word fuel (i + d.1) (j + d.2) path.length s) s' ∧
        ∃ flag, s' = ⟨visited, path, flag⟩ ∧
          (flag = true ↔ ∃ e ∈ pre ++ [d], FoundAt board visited rest (i + e.1) (j + e.2)) := by
    rintro pre d s ⟨flag, rfl, hflag⟩
    obtain ⟨flag', hret, hflag'⟩ := hdfs (i + d.1) (j + d.2) flag
    refine ⟨_, hret, flag', rfl, ?_⟩
    rw [hflag', hflag, exists_mem_concat]
  obtain ⟨s, hret, flag', rfl, hflag'⟩ := Returns.foldlM hstep directions []
    ⟨false, rfl, iff_of_false Bool.false_ne_true fun ⟨e, he, _⟩ => List.not_mem_nil he⟩
  exact ⟨flag', hret, hflag'⟩

/-- A call leaves `visited` and `path` as they were, and raises the flag if it finds the rest of the word. -/
theorem dfs_returns (board : Board m n) (word : Word) :
    ∀ (rest path : Word) (visited : Finset (Pos m n)) (i j : ℤ) (flag : Bool), word = path ++ rest →
      ∃ flag', Returns (fun fuel => dfs board word fuel i j path.length ⟨visited, path, flag⟩) ⟨visited, path, flag'⟩ ∧
        (flag' = true ↔ flag = true ∨ FoundAt board visited rest i j)
  | [], path, visited, i, j, flag, hword => by
    rw [List.append_nil] at hword
    subst hword
    refine ⟨true, Returns.call (g := fun _ => some ⟨visited, word, true⟩) (fun fuel => ?_) (Returns.pure _),
      iff_of_true rfl (Or.inr (Or.inl rfl))⟩
    simp only [dfs, List.take_length, ne_eq, not_true_eq_false, if_false, if_true]
  | a :: rest, path, visited, i, j, flag, hword => by
    have htake : word.take path.length = path := by rw [hword, List.take_left']; rfl
    have hne : path ≠ word := by
      rw [hword]
      exact fun h => by simpa using congrArg List.length h
    have hget : word[path.length]? = some a := by rw [hword, List.getElem?_append_right le_rfl]; simp
    cases hcell : cell? (m + 1) (n + 1) i j with
    | none =>
      refine ⟨flag, Returns.call (g := fun _ => some ⟨visited, path, flag⟩) (fun fuel => ?_) (Returns.pure _), ?_⟩
      · simp only [dfs, htake, ne_eq, not_true_eq_false, if_false, hne, hcell]
      · exact (or_iff_left (not_foundAt_of_none hcell)).symm
    | some p =>
      by_cases hgo : board.get p = a ∧ p ∉ visited ∧ flag = false
      · obtain ⟨rfl, hfree, rfl⟩ := hgo
        obtain ⟨flag', hret, hflag'⟩ := directions_return (fun i j flag => dfs_returns board word rest
          (path ++ [board.get p]) (insert p visited) i j flag (by rw [hword, List.append_assoc]; rfl)) i j
        have hend : (⟨(insert p visited).erase p, (path ++ [board.get p]).dropLast, flag'⟩ : State m n) =
            ⟨visited, path, flag'⟩ := by rw [Finset.erase_insert hfree, List.dropLast_concat]
        have hback := hret.map fun s : State m n =>
          { s with visited := s.visited.erase p, path := s.path.dropLast }
        rw [List.length_append, List.length_singleton] at hback
        refine ⟨flag', Returns.call (fun fuel => ?_) (hend ▸ hback), ?_⟩
        · simp only [dfs, htake, ne_eq, not_true_eq_false, if_false, hne, hcell, hget, Option.bind_some, hfree,
            not_false_eq_true, and_self, if_true]
        · rw [foundAt_cons_iff (List.Perm.refl directions) hcell, hflag']
          simp [hfree]
      · refine ⟨flag, Returns.call (g := fun _ => some ⟨visited, path, flag⟩) (fun fuel => ?_) (Returns.pure _), ?_⟩
        · simp only [dfs, htake, ne_eq, not_true_eq_false, if_false, hne, hcell, hget, Option.bind_some, if_neg hgo]
        · rw [foundAt_cons_iff (List.Perm.refl directions) hcell]
          exact ⟨Or.inl, fun h => h.elim id fun hfound => by
            by_contra hflag
            exact hgo ⟨hfound.1, hfound.2.1, Bool.eq_false_iff.2 hflag⟩⟩

theorem helper_returns (board : Board m n) {target : Word} (htarget : target ≠ []) :
    ∃ flag, Returns (fun fuel => helper fuel board target) flag ∧ (flag = true ↔ Spelled board target) := by
  obtain ⟨a, rest, rfl⟩ := List.exists_cons_of_ne_nil htarget
  have hstep : ∀ (pre : List (Pos m n)) (p : Pos m n) (flag : Bool),
      (flag = true ↔ ∃ q ∈ pre, Trail board ∅ q (a :: rest)) →
      ∃ flag', Returns (fun fuel => if board.get p = a then
          (dfs board (a :: rest) fuel p.1 p.2 0 ⟨∅, [], flag⟩).map State.flag else some flag) flag' ∧
        (flag' = true ↔ ∃ q ∈ pre ++ [p], Trail board ∅ q (a :: rest)) := by
    intro pre p flag hflag
    rw [exists_mem_concat, ← hflag]
    by_cases hp : board.get p = a
    · have hcell : cell? (m + 1) (n + 1) p.1 p.2 = some p := cell?_eq_some.2 ⟨rfl, rfl⟩
      obtain ⟨flag', hret, hflag'⟩ := dfs_returns board (a :: rest) (a :: rest) [] ∅ p.1 p.2 flag rfl
      simp only [if_pos hp]
      refine ⟨flag', hret.map State.flag, hflag'.trans (or_congr Iff.rfl ?_)⟩
      constructor
      · rintro (h | ⟨q, hq, htrail⟩)
        · cases h
        · exact Option.some.inj (hcell.symm.trans hq) ▸ htrail
      · exact fun htrail => Or.inr ⟨p, hcell, htrail⟩
    · simp only [if_neg hp]
      refine ⟨flag, Returns.pure flag, (or_iff_left fun htrail => hp ?_).symm⟩
      obtain ⟨_, heq, -⟩ := trail_iff.1 htrail
      exact (List.cons.inj heq).1.symm
  obtain ⟨flag, hret, hflag⟩ := Returns.foldlM hstep (cells (m + 1) (n + 1)) []
    (iff_of_false Bool.false_ne_true fun ⟨q, hq, _⟩ => List.not_mem_nil hq)
  refine ⟨flag, hret, hflag.trans ?_⟩
  rw [spelled_iff (List.cons_ne_nil a rest)]
  exact exists_congr fun p => and_iff_right (mem_cells p)

/-- The first solution returns the words that can be read on the board. -/
theorem findWords_returns (board : Board m n) {words : List Word} (hwords : ∀ w ∈ words, w ≠ []) :
    ∃ res, Returns (fun fuel => findWords fuel board words) res ∧ ∀ w, w ∈ res ↔ w ∈ words ∧ Spelled board w := by
  refine Returns.foldlM_mem (P := fun pre res => ∀ w, w ∈ res ↔ w ∈ pre ∧ Spelled board w) words
    (fun pre word hword res hres => ?_) [] fun w => by simp
  obtain ⟨flag, hret, hflag⟩ := helper_returns board (hwords word hword)
  refine ⟨_, hret.map fun inWords => if inWords then res ++ [word] else res, fun w => ?_⟩
  simp only [List.mem_append, List.mem_singleton, or_and_right, ← hres w]
  split_ifs with h
  · rw [List.mem_append, List.mem_singleton]
    refine or_congr Iff.rfl ⟨fun hw => ⟨hw, hw ▸ hflag.1 h⟩, And.left⟩
  · exact (or_iff_left fun hw : w = word ∧ Spelled board w => h (hflag.2 (hw.1 ▸ hw.2))).symm

end Solution

end GoodGoodStudy.LeetCode.WordSearch
