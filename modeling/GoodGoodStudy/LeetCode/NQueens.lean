/-
The two solutions of the exercise 51, the n queens: row by row a column is chosen that no queen placed before attacks,
and three sets say which columns and diagonals are taken. The solutions differ in how they draw a board from the columns
of its queens. Both return the drawings of all placements of `n` queens that do not attack one another, each once and
in the same order.
-/
import Mathlib.Data.Finset.Card
import Mathlib.Data.Fintype.Prod
import Mathlib.Data.List.GetD
import GoodGoodStudy.Lib.Backtrack
import GoodGoodStudy.Lib.Loop
import GoodGoodStudy.Lib.Sequence

namespace GoodGoodStudy.LeetCode.NQueens

open GoodGoodStudy.Lib

abbrev Text := List Char

/-- The lines of a drawing. -/
abbrev Board := List Text

/-! ## The two solutions -/

/-- The variables that `backtrack` shares with its calls; `row` is the line that the first solution draws on. -/
structure State (ρ : Type) where
  solutions : List Board := []
  queens : List ℤ
  columns : Finset ℤ := ∅
  diagonal1 : Finset ℤ := ∅
  diagonal2 : Finset ℤ := ∅
  row : ρ

/-- `set.remove`, which raises if the element is not there. -/
def remove (s : Finset ℤ) (x : ℤ) : Option (Finset ℤ) := if x ∈ s then some (s.erase x) else none

/-- The body of the loop over the columns; `search` is the call for the next row. -/
def tryColumn {ρ : Type} (search : State ρ → Option (State ρ)) (row : ℤ) (s : State ρ) (i : ℕ) : Option (State ρ) :=
  if (i : ℤ) ∈ s.columns ∨ row - i ∈ s.diagonal1 ∨ row + i ∈ s.diagonal2 then some s
  else do
    let queens ← setItem? s.queens row i
    let s ← search { s with
      queens
      columns := insert (i : ℤ) s.columns
      diagonal1 := insert (row - i) s.diagonal1
      diagonal2 := insert (row + i) s.diagonal2 }
    let columns ← remove s.columns i
    let diagonal1 ← remove s.diagonal1 (row - i)
    let diagonal2 ← remove s.diagonal2 (row + i)
    return { s with columns, diagonal1, diagonal2 }

/-- `backtrack(row)` with `left = n - row` rows to go; `generate` draws the board when none is left. `none` is an error
of an index or a set. -/
def backtrackWith {ρ : Type} (n : ℕ) (generate : List ℤ → ρ → Option (Board × ρ)) : ℕ → State ρ → Option (State ρ)
  | 0, s => (generate s.queens s.row).map fun (board, row) => { s with solutions := s.solutions ++ [board], row }
  | left + 1, s => (List.range n).foldlM (tryColumn (backtrackWith n generate left) (n - (left + 1))) s

def solveWith {ρ : Type} (n : ℕ) (generate : List ℤ → ρ → Option (Board × ρ)) (row : ρ) : Option (List Board) :=
  (backtrackWith n generate n { queens := List.replicate n (-1), row }).map State.solutions

/-- The board, and the line on which all of its lines are drawn. -/
def Solution.generateBoard (n : ℕ) (queens : List ℤ) (row : Text) : Option (Board × Text) :=
  (List.range n).foldlM (fun (board, row) (i : ℕ) => do
    let q ← item? queens i
    let row ← setItem? row q 'Q'
    let board := board ++ [row]
    let row ← setItem? row q '.'
    return (board, row)) ([], row)

def Solution.solveNQueens (n : ℕ) : Option (List Board) := solveWith n (generateBoard n) (List.replicate n '.')

/-- An empty board, whose lines get their queens one after the other. -/
def Solution2.generateBoard (n : ℕ) (queens : List ℤ) : Option Board :=
  (List.range n).foldlM (fun tmp (i : ℕ) => do
    let q ← item? queens i
    let line ← item? tmp i
    let line ← setItem? line q 'Q'
    setItem? tmp i line) (List.replicate n (List.replicate n '.'))

def Solution2.solveNQueens (n : ℕ) : Option (List Board) :=
  solveWith n (fun queens _ => (generateBoard n queens).map fun board => (board, ())) ()

/-! ## Placements -/

variable {n : ℕ}

/-- Two different queens in one row, one column or one diagonal. -/
def Attacks (p q : Cell n n) : Prop :=
  p ≠ q ∧ (p.1 = q.1 ∨ p.2 = q.2 ∨ (p.1 : ℤ) - p.2 = q.1 - q.2 ∨ (p.1 : ℤ) + p.2 = q.1 + q.2)

/-- The cells of `n` queens that do not attack one another. -/
structure IsPlacement (S : Finset (Cell n n)) : Prop where
  card : S.card = n
  peaceful : ∀ p ∈ S, ∀ q ∈ S, ¬ Attacks p q

def draw (S : Finset (Cell n n)) : Board :=
  (List.finRange n).map fun i => (List.finRange n).map fun j => if (i, j) ∈ S then 'Q' else '.'

theorem draw_injective : Function.Injective (draw (n := n)) := by
  intro S T h
  ext ⟨i, j⟩
  have hline := List.map_inj_left.1 h i (List.mem_finRange i)
  have hletter := List.map_inj_left.1 hline j (List.mem_finRange j)
  split_ifs at hletter with hS hT hT
  · exact iff_of_true hS hT
  · exact absurd hletter (by decide)
  · exact absurd hletter (by decide)
  · exact iff_of_false hS hT

/-- In every row there is one of the queens. -/
theorem IsPlacement.exists_column {S : Finset (Cell n n)} (h : IsPlacement S) (i : Fin n) : ∃ j, (i, j) ∈ S := by
  have hinj : Set.InjOn Prod.fst (S : Set (Cell n n)) := fun p hp q hq hpq => by
    by_contra hne
    exact h.peaceful p hp q hq ⟨hne, Or.inl hpq⟩
  have huniv : S.image Prod.fst = Finset.univ := by
    rw [← Finset.card_eq_iff_eq_univ, Finset.card_image_of_injOn hinj, h.card, Fintype.card_fin]
  obtain ⟨⟨k, j⟩, hmem, rfl⟩ := Finset.mem_image.1 (huniv ▸ Finset.mem_univ i)
  exact ⟨j, hmem⟩

/-! ## The columns of the queens, row by row -/

/-- The cell in the next row and this column is attacked by none of the queens in the rows before. -/
def Free (qs : List ℕ) (c : ℕ) : Prop :=
  ∀ p ∈ qs.zipIdx, p.1 ≠ c ∧ (p.2 : ℤ) - p.1 ≠ qs.length - c ∧ (p.2 : ℤ) + p.1 ≠ qs.length + c

instance (qs : List ℕ) : DecidablePred (Free qs) := fun _ => List.decidableBAll _ _

theorem free_iff {qs : List ℕ} {c : ℕ} : Free qs c ↔ ∀ (r q : ℕ), qs[r]? = some q →
    q ≠ c ∧ (r : ℤ) - q ≠ qs.length - c ∧ (r : ℤ) + q ≠ qs.length + c := by
  constructor
  · intro h r q hq
    exact h (q, r) (List.mk_mem_zipIdx_iff_getElem?.2 hq)
  · rintro h ⟨q, r⟩ hmem
    exact h r q (List.mk_mem_zipIdx_iff_getElem?.1 hmem)

/-- The columns of all placements, in the order of the search. -/
abbrev columnLists (n : ℕ) : List (List ℕ) := extensions Free (List.range n) n []

theorem mem_columnLists {qs : List ℕ} : qs ∈ columnLists n ↔ qs.length = n ∧ (∀ q ∈ qs, q < n) ∧
    ∀ (r r' q q' : ℕ), r < r' → qs[r]? = some q → qs[r']? = some q' →
      q ≠ q' ∧ (r : ℤ) - q ≠ r' - q' ∧ (r : ℤ) + q ≠ r' + q' := by
  rw [columnLists, mem_extensions]
  simp only [List.nil_append, List.mem_range, exists_eq_left', allowed_iff]
  refine and_congr_right fun hlen => and_congr_right fun _ => ?_
  constructor
  · intro h r r' q q' hlt hq hq'
    obtain ⟨hr', rfl⟩ := List.getElem?_eq_some_iff.1 hq'
    have hfree := h (qs.take r') qs[r'] (qs.drop (r' + 1)) (by rw [← List.drop_eq_getElem_cons, List.take_append_drop])
    have hlength : (qs.take r').length = r' := List.length_take_of_le hr'.le
    have hattack := free_iff.1 hfree r q (by rw [List.getElem?_take_of_lt hlt, hq])
    rwa [hlength] at hattack
  · rintro h u a v rfl
    refine free_iff.2 fun r q hq => ?_
    have hr : r < u.length := (List.getElem?_eq_some_iff.1 hq).1
    exact h r u.length q a hr (by rw [List.getElem?_append_left hr, hq]) (by simp)

def cellsOf (n : ℕ) (qs : List ℕ) : Finset (Cell n n) := {p | qs[(p.1 : ℕ)]? = some (p.2 : ℕ)}

theorem mem_cellsOf {qs : List ℕ} {p : Cell n n} : p ∈ cellsOf n qs ↔ qs[(p.1 : ℕ)]? = some (p.2 : ℕ) := by
  rw [cellsOf, Finset.mem_filter_univ]

theorem exists_mem_cellsOf {qs : List ℕ} (h : qs ∈ columnLists n) (i : Fin n) :
    ∃ j : Fin n, qs[(i : ℕ)]? = some (j : ℕ) := by
  obtain ⟨hlen, hlt, -⟩ := mem_columnLists.1 h
  have hi : (i : ℕ) < qs.length := hlen ▸ i.isLt
  exact ⟨⟨qs[(i : ℕ)], hlt _ (List.getElem_mem hi)⟩, List.getElem?_eq_getElem hi⟩

theorem isPlacement_cellsOf {qs : List ℕ} (h : qs ∈ columnLists n) : IsPlacement (cellsOf n qs) := by
  choose j hj using exists_mem_cellsOf h
  obtain ⟨-, -, hfree⟩ := mem_columnLists.1 h
  refine ⟨?_, fun p hp q hq hattack => ?_⟩
  · have heq : cellsOf n qs = Finset.univ.image fun i => (i, j i) := by
      ext ⟨i, k⟩
      rw [mem_cellsOf, hj i, Finset.mem_image]
      constructor
      · intro hk
        exact ⟨i, Finset.mem_univ i, Prod.ext rfl (Fin.ext (Option.some.inj hk))⟩
      · rintro ⟨i', -, heq⟩
        obtain ⟨rfl, rfl⟩ := Prod.ext_iff.1 heq
        rfl
    rw [heq, Finset.card_image_of_injective _ fun i i' hii => (Prod.ext_iff.1 hii).1, Finset.card_univ,
      Fintype.card_fin]
  · obtain ⟨hne, hattack⟩ := hattack
    have hp' := mem_cellsOf.1 hp
    have hq' := mem_cellsOf.1 hq
    rcases lt_trichotomy (p.1 : ℕ) q.1 with hlt | heq | hlt
    · obtain ⟨hcol, hminus, hplus⟩ := hfree p.1 q.1 p.2 q.2 hlt hp' hq'
      rcases hattack with hrow | hcol' | hminus' | hplus'
      · exact hlt.ne (congrArg Fin.val hrow)
      · exact hcol (congrArg Fin.val hcol')
      · exact hminus hminus'
      · exact hplus hplus'
    · rw [heq, hq'] at hp'
      exact hne (Prod.ext (Fin.ext heq) (Fin.ext (Option.some.inj hp').symm))
    · obtain ⟨hcol, hminus, hplus⟩ := hfree q.1 p.1 q.2 p.2 hlt hq' hp'
      rcases hattack with hrow | hcol' | hminus' | hplus'
      · exact hlt.ne' (congrArg Fin.val hrow)
      · exact hcol (congrArg Fin.val hcol').symm
      · exact hminus hminus'.symm
      · exact hplus hplus'.symm

theorem IsPlacement.exists_columns {S : Finset (Cell n n)} (h : IsPlacement S) :
    ∃ qs ∈ columnLists n, cellsOf n qs = S := by
  choose j hj using h.exists_column
  have hget : ∀ {r q : ℕ}, (List.ofFn fun i => (j i : ℕ))[r]? = some q ↔ ∃ hr : r < n, (j ⟨r, hr⟩ : ℕ) = q := by
    intro r q
    rw [List.getElem?_eq_some_iff]
    simp
  refine ⟨List.ofFn fun i => (j i : ℕ), mem_columnLists.2 ⟨List.length_ofFn, ?_, ?_⟩, ?_⟩
  · intro q hq
    obtain ⟨i, rfl⟩ := List.mem_ofFn.1 hq
    exact (j i).isLt
  · intro r r' q q' hlt hq hq'
    obtain ⟨hr, rfl⟩ := hget.1 hq
    obtain ⟨hr', rfl⟩ := hget.1 hq'
    have hne : ((⟨r, hr⟩, j ⟨r, hr⟩) : Cell n n) ≠ (⟨r', hr'⟩, j ⟨r', hr'⟩) :=
      fun heq => hlt.ne (congrArg Fin.val (Prod.ext_iff.1 heq).1)
    have hpeace := h.peaceful _ (hj ⟨r, hr⟩) _ (hj ⟨r', hr'⟩)
    refine ⟨fun heq => hpeace ⟨hne, Or.inr (Or.inl (Fin.ext heq))⟩, fun heq => ?_, fun heq => ?_⟩
    · exact hpeace ⟨hne, Or.inr (Or.inr (Or.inl heq))⟩
    · exact hpeace ⟨hne, Or.inr (Or.inr (Or.inr heq))⟩
  · ext ⟨i, k⟩
    rw [mem_cellsOf, hget]
    constructor
    · rintro ⟨_, hk⟩
      obtain rfl : j i = k := Fin.ext hk
      exact hj i
    · intro hmem
      refine ⟨i.isLt, ?_⟩
      -- two queens in one row would attack each other
      by_contra hne
      exact h.peaceful _ (hj i) _ hmem ⟨fun heq => hne (congrArg Fin.val (Prod.ext_iff.1 heq).2), Or.inl rfl⟩

theorem cellsOf_injOn : Set.InjOn (cellsOf n) {qs | qs ∈ columnLists n} := by
  intro qs h qs' h' heq
  refine List.ext_getElem? fun r => ?_
  by_cases hr : r < n
  · obtain ⟨j, hj⟩ := exists_mem_cellsOf h ⟨r, hr⟩
    have hmem : (⟨r, hr⟩, j) ∈ cellsOf n qs' := heq ▸ mem_cellsOf.2 hj
    exact hj.trans (mem_cellsOf.1 hmem).symm
  · have hlen := (mem_columnLists.1 h).1
    have hlen' := (mem_columnLists.1 h').1
    rw [List.getElem?_eq_none (by omega), List.getElem?_eq_none (by omega)]

/-! ## Drawings -/

/-- The line with a queen in this column. -/
def line (n q : ℕ) : Text := (List.replicate n '.').set q 'Q'

theorem draw_cellsOf {qs : List ℕ} (h : qs ∈ columnLists n) : draw (cellsOf n qs) = qs.map (line n) := by
  obtain ⟨hlen, -, -⟩ := mem_columnLists.1 h
  refine List.ext_getElem (by simp [draw, hlen]) fun i hi hi' => ?_
  refine List.ext_getElem (by simp [draw, line]) fun j hj hj' => ?_
  have hiq : i < qs.length := by simpa using hi'
  have hjn : j < n := by simpa [line] using hj'
  simp only [draw, List.getElem_map, List.getElem_finRange, mem_cellsOf, line, List.getElem_set,
    List.getElem_replicate, Fin.val_cast, List.getElem?_eq_getElem hiq, Option.some.injEq]

/-- The columns as they stand in `queens`. -/
def entries (qs : List ℕ) : List ℤ := qs.map (↑)

theorem item?_entries {qs : List ℕ} {i : ℕ} (hi : i < qs.length) : item? (entries qs) i = some (qs[i] : ℤ) := by
  rw [entries, item?_natCast (by rwa [List.length_map]), List.getElem_map]

theorem map_range_line {qs : List ℕ} (hlen : qs.length = n) :
    ((List.range n).map fun i => line n (qs.getD i 0)) = qs.map (line n) := by
  refine List.ext_getElem (by simp [hlen]) fun i hi hi' => ?_
  have hiq : i < qs.length := by simpa using hi'
  simp only [List.getElem_map, List.getElem_range, List.getD_eq_getElem _ _ hiq]

theorem set_line {q : ℕ} (hq : q < n) : setItem? (List.replicate n '.') q 'Q' = some (line n q) ∧
    setItem? (line n q) q '.' = some (List.replicate n '.') ∧ setItem? (line n q) q 'Q' = some (line n q) := by
  refine ⟨setItem?_natCast (by simpa using hq) _, ?_, ?_⟩
  · rw [setItem?_natCast (by simpa [line] using hq), line, List.set_set]
    exact congrArg some (List.ext_getElem (by simp) fun j _ _ => by simp)
  · rw [setItem?_natCast (by simpa [line] using hq), line, List.set_set]

/-- The line that the first solution draws on is empty again after the board is drawn. -/
theorem generateBoard_spec {qs : List ℕ} (hlen : qs.length = n) (hlt : ∀ q ∈ qs, q < n) :
    Solution.generateBoard n (entries qs) (List.replicate n '.') =
      some (qs.map (line n), List.replicate n '.') := by
  unfold Solution.generateBoard
  refine foldlM_eq_some (P := fun pre s =>
    s = ((pre.map fun i => line n (qs.getD i 0)), List.replicate n '.')) ?_ rfl ?_
  · rintro pre i hi _ rfl
    have hiq : i < qs.length := hlen ▸ List.mem_range.1 hi
    obtain ⟨hset, hback, -⟩ := set_line (hlt _ (List.getElem_mem hiq))
    refine ⟨_, ?_, rfl⟩
    simp only [item?_entries hiq, hset, hback, bind, Option.bind_some, List.map_append, List.map_singleton,
      List.getD_eq_getElem _ _ hiq]
    rfl
  · rintro _ rfl
    rw [map_range_line hlen]

/-- The lines that the second solution has drawn, and the empty ones. -/
theorem generateBoard_spec' {qs : List ℕ} (hlen : qs.length = n) (hlt : ∀ q ∈ qs, q < n) :
    Solution2.generateBoard n (entries qs) = some (qs.map (line n)) := by
  unfold Solution2.generateBoard
  refine foldlM_eq_some (P := fun pre tmp => tmp = (List.range n).map fun i =>
    if i ∈ pre then line n (qs.getD i 0) else List.replicate n '.') ?_ ?_ ?_
  · rintro pre i hi _ rfl
    have hin : i < n := List.mem_range.1 hi
    have hiq : i < qs.length := hlen ▸ hin
    obtain ⟨hset, -, hagain⟩ := set_line (hlt _ (List.getElem_mem hiq))
    have hdrawn : setItem? (if i ∈ pre then line n (qs.getD i 0) else List.replicate n '.') qs[i] 'Q' =
        some (line n qs[i]) := by
      rw [List.getD_eq_getElem _ _ hiq]
      split_ifs
      · exact hagain
      · exact hset
    have hlength : i < ((List.range n).map fun i =>
        if i ∈ pre then line n (qs.getD i 0) else List.replicate n '.').length := by simpa using hin
    refine ⟨_, ?_, rfl⟩
    simp only [item?_entries hiq, item?_natCast hlength, List.getElem_map, List.getElem_range, hdrawn,
      setItem?_natCast hlength, bind, Option.bind_some]
    refine congrArg some (List.ext_getElem (by simp) fun k hk hk' => ?_)
    simp only [List.getElem_set, List.getElem_map, List.getElem_range, List.mem_append, List.mem_singleton]
    by_cases hik : i = k
    · subst hik
      simp only [if_true, or_true, List.getD_eq_getElem _ _ hiq]
    · simp only [hik, Ne.symm hik, if_false, or_false]
  · simp
  · rintro _ rfl
    rw [← map_range_line hlen]
    exact List.map_congr_left fun i hi => if_pos hi

/-! ## The search -/

/-- The set has the value of each of the queens. -/
def Marks (f : ℤ → ℤ → ℤ) (S : Finset ℤ) (qs : List ℕ) : Prop :=
  ∀ x, x ∈ S ↔ ∃ r q : ℕ, qs[r]? = some q ∧ f r q = x

theorem marks_empty (f : ℤ → ℤ → ℤ) : Marks f ∅ [] := fun x => by simp

theorem Marks.push {f : ℤ → ℤ → ℤ} {S : Finset ℤ} {qs : List ℕ} (h : Marks f S qs) (c : ℕ) :
    Marks f (insert (f qs.length c) S) (qs ++ [c]) := by
  intro x
  rw [Finset.mem_insert, h x]
  constructor
  · rintro (rfl | ⟨r, q, hq, rfl⟩)
    · exact ⟨qs.length, c, List.getElem?_concat_length, rfl⟩
    · exact ⟨r, q, by rw [List.getElem?_append_left (List.getElem?_eq_some_iff.1 hq).1, hq], rfl⟩
  · rintro ⟨r, q, hq, rfl⟩
    rw [List.getElem?_append] at hq
    split_ifs at hq with hr
    · exact Or.inr ⟨r, q, hq, rfl⟩
    · obtain ⟨hlt, rfl⟩ := List.getElem?_eq_some_iff.1 hq
      have hlen : r = qs.length := by simp at hlt; omega
      subst hlen
      exact Or.inl (by simp)

theorem Marks.notMem {f : ℤ → ℤ → ℤ} {S : Finset ℤ} {qs : List ℕ} (h : Marks f S qs) {x : ℤ} :
    x ∉ S ↔ ∀ r q : ℕ, qs[r]? = some q → f r q ≠ x := by
  rw [h x]
  push Not
  rfl

/-- The variables when queens stand in these columns of the first rows. -/
structure Placing {ρ : Type} (n : ℕ) (row : ρ) (qs : List ℕ) (s : State ρ) : Prop where
  length : s.queens.length = n
  queens : s.queens.take qs.length = entries qs
  columns : Marks (fun _ q => q) s.columns qs
  diagonal1 : Marks (fun r q => r - q) s.diagonal1 qs
  diagonal2 : Marks (fun r q => r + q) s.diagonal2 qs
  row : s.row = row

theorem Placing.not_attacked_iff {ρ : Type} {row : ρ} {qs : List ℕ} {s : State ρ} (h : Placing n row qs s) (c : ℕ) :
    ¬ ((c : ℤ) ∈ s.columns ∨ (qs.length : ℤ) - c ∈ s.diagonal1 ∨ (qs.length : ℤ) + c ∈ s.diagonal2) ↔ Free qs c := by
  rw [free_iff, not_or, not_or, h.columns.notMem, h.diagonal1.notMem, h.diagonal2.notMem]
  constructor
  · rintro ⟨hcol, hminus, hplus⟩ r q hq
    exact ⟨fun heq => hcol r q hq (congrArg _ heq), hminus r q hq, hplus r q hq⟩
  · intro hfree
    exact ⟨fun r q hq heq => (hfree r q hq).1 (Int.ofNat_inj.1 heq), fun r q hq => (hfree r q hq).2.1,
      fun r q hq => (hfree r q hq).2.2⟩

theorem remove_insert {S : Finset ℤ} {x : ℤ} (hx : x ∉ S) : remove (insert x S) x = some S := by
  rw [remove, if_pos (Finset.mem_insert_self x S), Finset.erase_insert hx]

/-- A call appends the boards that it finds and leaves everything else as it was, but for the columns in the rows that
are still to be filled. -/
def Finds {ρ : Type} (n : ℕ) (qs : List ℕ) (s : State ρ) (found : List (List ℕ)) (s' : State ρ) : Prop :=
  ∃ queens, s' = { s with solutions := s.solutions ++ found.map (List.map (line n)), queens } ∧ queens.length = n ∧
    queens.take qs.length = entries qs

theorem Placing.congr {ρ : Type} {row : ρ} {qs : List ℕ} {s s' : State ρ} {found : List (List ℕ)}
    (h : Placing n row qs s) (hfinds : Finds n qs s found s') : Placing n row qs s' := by
  obtain ⟨queens, rfl, hlength, htake⟩ := hfinds
  exact ⟨hlength, htake, h.columns, h.diagonal1, h.diagonal2, h.row⟩

theorem Finds.trans {ρ : Type} {qs : List ℕ} {s s₁ s₂ : State ρ} {found₁ found₂ : List (List ℕ)}
    (h₁ : Finds n qs s found₁ s₁) (h₂ : Finds n qs s₁ found₂ s₂) : Finds n qs s (found₁ ++ found₂) s₂ := by
  obtain ⟨queens₁, rfl, -, -⟩ := h₁
  obtain ⟨queens₂, rfl, hlength, htake⟩ := h₂
  exact ⟨queens₂, by rw [List.map_append, List.append_assoc], hlength, htake⟩

theorem tryColumn_finds {ρ : Type} {row : ρ} {search : State ρ → Option (State ρ)} {qs : List ℕ} {c : ℕ}
    {found : List (List ℕ)} (hlen : qs.length < n)
    (hsearch : ∀ {s}, Placing n row (qs ++ [c]) s → ∃ s', search s = some s' ∧ Finds n (qs ++ [c]) s found s')
    {s : State ρ} (h : Placing n row qs s) :
    ∃ s', tryColumn search qs.length s c = some s' ∧ Finds n qs s (if Free qs c then found else []) s' := by
  by_cases hfree : Free qs c
  · have hnot := (h.not_attacked_iff c).2 hfree
    obtain ⟨hcol, hminus, hplus⟩ : (c : ℤ) ∉ s.columns ∧ (qs.length : ℤ) - c ∉ s.diagonal1 ∧
        (qs.length : ℤ) + c ∉ s.diagonal2 := by rwa [not_or, not_or] at hnot
    have hset : setItem? s.queens qs.length (c : ℤ) = some (s.queens.set qs.length c) :=
      setItem?_natCast (h.length ▸ hlen) _
    have hlength : qs.length < (s.queens.set qs.length (c : ℤ)).length := by
      rw [List.length_set, h.length]
      exact hlen
    have hpush : (s.queens.set qs.length (c : ℤ)).take (qs ++ [c]).length = entries (qs ++ [c]) := by
      rw [List.length_append, List.length_singleton, List.take_succ_eq_append_getElem hlength,
        List.take_set_of_le le_rfl, h.queens, List.getElem_set_self, entries, entries, List.map_append]
      rfl
    obtain ⟨s', hs', queens, rfl, hlength, htake⟩ := hsearch (s := { s with
      queens := s.queens.set qs.length c
      columns := insert (c : ℤ) s.columns
      diagonal1 := insert ((qs.length : ℤ) - c) s.diagonal1
      diagonal2 := insert ((qs.length : ℤ) + c) s.diagonal2 })
      ⟨by rw [List.length_set, h.length], hpush, h.columns.push c, h.diagonal1.push c, h.diagonal2.push c, h.row⟩
    refine ⟨_, ?_, queens, rfl, hlength, ?_⟩
    · rw [tryColumn, if_neg hnot, if_pos hfree]
      simp only [hset, hs', remove_insert hcol, remove_insert hminus, remove_insert hplus, bind, Option.bind_some]
      rfl
    · have hprefix := congrArg (List.take qs.length) htake
      rwa [List.take_take, entries, List.length_append, Nat.min_eq_left (Nat.le_add_right _ _), List.map_append,
        List.take_left' (List.length_map _)] at hprefix
  · refine ⟨s, ?_, s.queens, ?_, h.length, h.queens⟩
    · rw [tryColumn, if_pos (not_not.1 fun hnot => hfree ((h.not_attacked_iff c).1 hnot))]
    · rw [if_neg hfree, List.map_nil, List.append_nil]

theorem backtrackWith_finds {ρ : Type} {row : ρ} {generate : List ℤ → ρ → Option (Board × ρ)}
    (hgenerate : ∀ {qs : List ℕ}, qs.length = n → (∀ q ∈ qs, q < n) →
      generate (entries qs) row = some (qs.map (line n), row)) (left : ℕ) {qs : List ℕ} {s : State ρ}
    (hlen : qs.length + left = n) (hlt : ∀ q ∈ qs, q < n) (h : Placing n row qs s) :
    ∃ s', backtrackWith n generate left s = some s' ∧ Finds n qs s (extensions Free (List.range n) left qs) s' := by
  induction left generalizing qs s with
  | zero =>
    have hqueens : s.queens = entries qs := by
      rw [← h.queens, List.take_of_length_le (by rw [h.length]; omega)]
    refine ⟨_, ?_, s.queens, rfl, h.length, h.queens⟩
    rw [backtrackWith, h.row, hqueens, hgenerate hlen hlt, ← h.row, ← hqueens]
    rfl
  | succ left ih =>
    have hrow : (n : ℤ) - (left + 1) = qs.length := by omega
    rw [backtrackWith, hrow]
    refine exists_foldlM (P := fun pre s' => Finds n qs s
      (pre.flatMap fun c => if Free qs c then extensions Free (List.range n) left (qs ++ [c]) else []) s')
      (List.range n) (fun pre c hc s₁ h₁ => ?_) ⟨s.queens, by simp, h.length, h.queens⟩
    have hcn : ∀ q ∈ qs ++ [c], q < n := by
      intro q hq
      rcases List.mem_append.1 hq with hq | hq
      · exact hlt q hq
      · rw [List.mem_singleton.1 hq]
        exact List.mem_range.1 hc
    obtain ⟨s₂, hs₂, h₂⟩ := tryColumn_finds (by omega)
      (fun hplacing => ih (by rw [List.length_append, List.length_singleton]; omega) hcn hplacing) (h.congr h₁)
    refine ⟨s₂, hs₂, ?_⟩
    rw [List.flatMap_append, List.flatMap_singleton]
    exact h₁.trans h₂

/-- Both solutions return the boards of the lists of columns, in their order. -/
theorem solveWith_returns {ρ : Type} {row : ρ} {generate : List ℤ → ρ → Option (Board × ρ)}
    (hgenerate : ∀ {qs : List ℕ}, qs.length = n → (∀ q ∈ qs, q < n) →
      generate (entries qs) row = some (qs.map (line n), row)) :
    solveWith n generate row = some ((columnLists n).map (List.map (line n))) := by
  have hstart : Placing n row [] { queens := List.replicate n (-1), row } :=
    ⟨List.length_replicate, rfl, marks_empty _, marks_empty _, marks_empty _, rfl⟩
  have hlen : ([] : List ℕ).length + n = n := Nat.zero_add n
  obtain ⟨s', hs', queens, rfl, -, -⟩ :=
    backtrackWith_finds hgenerate n hlen (fun q hq => absurd hq List.not_mem_nil) hstart
  rw [solveWith, hs']
  rfl

/-- The two solutions return the same list: the drawings of a list that has every placement exactly once. -/
theorem solveNQueens_exact (n : ℕ) : ∃ placements : List (Finset (Cell n n)),
    placements.Nodup ∧ (∀ S, S ∈ placements ↔ IsPlacement S) ∧
      Solution.solveNQueens n = some (placements.map draw) ∧ Solution2.solveNQueens n = some (placements.map draw) ∧
      Function.Injective (draw (n := n)) := by
  have hdraw : ((columnLists n).map (cellsOf n)).map draw = (columnLists n).map (List.map (line n)) := by
    rw [List.map_map]
    exact List.map_congr_left fun qs hqs => draw_cellsOf hqs
  refine ⟨(columnLists n).map (cellsOf n), ?_, fun S => ?_, ?_, ?_, draw_injective⟩
  · exact (nodup_extensions Free _ List.nodup_range n []).map_on cellsOf_injOn
  · rw [List.mem_map]
    constructor
    · rintro ⟨qs, hqs, rfl⟩
      exact isPlacement_cellsOf hqs
    · exact IsPlacement.exists_columns
  · rw [hdraw]
    exact solveWith_returns generateBoard_spec
  · rw [hdraw]
    exact solveWith_returns fun hlen hlt => by rw [generateBoard_spec' hlen hlt]; rfl

example : Solution.solveNQueens 4 = some
    [[".Q..".toList, "...Q".toList, "Q...".toList, "..Q.".toList],
      ["..Q.".toList, "Q...".toList, "...Q".toList, ".Q..".toList]] := by decide +kernel

end GoodGoodStudy.LeetCode.NQueens
