/-
The exercise 63, paths through a grid with obstacles. The first version goes back from the end, and marks a cell that
cannot be passed by -1 in the table. The loops over the last column and the last row copy the mark from cell to cell,
and the main loop takes a mark for nothing; but in a grid that has only one row or column there is no main loop, and the
mark is returned. The second version goes forward, without marks.
-/
import GoodGoodStudy.Lib.Loop
import GoodGoodStudy.Lib.Routes
import GoodGoodStudy.Lib.Sequence
import GoodGoodStudy.Lib.Table

namespace GoodGoodStudy.LeetCode.UniquePaths

open GoodGoodStudy.Lib

variable {r c : ℕ}

/-! ## The code -/

namespace Solution

def mark (obstacleGrid dp : Grid r c ℤ) (i j : ℕ) : Option (Grid r c ℤ) := do
  if (← obstacleGrid.item? i j) = 1 then dp.setItem? i j (-1) else some dp

/-- A round of the loop over the last column. -/
def lastCol (dp : Grid r c ℤ) (i : ℕ) : Option (Grid r c ℤ) := do
  if (← dp.item? i (c - 1)) = -1 then some dp
  else dp.setItem? i (c - 1) (← dp.item? (i + 1) (c - 1))

def lastRow (dp : Grid r c ℤ) (j : ℕ) : Option (Grid r c ℤ) := do
  if (← dp.item? (r - 1) j) = -1 then some dp
  else dp.setItem? (r - 1) j (← dp.item? (r - 1) (j + 1))

/-- A round of the main loop. -/
def add (dp : Grid r c ℤ) (x y : ℕ) : Option (Grid r c ℤ) := do
  if (← dp.item? x y) = -1 then some dp
  else
    let down ← dp.item? (x + 1) y
    let right ← dp.item? x (y + 1)
    if down = -1 ∧ right = -1 then dp.setItem? x y 0
    else if right = -1 then dp.setItem? x y down
    else if down = -1 then dp.setItem? x y right
    else dp.setItem? x y (down + right)

def uniquePathsWithObstacles (obstacleGrid : Grid r c ℤ) : Option ℤ := do
  let dp := Grid.replicate r c 0
  let dp ← (List.range r).foldlM (fun dp i => (List.range c).foldlM (fun dp j => mark obstacleGrid dp i j) dp) dp
  if (← dp.item? (r - 1) (c - 1)) = -1 ∨ (← dp.item? 0 0) = -1 then some 0
  else
    let dp ← dp.setItem? (r - 1) (c - 1) 1
    let dp ← (List.range (r - 1)).reverse.foldlM lastCol dp
    let dp ← (List.range (c - 1)).reverse.foldlM lastRow dp
    let dp ← (List.range (r - 1)).reverse.foldlM
      (fun dp x => (List.range (c - 1)).reverse.foldlM (fun dp y => add dp x y) dp) dp
    dp.item? 0 0

end Solution

namespace Solution2

/-- What is above is added, if it is not the first row. -/
def addAbove (dp : Grid r c ℤ) (i j : ℕ) : Option (Grid r c ℤ) :=
  if (i : ℤ) - 1 ≥ 0 then do dp.setItem? i j ((← dp.item? i j) + (← dp.item? (i - 1) j)) else some dp

def addLeft (dp : Grid r c ℤ) (i j : ℕ) : Option (Grid r c ℤ) :=
  if (j : ℤ) - 1 ≥ 0 then do dp.setItem? i j ((← dp.item? i j) + (← dp.item? i (j - 1))) else some dp

/-- A round of the inner loop. -/
def add (obstacleGrid dp : Grid r c ℤ) (i j : ℕ) : Option (Grid r c ℤ) := do
  if (← obstacleGrid.item? i j) = 1 then dp.setItem? i j 0
  else
    let dp ← addAbove dp i j
    addLeft dp i j

def uniquePathsWithObstacles (obstacleGrid : Grid r c ℤ) : Option ℤ := do
  let dp := Grid.replicate r c 0
  let dp ← dp.setItem? 0 0 (if (← obstacleGrid.item? 0 0) = 0 then 1 else 0)
  let dp ← (List.range r).foldlM (fun dp i => (List.range c).foldlM (fun dp j => add obstacleGrid dp i j) dp) dp
  dp.item? (-1) (-1)

end Solution2

example : Solution.uniquePathsWithObstacles ⟨#v[#v[0, 0, 0], #v[0, 1, 0], #v[0, 0, 0]]⟩ = some 2 := by decide

example : Solution2.uniquePathsWithObstacles ⟨#v[#v[0, 0, 0], #v[0, 1, 0], #v[0, 0, 0]]⟩ = some 2 := by decide

example : Solution.uniquePathsWithObstacles ⟨#v[#v[0, 1, 0]]⟩ = some (-1) := by decide

/-! ## Paths -/

/-- A step right or down. -/
def Goes (p q : Cell r c) : Prop :=
  (q.1 : ℕ) = p.1 ∧ (q.2 : ℕ) = p.2 + 1 ∨ (q.1 : ℕ) = p.1 + 1 ∧ (q.2 : ℕ) = p.2

def Free (obstacleGrid : Grid r c ℤ) (p : Cell r c) : Prop := obstacleGrid.get p ≠ 1

/-- The paths that touch no cell marked 1. -/
def Paths (obstacleGrid : Grid r c ℤ) (p q : Cell r c) : Set (List (Cell r c)) := Routes Goes (Free obstacleGrid) p q

theorem rank_lt (p q : Cell r c) (h : Goes p q) : (p.1 : ℕ) + p.2 < q.1 + q.2 := by
  unfold Goes at h
  omega

theorem rank_lt_flip (p q : Cell r c) (h : flip Goes p q) : r + c - (p.1 + p.2) < r + c - (q.1 + q.2 : ℕ) := by
  have hlt := rank_lt q p h
  have hp₁ := p.1.isLt
  have hp₂ := p.2.isLt
  omega

variable {m n : ℕ} {g dp : Grid (m + 1) (n + 1) ℤ} {p q q' : Cell (m + 1) (n + 1)}

theorem exists_cell {x y : ℕ} (hx : x ≤ m) (hy : y ≤ n) :
    ∃ p : Cell (m + 1) (n + 1), (p.1 : ℕ) = x ∧ (p.2 : ℕ) = y :=
  ⟨(⟨x, Nat.lt_succ_of_le hx⟩, ⟨y, Nat.lt_succ_of_le hy⟩), rfl, rfl⟩

/-- The bottom right cell. -/
def finish (m n : ℕ) : Cell (m + 1) (n + 1) := (Fin.last m, Fin.last n)

theorem not_goes_finish (x : Cell (m + 1) (n + 1)) : ¬Goes (finish m n) x := by
  have hx₁ := x.1.isLt
  have hx₂ := x.2.isLt
  unfold Goes finish
  simp only [Fin.val_last]
  omega

theorem not_goes_start (x : Cell (m + 1) (n + 1)) : ¬flip Goes (0, 0) x := by
  unfold flip Goes
  simp only [Fin.val_zero]
  omega

theorem item?_start (g : Grid (m + 1) (n + 1) ℤ) : g.item? 0 0 = some (g.get (0, 0)) :=
  Grid.item?_eq (p := (0, 0)) rfl rfl g

theorem item?_last (g : Grid (m + 1) (n + 1) ℤ) : g.item? (-1) (-1) = some (g.get (finish m n)) := by
  have hlast : ∀ k : ℕ, position? (k + 1) (-1) = some (Fin.last k) := fun k => index?_eq_some.2 (by
    rw [if_pos (by omega), Fin.val_last]
    omega)
  rw [Grid.item?, hlast, hlast]
  rfl

/-- Two nested loops that write one cell after the other. -/
theorem exists_foldlM_cells {f f₀ : Cell r c → ℤ} {body : Grid r c ℤ → ℕ → ℕ → Option (Grid r c ℤ)}
    (hbody : ∀ p (dp : Grid r c ℤ), FilledAt (Precedes · p) f f₀ dp.get →
      ∃ dp', body dp p.1 p.2 = some dp' ∧ FilledAt (fun q => Precedes q p ∨ q = p) f f₀ dp'.get)
    {dp : Grid r c ℤ} (hdp : ∀ q, dp.get q = f₀ q) :
    ∃ dp', (List.range r).foldlM (fun dp i => (List.range c).foldlM (fun dp j => body dp i j) dp) dp = some dp' ∧
      ∀ q, dp'.get q = f q := by
  have hstart : FilledAt (fun q : Cell r c => (q.1 : ℕ) < 0) f f₀ dp.get :=
    ⟨fun q hq => absurd hq (Nat.not_lt_zero _), fun q _ => hdp q⟩
  obtain ⟨dp', hfold, hdp'⟩ := exists_foldlM_range
    (P := fun i (dp : Grid r c ℤ) => FilledAt (fun q : Cell r c => (q.1 : ℕ) < i) f f₀ dp.get) r
    (fun i hi dp hdp => by
      have hrow : FilledAt (fun q : Cell r c => (q.1 : ℕ) < i ∨ (q.1 : ℕ) = i ∧ (q.2 : ℕ) < 0) f f₀ dp.get :=
        hdp.congr fun q => by omega
      obtain ⟨dp₁, hfold₁, hdp₁⟩ := exists_foldlM_range (f := fun dp j => body dp i j)
        (P := fun j (dp : Grid r c ℤ) =>
          FilledAt (fun q : Cell r c => (q.1 : ℕ) < i ∨ (q.1 : ℕ) = i ∧ (q.2 : ℕ) < j) f f₀ dp.get) c
        (fun j hj dp hdp => by
          obtain ⟨dp₂, hbody₂, hdp₂⟩ := hbody (⟨i, hi⟩, ⟨j, hj⟩) dp (hdp.congr fun q => by
            simp only [Precedes, Fin.lt_def, Fin.ext_iff])
          refine ⟨dp₂, hbody₂, hdp₂.congr fun q => ?_⟩
          simp only [Precedes, Fin.lt_def, Fin.ext_iff, cell_eq_iff]
          omega) hrow
      refine ⟨dp₁, hfold₁, hdp₁.congr fun q => ?_⟩
      have hq := q.2.isLt
      omega) hstart
  exact ⟨dp', hfold, fun q => hdp'.new q q.1.isLt⟩

/-! ## From the end -/

namespace Solution

/-- How many paths lead from the cell to the end. -/
noncomputable def toFinish (g : Grid (m + 1) (n + 1) ℤ) (p : Cell (m + 1) (n + 1)) : ℕ := (Paths g p (finish m n)).ncard

theorem toFinish_blocked (hp : g.get p = 1) : toFinish g p = 0 := by
  rw [toFinish, Paths, routes_eq_empty (fun hfree => hfree hp), Set.ncard_empty]

theorem toFinish_finish (h : Free g (finish m n)) : toFinish g (finish m n) = 1 := by
  rw [toFinish, Paths, routes_self h not_goes_finish, Set.ncard_singleton]

theorem toFinish_one (hp : Free g p) (hq : ∀ x, x = q ↔ Goes p x) : toFinish g p = toFinish g q :=
  ncard_routes_one rank_lt not_goes_finish hp hq

theorem toFinish_two (hp : Free g p) (hne : q ≠ q') (hq : ∀ x, x = q ∨ x = q' ↔ Goes p x) :
    toFinish g p = toFinish g q + toFinish g q' :=
  ncard_routes_two rank_lt not_goes_finish hp hne hq

/-- What the first loop writes. -/
def marked (g : Grid r c ℤ) (p : Cell r c) : ℤ := if g.get p = 1 then -1 else 0

/-- In the last row and in the last column. -/
def Border (p : Cell (m + 1) (n + 1)) : Prop := (p.1 : ℕ) = m ∨ (p.2 : ℕ) = n

open Classical in
/-- What stands in the table in the end. -/
noncomputable def value (g : Grid (m + 1) (n + 1) ℤ) (p : Cell (m + 1) (n + 1)) : ℤ :=
  if toFinish g p = 0 ∧ (g.get p = 1 ∨ Border p) then -1 else toFinish g p

theorem value_blocked (hp : g.get p = 1) : value g p = -1 := if_pos ⟨toFinish_blocked hp, Or.inl hp⟩

theorem value_cases (g : Grid (m + 1) (n + 1) ℤ) (p : Cell (m + 1) (n + 1)) :
    value g p = -1 ∧ toFinish g p = 0 ∨ value g p = toFinish g p := by
  unfold value
  split_ifs with h
  · exact Or.inl ⟨rfl, h.1⟩
  · exact Or.inr rfl

theorem value_eq_iff : value g p = toFinish g p ↔ ¬(toFinish g p = 0 ∧ (g.get p = 1 ∨ Border p)) := by
  unfold value
  split_ifs with h
  · exact iff_of_false (fun heq => by omega) (not_not.2 h)
  · exact iff_of_true rfl h

/-- On the border the mark is copied. -/
theorem value_one (hp : Free g p) (hpb : Border p) (hqb : Border q) (hq : ∀ x, x = q ↔ Goes p x) :
    value g p = value g q := by
  unfold value
  rw [toFinish_one hp hq]
  simp only [hpb, hqb, or_true]

/-- Elsewhere it is taken for nothing. -/
theorem value_two (hp : Free g p) (hpb : ¬Border p) (hne : q ≠ q') (hq : ∀ x, x = q ∨ x = q' ↔ Goes p x) :
    value g p = toFinish g q + toFinish g q' := by
  unfold value
  rw [if_neg fun h => h.2.elim hp hpb, toFinish_two hp hne hq, Nat.cast_add]

variable {D D' : Cell (m + 1) (n + 1) → Prop}

/-- A round of the loops over the last column and the last row. -/
theorem copy_filled (h : FilledAt D (value g) (marked g) dp.get) (hD : ∀ x, D' x ↔ D x ∨ x = p) (hp : ¬D p) (hq : D q)
    (hpb : Border p) (hqb : Border q) (hnext : ∀ x, x = q ↔ Goes p x) :
    FilledAt D' (value g) (marked g) (if dp.get p = -1 then dp else dp.set p (dp.get q)).get := by
  have hold := h.old p hp
  unfold marked at hold
  by_cases hpg : g.get p = 1
  · -- `continue`: the cell has its mark already
    rw [if_pos hpg] at hold
    rw [if_pos hold]
    exact h.keep (hold.trans (value_blocked hpg).symm) hD
  · rw [if_neg hpg] at hold
    rw [if_neg (by omega), h.new q hq, ← value_one hpg hpb hqb hnext]
    exact h.write (fun x => dp.get_set p x _) hD

theorem lastCol_eq {i : ℕ} (hp : (p.1 : ℕ) = i ∧ (p.2 : ℕ) = n) (hq : (q.1 : ℕ) = i + 1 ∧ (q.2 : ℕ) = n) :
    lastCol dp i = some (if dp.get p = -1 then dp else dp.set p (dp.get q)) := by
  have hpx : ((i : ℕ) : ℤ) = p.1 := by omega
  have hpy : ((n + 1 : ℕ) : ℤ) - 1 = p.2 := by omega
  rw [lastCol, Grid.item?_eq hpx hpy, Grid.item?_eq (p := q) (by omega) (by omega), Option.bind_eq_bind,
    Option.bind_some, Option.bind_some, Grid.setItem?_eq hpx hpy]
  split_ifs <;> rfl

theorem lastRow_eq {j : ℕ} (hp : (p.1 : ℕ) = m ∧ (p.2 : ℕ) = j) (hq : (q.1 : ℕ) = m ∧ (q.2 : ℕ) = j + 1) :
    lastRow dp j = some (if dp.get p = -1 then dp else dp.set p (dp.get q)) := by
  have hpx : ((m + 1 : ℕ) : ℤ) - 1 = p.1 := by omega
  have hpy : ((j : ℕ) : ℤ) = p.2 := by omega
  rw [lastRow, Grid.item?_eq hpx hpy, Grid.item?_eq (p := q) (by omega) (by omega), Option.bind_eq_bind,
    Option.bind_some, Option.bind_some, Grid.setItem?_eq hpx hpy]
  split_ifs <;> rfl

theorem lastCol_filled (h : FilledAt (· = finish m n) (value g) (marked g) dp.get) :
    ∃ dp', (List.range m).reverse.foldlM lastCol dp = some dp' ∧
      FilledAt (fun x => (x.2 : ℕ) = n) (value g) (marked g) dp'.get := by
  have hstart : FilledAt (fun x => (x.2 : ℕ) = n ∧ m ≤ x.1) (value g) (marked g) dp.get := h.congr fun x => by
    have hx := x.1.isLt
    rw [cell_eq_iff, finish, Fin.val_last, Fin.val_last]
    omega
  obtain ⟨dp', hfold, hdp'⟩ := exists_foldlM_down
    (P := fun i (dp : Grid (m + 1) (n + 1) ℤ) =>
      FilledAt (fun x => (x.2 : ℕ) = n ∧ i ≤ x.1) (value g) (marked g) dp.get) m (fun i hi dp hdp => by
      obtain ⟨p, hp⟩ := exists_cell hi.le (le_refl n)
      obtain ⟨q, hq⟩ := exists_cell (Nat.succ_le_of_lt hi) (le_refl n)
      refine ⟨_, lastCol_eq hp hq, copy_filled hdp (fun x => ?_) ?_ ?_ (Or.inr hp.2) (Or.inr hq.2) fun x => ?_⟩
      · rw [cell_eq_iff]
        omega
      · omega
      · exact ⟨hq.2, hq.1.ge⟩
      · rw [cell_eq_iff, Goes]
        omega) hstart
  exact ⟨dp', hfold, hdp'.congr fun x => (and_iff_left (Nat.zero_le _)).symm⟩

theorem lastRow_filled (h : FilledAt (fun x => (x.2 : ℕ) = n) (value g) (marked g) dp.get) :
    ∃ dp', (List.range n).reverse.foldlM lastRow dp = some dp' ∧ FilledAt Border (value g) (marked g) dp'.get := by
  have hstart : FilledAt (fun x => (x.2 : ℕ) = n ∨ (x.1 : ℕ) = m ∧ n ≤ x.2) (value g) (marked g) dp.get :=
    h.congr fun x => by
      have hx := x.2.isLt
      omega
  obtain ⟨dp', hfold, hdp'⟩ := exists_foldlM_down
    (P := fun j (dp : Grid (m + 1) (n + 1) ℤ) =>
      FilledAt (fun x => (x.2 : ℕ) = n ∨ (x.1 : ℕ) = m ∧ j ≤ x.2) (value g) (marked g) dp.get) n
    (fun j hj dp hdp => by
      obtain ⟨p, hp⟩ := exists_cell (le_refl m) hj.le
      obtain ⟨q, hq⟩ := exists_cell (le_refl m) (Nat.succ_le_of_lt hj)
      refine ⟨_, lastRow_eq hp hq, copy_filled hdp (fun x => ?_) ?_ ?_ (Or.inl hp.1) (Or.inl hq.1) fun x => ?_⟩
      · rw [cell_eq_iff]
        omega
      · omega
      · exact Or.inr ⟨hq.1, hq.2.ge⟩
      · rw [cell_eq_iff, Goes]
        omega) hstart
  refine ⟨dp', hfold, hdp'.congr fun x => ?_⟩
  unfold Border
  omega

/-- A round of the main loop. -/
theorem add_filled (h : FilledAt D (value g) (marked g) dp.get) (hD : ∀ x, D' x ↔ D x ∨ x = p) (hp : ¬D p)
    (hpb : ¬Border p) (hq : D q) (hpq : (q.1 : ℕ) = p.1 + 1 ∧ (q.2 : ℕ) = p.2) (hq' : D q')
    (hpq' : (q'.1 : ℕ) = p.1 ∧ (q'.2 : ℕ) = p.2 + 1) :
    ∃ dp', add dp p.1 p.2 = some dp' ∧ FilledAt D' (value g) (marked g) dp'.get := by
  have hold := h.old p hp
  unfold marked at hold
  have hadd : add dp p.1 p.2 = some (if dp.get p = -1 then dp else dp.set p
      (if dp.get q = -1 ∧ dp.get q' = -1 then 0 else if dp.get q' = -1 then dp.get q
        else if dp.get q = -1 then dp.get q' else dp.get q + dp.get q')) := by
    rw [add, Grid.item?_eq rfl rfl, Grid.item?_eq (p := q) (by omega) (by omega),
      Grid.item?_eq (p := q') (by omega) (by omega)]
    simp only [Option.bind_eq_bind, Option.bind_some, Grid.setItem?_eq rfl rfl]
    split_ifs <;> rfl
  refine ⟨_, hadd, ?_⟩
  by_cases hpg : g.get p = 1
  · rw [if_pos hpg] at hold
    rw [if_pos hold]
    exact h.keep (hold.trans (value_blocked hpg).symm) hD
  · rw [if_neg hpg] at hold
    rw [if_neg (by omega), h.new q hq, h.new q' hq']
    have hne : q ≠ q' := fun heq => by
      rw [cell_eq_iff] at heq
      omega
    have hvalue := value_two hpg hpb hne fun x => by
      rw [cell_eq_iff, cell_eq_iff, Goes]
      omega
    -- a mark of one of the two cells stands for no path
    have hcase := value_cases g q
    have hcase' := value_cases g q'
    refine h.write (fun x => ?_) hD
    rw [dp.get_set, hvalue]
    split_ifs <;> omega

/-- A row of the main loop. -/
theorem row_filled {x : ℕ} (hx : x < m)
    (h : FilledAt (fun q => Border q ∨ x + 1 ≤ q.1) (value g) (marked g) dp.get) :
    ∃ dp', (List.range n).reverse.foldlM (fun dp y => add dp x y) dp = some dp' ∧
      FilledAt (fun q => Border q ∨ x ≤ q.1) (value g) (marked g) dp'.get := by
  have hrow : FilledAt (fun q => Border q ∨ x + 1 ≤ q.1 ∨ (q.1 : ℕ) = x ∧ n ≤ q.2) (value g) (marked g) dp.get :=
    h.congr fun q => by
      have hq := q.2.isLt
      unfold Border
      omega
  obtain ⟨dp', hfold, hdp'⟩ := exists_foldlM_down (f := fun dp y => add dp x y)
    (P := fun y (dp : Grid (m + 1) (n + 1) ℤ) =>
      FilledAt (fun q => Border q ∨ x + 1 ≤ q.1 ∨ (q.1 : ℕ) = x ∧ y ≤ q.2) (value g) (marked g) dp.get) n
    (fun y hy dp hdp => by
      obtain ⟨p, rfl, rfl⟩ := exists_cell hx.le hy.le
      obtain ⟨q, hq⟩ := exists_cell (Nat.succ_le_of_lt hx) hy.le
      obtain ⟨q', hq'⟩ := exists_cell hx.le (Nat.succ_le_of_lt hy)
      have hpb : ¬Border p := by
        unfold Border
        omega
      refine add_filled hdp (fun z => ?_) ?_ hpb ?_ hq ?_ hq'
      · rw [cell_eq_iff]
        unfold Border
        omega
      · rintro (hb | h)
        · exact hpb hb
        · omega
      · exact Or.inr (Or.inl hq.1.ge)
      · exact Or.inr (Or.inr ⟨hq'.1, hq'.2.ge⟩)) hrow
  refine ⟨dp', hfold, hdp'.congr fun q => or_congr_right ?_⟩
  omega

theorem main_filled (h : FilledAt Border (value g) (marked g) dp.get) :
    ∃ dp', (List.range m).reverse.foldlM (fun dp x => (List.range n).reverse.foldlM (fun dp y => add dp x y) dp) dp =
      some dp' ∧ ∀ x, dp'.get x = value g x := by
  have hstart : FilledAt (fun q => Border q ∨ m ≤ q.1) (value g) (marked g) dp.get := h.congr fun q => by
    have hq := q.1.isLt
    unfold Border
    omega
  obtain ⟨dp', hfold, hdp'⟩ := exists_foldlM_down
    (P := fun x (dp : Grid (m + 1) (n + 1) ℤ) => FilledAt (fun q => Border q ∨ x ≤ q.1) (value g) (marked g) dp.get) m
    (fun x hx dp hdp => row_filled hx hdp) hstart
  exact ⟨dp', hfold, fun x => hdp'.new x (Or.inr (Nat.zero_le _))⟩

theorem mark_filled (h : FilledAt (Precedes · p) (marked g) (fun _ => 0) dp.get) :
    ∃ dp', mark g dp p.1 p.2 = some dp' ∧
      FilledAt (fun q => Precedes q p ∨ q = p) (marked g) (fun _ => 0) dp'.get := by
  have hmark : mark g dp p.1 p.2 = some (if g.get p = 1 then dp.set p (-1) else dp) := by
    rw [mark, Grid.item?_eq rfl rfl, Option.bind_eq_bind, Option.bind_some, Grid.setItem?_eq rfl rfl]
    split_ifs <;> rfl
  refine ⟨_, hmark, ?_⟩
  split_ifs with hp
  · refine h.write (fun x => ?_) fun q => Iff.rfl
    rw [dp.get_set, marked, if_pos hp]
  · refine h.keep ?_ fun q => Iff.rfl
    rw [h.old p (fun hlt => ?_), marked, if_neg hp]
    unfold Precedes at hlt
    omega

theorem uniquePathsWithObstacles_eq (g : Grid (m + 1) (n + 1) ℤ) : uniquePathsWithObstacles g =
    some (if g.get (finish m n) = 1 ∨ g.get (0, 0) = 1 then 0 else value g (0, 0)) := by
  have hmarked : ∀ p, marked g p = -1 ↔ g.get p = 1 := fun p => by
    unfold marked
    split_ifs with hp
    · exact iff_of_true rfl hp
    · exact iff_of_false (by decide) hp
  obtain ⟨dp, hfold, hdp⟩ := exists_foldlM_cells (fun _ _ => mark_filled (g := g))
    (fun q => (Grid.get_replicate (0 : ℤ) q : (Grid.replicate (m + 1) (n + 1) (0 : ℤ)).get q = 0))
  have hx : ((m + 1 : ℕ) : ℤ) - 1 = (finish m n).1 := by
    rw [finish, Fin.val_last]
    omega
  have hy : ((n + 1 : ℕ) : ℤ) - 1 = (finish m n).2 := by
    rw [finish, Fin.val_last]
    omega
  rw [uniquePathsWithObstacles]
  simp only [hfold, Option.bind_eq_bind, Option.bind_some, Grid.item?_eq hx hy, item?_start,
    Grid.setItem?_eq hx hy, Nat.add_sub_cancel]
  simp only [hdp, hmarked]
  split_ifs with hends
  · rfl
  · rw [not_or] at hends
    have hset : FilledAt (· = finish m n) (value g) (marked g) (dp.set (finish m n) 1).get := by
      have hblank : FilledAt (fun _ => False) (value g) (marked g) dp.get := ⟨fun _ h => h.elim, fun q _ => hdp q⟩
      refine hblank.write (fun q => ?_) fun q => (or_iff_right id).symm
      have hone : value g (finish m n) = 1 := by
        rw [value, toFinish_finish hends.1, if_neg fun h => Nat.one_ne_zero h.1, Nat.cast_one]
      rw [dp.get_set, hone]
    -- the three loops, one after the other
    obtain ⟨dp₁, hfold₁, hdp₁⟩ := lastCol_filled hset
    obtain ⟨dp₂, hfold₂, hdp₂⟩ := lastRow_filled hdp₁
    obtain ⟨dp₃, hfold₃, hdp₃⟩ := main_filled hdp₂
    simp only [hfold₁, hfold₂, hfold₃, Option.bind_some, hdp₃]

/-- In a grid with one row or one column every path passes all cells. -/
theorem toFinish_line (hline : m = 0 ∨ n = 0) : toFinish g (0, 0) = 0 ↔ ∃ p, g.get p = 1 := by
  rcases hline with rfl | rfl
  · have hiff : toFinish g (0, 0) = 0 ↔ ∃ j, ¬Free g (0, j) :=
      ncard_routes_fin rank_lt not_goes_finish (fun j => (0, j)) rfl rfl fun i j hij x => by
        have hx := x.1.isLt
        simp only [cell_eq_iff, Goes]
        omega
    rw [hiff]
    constructor
    · exact fun ⟨j, hj⟩ => ⟨(0, j), not_not.1 hj⟩
    · rintro ⟨⟨i, j⟩, hp⟩
      obtain rfl := Fin.fin_one_eq_zero i
      exact ⟨j, not_not.2 hp⟩
  · have hiff : toFinish g (0, 0) = 0 ↔ ∃ i, ¬Free g (i, 0) :=
      ncard_routes_fin rank_lt not_goes_finish (fun i => (i, 0)) rfl rfl fun i j hij x => by
        have hx := x.2.isLt
        simp only [cell_eq_iff, Goes]
        omega
    rw [hiff]
    constructor
    · exact fun ⟨i, hi⟩ => ⟨(i, 0), not_not.1 hi⟩
    · rintro ⟨⟨i, j⟩, hp⟩
      obtain rfl := Fin.fin_one_eq_zero j
      exact ⟨i, not_not.2 hp⟩

theorem eq_ncard_iff (g : Grid (m + 1) (n + 1) ℤ) :
    uniquePathsWithObstacles g = some ((Paths g (0, 0) (finish m n)).ncard : ℤ) ↔
      ¬((m = 0 ∨ n = 0) ∧ g.get (0, 0) ≠ 1 ∧ g.get (finish m n) ≠ 1 ∧ ∃ p, g.get p = 1) := by
  have hborder : Border ((0, 0) : Cell (m + 1) (n + 1)) ↔ m = 0 ∨ n = 0 := by
    unfold Border
    exact or_congr eq_comm eq_comm
  rw [uniquePathsWithObstacles_eq, Option.some_inj, ← toFinish]
  by_cases hends : g.get (finish m n) = 1 ∨ g.get (0, 0) = 1
  · have hzero : toFinish g (0, 0) = 0 := by
      rcases hends with hend | hstart
      · rw [toFinish, Paths, routes_eq_empty_of_last fun hfree => hfree hend, Set.ncard_empty]
      · exact toFinish_blocked hstart
    rw [if_pos hends, hzero]
    exact iff_of_true rfl fun h => hends.elim h.2.2.1 h.2.1
  · rw [if_neg hends, value_eq_iff, hborder, not_iff_not]
    rw [not_or] at hends
    constructor
    · rintro ⟨hzero, h⟩
      have hline := h.resolve_left hends.2
      exact ⟨hline, hends.2, hends.1, (toFinish_line hline).1 hzero⟩
    · rintro ⟨hline, -, -, hp⟩
      exact ⟨(toFinish_line hline).2 hp, Or.inr hline⟩

end Solution

/-! ## From the start -/

namespace Solution2

/-- How many paths lead from one cell to the other. -/
noncomputable def fromStart (g : Grid r c ℤ) (start p : Cell r c) : ℕ := (Paths g start p).ncard

/-- The value of the cell above, if there is one. -/
def above (v : Cell r c → ℤ) (p : Cell r c) : ℤ := if 0 < (p.1 : ℕ) then v (⟨p.1 - 1, by omega⟩, p.2) else 0

def left (v : Cell r c → ℤ) (p : Cell r c) : ℤ := if 0 < (p.2 : ℕ) then v (p.1, ⟨p.2 - 1, by omega⟩) else 0

theorem fromStart_flip : fromStart g (0, 0) p = (Routes (flip Goes) (Free g) p (0, 0)).ncard :=
  (ncard_routes_flip Goes (Free g) (0, 0) p).symm

theorem fromStart_blocked (hp : g.get p = 1) : fromStart g (0, 0) p = 0 := by
  rw [fromStart, Paths, routes_eq_empty_of_last (fun hfree => hfree hp), Set.ncard_empty]

theorem fromStart_start (h : Free g (0, 0)) : fromStart g (0, 0) (0, 0) = 1 := by
  rw [fromStart_flip, routes_self h not_goes_start, Set.ncard_singleton]

theorem fromStart_one (hp : Free g p) (hq : ∀ x, x = q ↔ Goes x p) : fromStart g (0, 0) p = fromStart g (0, 0) q := by
  rw [fromStart_flip, fromStart_flip]
  exact ncard_routes_one rank_lt_flip not_goes_start hp hq

/-- The last step comes from above or from the left. -/
theorem fromStart_eq (hp : Free g p) (hne : p ≠ (0, 0)) :
    (fromStart g (0, 0) p : ℤ) =
      above (fun x => (fromStart g (0, 0) x : ℤ)) p + left (fun x => (fromStart g (0, 0) x : ℤ)) p := by
  have hzero : ¬((p.1 : ℕ) = 0 ∧ (p.2 : ℕ) = 0) := fun h => hne (cell_eq_iff.2 h)
  rcases Nat.eq_zero_or_pos p.1 with hx | hx
  · rw [above, left, if_neg hx.not_gt, if_pos (by omega), zero_add, fromStart_one hp fun x => ?_]
    simp only [cell_eq_iff, Goes]
    omega
  · rcases Nat.eq_zero_or_pos p.2 with hy | hy
    · rw [above, left, if_pos hx, if_neg hy.not_gt, add_zero, fromStart_one hp fun x => ?_]
      simp only [cell_eq_iff, Goes]
      omega
    · rw [above, left, if_pos hx, if_pos hy, fromStart_flip, ncard_routes_two rank_lt_flip not_goes_start hp
        (a := (⟨p.1 - 1, by omega⟩, p.2)) (b := (p.1, ⟨p.2 - 1, by omega⟩)), Nat.cast_add, ← fromStart_flip,
        ← fromStart_flip]
      · simp only [ne_eq, cell_eq_iff]
        omega
      · intro x
        simp only [cell_eq_iff, flip, Goes]
        omega

/-- What is written, if there is something to be added. -/
theorem exists_added {h : Prop} [Decidable h] {o : Option (Grid r c ℤ)} {dp : Grid r c ℤ} {p : Cell r c} {a : h → ℤ}
    (ho : o = some (if hp : h then dp.set p (dp.get p + a hp) else dp)) :
    ∃ dp', o = some dp' ∧ ∀ x, dp'.get x = if x = p then dp.get p + (if hp : h then a hp else 0) else dp.get x := by
  refine ⟨_, ho, fun x => ?_⟩
  by_cases hp : h
  · rw [dif_pos hp, dif_pos hp, dp.get_set]
  · rw [dif_neg hp, dif_neg hp, add_zero]
    split_ifs with hx
    · rw [hx]
    · rfl

theorem addAbove_eq (dp : Grid r c ℤ) (p : Cell r c) : ∃ dp', addAbove dp p.1 p.2 = some dp' ∧
    ∀ x, dp'.get x = if x = p then dp.get p + above dp.get p else dp.get x := by
  refine exists_added (h := 0 < (p.1 : ℕ)) ?_
  unfold addAbove
  split_ifs with hp hx hx
  · rw [Grid.item?_eq rfl rfl, Grid.item?_eq (p := (⟨p.1 - 1, by omega⟩, p.2)) (by simp only; omega) rfl]
    exact Grid.setItem?_eq rfl rfl dp _
  · omega
  · omega
  · rfl

theorem addLeft_eq (dp : Grid r c ℤ) (p : Cell r c) : ∃ dp', addLeft dp p.1 p.2 = some dp' ∧
    ∀ x, dp'.get x = if x = p then dp.get p + left dp.get p else dp.get x := by
  refine exists_added (h := 0 < (p.2 : ℕ)) ?_
  unfold addLeft
  split_ifs with hp hx hx
  · rw [Grid.item?_eq rfl rfl, Grid.item?_eq (p := (p.1, ⟨p.2 - 1, by omega⟩)) rfl (by simp only; omega)]
    exact Grid.setItem?_eq rfl rfl dp _
  · omega
  · omega
  · rfl

/-- What a round writes. -/
theorem add_eq (g dp : Grid r c ℤ) (p : Cell r c) : ∃ dp', add g dp p.1 p.2 = some dp' ∧
    ∀ x, dp'.get x = if x = p then if g.get p = 1 then 0 else dp.get p + above dp.get p + left dp.get p
      else dp.get x := by
  rw [add, Grid.item?_eq rfl rfl, Option.bind_eq_bind, Option.bind_some]
  by_cases hp : g.get p = 1
  · refine ⟨dp.set p 0, ?_, fun x => ?_⟩
    · rw [if_pos hp, Grid.setItem?_eq rfl rfl]
    · rw [dp.get_set, if_pos hp]
  · obtain ⟨dp₁, habove, hdp₁⟩ := addAbove_eq dp p
    obtain ⟨dp₂, hleft, hdp₂⟩ := addLeft_eq dp₁ p
    refine ⟨dp₂, ?_, fun x => ?_⟩
    · rw [if_neg hp, habove]
      exact hleft
    · have hsame : left dp₁.get p = left dp.get p := by
        unfold left
        split_ifs with hy
        · rw [hdp₁, if_neg]
          rw [cell_eq_iff]
          simp only
          omega
        · rfl
      rw [hdp₂, hdp₁ p, if_pos rfl, hsame, if_neg hp]
      split_ifs with hx
      · rfl
      · rw [hdp₁, if_neg hx]

/-- What stands in the table before the loop. -/
def first (g : Grid r c ℤ) (p : Cell r c) : ℤ :=
  if (p.1 : ℕ) = 0 ∧ (p.2 : ℕ) = 0 then if g.get p = 0 then 1 else 0 else 0

theorem first_start (g : Grid (m + 1) (n + 1) ℤ) : first g (0, 0) = if g.get (0, 0) = 0 then 1 else 0 :=
  if_pos ⟨rfl, rfl⟩

theorem first_of_ne (hp : p ≠ (0, 0)) : first g p = 0 := if_neg fun hzero => hp (cell_eq_iff.2 hzero)

theorem add_filled (hg : g.get (0, 0) = 0 ∨ g.get (0, 0) = 1)
    (h : FilledAt (Precedes · p) (fun x => (fromStart g (0, 0) x : ℤ)) (first g) dp.get) :
    ∃ dp', add g dp p.1 p.2 = some dp' ∧
      FilledAt (fun q => Precedes q p ∨ q = p) (fun x => (fromStart g (0, 0) x : ℤ)) (first g) dp'.get := by
  have hold : dp.get p = first g p := h.old p fun hlt => by
    unfold Precedes at hlt
    omega
  have habove : above dp.get p = above (fun x => (fromStart g (0, 0) x : ℤ)) p := by
    unfold above
    split_ifs with hx
    · refine h.new _ (Or.inl (Fin.lt_def.2 ?_))
      simp only
      omega
    · rfl
  have hleft : left dp.get p = left (fun x => (fromStart g (0, 0) x : ℤ)) p := by
    unfold left
    split_ifs with hy
    · refine h.new _ (Or.inr ⟨rfl, Fin.lt_def.2 ?_⟩)
      simp only
      omega
    · rfl
  have hvalue : (if g.get p = 1 then 0 else dp.get p + above dp.get p + left dp.get p) =
      (fromStart g (0, 0) p : ℤ) := by
    split_ifs with hp
    · rw [fromStart_blocked hp, Nat.cast_zero]
    · rw [hold, habove, hleft]
      by_cases hstart : p = (0, 0)
      · subst hstart
        rw [fromStart_start hp, first_start, if_pos (hg.resolve_right hp)]
        rfl
      · rw [first_of_ne hstart, zero_add, fromStart_eq hp hstart]
  obtain ⟨dp', hadd, hdp'⟩ := add_eq g dp p
  rw [hvalue] at hdp'
  exact ⟨dp', hadd, h.write hdp' fun q => Iff.rfl⟩

theorem uniquePathsWithObstacles_eq (hg : g.get (0, 0) = 0 ∨ g.get (0, 0) = 1) :
    uniquePathsWithObstacles g = some ((Paths g (0, 0) (finish m n)).ncard : ℤ) := by
  have hset : ∀ (dp : Grid (m + 1) (n + 1) ℤ) a, dp.setItem? 0 0 a = some (dp.set (0, 0) a) :=
    fun dp a => Grid.setItem?_eq (p := (0, 0)) rfl rfl dp a
  have hfirst : ∀ q, ((Grid.replicate (m + 1) (n + 1) (0 : ℤ)).set (0, 0) (if g.get (0, 0) = 0 then 1 else 0)).get q =
      first g q := fun q => by
    rw [Grid.get_set, Grid.get_replicate]
    split_ifs with hq hzero
    · rw [hq, first_start, if_pos hzero]
    · rw [hq, first_start, if_neg hzero]
    · rw [first_of_ne hq]
  obtain ⟨dp, hfold, hdp⟩ := exists_foldlM_cells (fun _ _ => add_filled hg) hfirst
  rw [uniquePathsWithObstacles]
  simp only [item?_start, hset, Option.bind_eq_bind, Option.bind_some, hfold, item?_last, hdp]
  rfl

end Solution2

/-- Both versions are right, exactly if there is a second row and a second column, or an end is marked, or nothing. -/
theorem uniquePathsWithObstacles_iff (g : Grid (m + 1) (n + 1) ℤ) (hg : ∀ p, g.get p = 0 ∨ g.get p = 1) :
    (Solution.uniquePathsWithObstacles g = some ((Paths g (0, 0) (finish m n)).ncard : ℤ) ∧
      Solution2.uniquePathsWithObstacles g = some ((Paths g (0, 0) (finish m n)).ncard : ℤ)) ↔
      0 < m ∧ 0 < n ∨ g.get (0, 0) = 1 ∨ g.get (finish m n) = 1 ∨ ∀ p, g.get p = 0 := by
  rw [and_iff_left (Solution2.uniquePathsWithObstacles_eq (hg _)), Solution.eq_ncard_iff]
  have hall : (∀ p, g.get p = 0) ↔ ¬∃ p, g.get p = 1 := by
    rw [not_exists]
    refine forall_congr' fun p => ?_
    rcases hg p with hp | hp <;> simp [hp]
  rw [hall, not_and_or, not_and_or, not_and_or, not_ne_iff, not_ne_iff, not_or, Nat.pos_iff_ne_zero,
    Nat.pos_iff_ne_zero]

theorem uniquePathsWithObstacles_iff_square :
    (Solution.uniquePathsWithObstacles ⟨#v[#v[0, 0], #v[0, 0]]⟩ =
        some ((Paths ⟨#v[#v[0, 0], #v[0, 0]]⟩ (0, 0) (finish 1 1)).ncard : ℤ) ∧
      Solution2.uniquePathsWithObstacles ⟨#v[#v[0, 0], #v[0, 0]]⟩ =
        some ((Paths ⟨#v[#v[0, 0], #v[0, 0]]⟩ (0, 0) (finish 1 1)).ncard : ℤ)) ↔
      0 < 1 ∧ 0 < 1 ∨ (⟨#v[#v[0, 0], #v[0, 0]]⟩ : Grid 2 2 ℤ).get (0, 0) = 1 ∨
        (⟨#v[#v[0, 0], #v[0, 0]]⟩ : Grid 2 2 ℤ).get (finish 1 1) = 1 ∨
          ∀ p, (⟨#v[#v[0, 0], #v[0, 0]]⟩ : Grid 2 2 ℤ).get p = 0 :=
  uniquePathsWithObstacles_iff ⟨#v[#v[0, 0], #v[0, 0]]⟩ (by decide)

/-- The mark is returned, where there is no path. -/
theorem uniquePathsWithObstacles_row : Solution.uniquePathsWithObstacles ⟨#v[#v[0, 1, 0]]⟩ = some (-1) ∧
    Solution.uniquePathsWithObstacles ⟨#v[#v[0, 1, 0]]⟩ ≠
      some ((Paths ⟨#v[#v[0, 1, 0]]⟩ (0, 0) (finish 0 2)).ncard : ℤ) := by
  have hmark : Solution.uniquePathsWithObstacles ⟨#v[#v[0, 1, 0]]⟩ = some (-1) := by decide
  refine ⟨hmark, fun heq => ?_⟩
  rw [hmark, Option.some_inj] at heq
  omega

end GoodGoodStudy.LeetCode.UniquePaths
