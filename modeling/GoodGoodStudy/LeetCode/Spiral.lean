/-
The spiral through a matrix: the readers of the exercise 54 and of the exercise 29 of the second collection, and the
exercise 59, which fills a square matrix. All three move four borders, and a counter stops the writing or reading within
a round. As long as there are cells left, the borders are those of the grid that is left, so that each of the four loops
goes along its first row.
-/
import GoodGoodStudy.Lib.Loop
import GoodGoodStudy.Lib.Sequence
import GoodGoodStudy.Lib.Spiral

namespace GoodGoodStudy.LeetCode.Spiral

open GoodGoodStudy.Lib

variable {r c : ℕ} {α σ : Type}

/-- An index out of range. -/
inductive Exc
  | indexError
  deriving DecidableEq, Repr

structure Borders where
  left : ℤ
  right : ℤ
  top : ℤ
  bottom : ℤ

/-- `range(a, b)` -/
def range (a b : ℤ) : List ℤ := (List.range (b - a).toNat).map fun (k : ℕ) => a + k

/-- `range(a, b, -1)` -/
def rangeDown (a b : ℤ) : List ℤ := (List.range (a - b).toNat).map fun (k : ℕ) => a - k

/-- A round of `while`: from left to right, from top to bottom, from right to left, from bottom to top. The body of the
four loops gets the row and the column. -/
def round (going : σ → Bool) (body : ℤ → ℤ → σ → Except Exc σ) :
    Borders × σ → Except Exc (Round (Borders × σ) σ)
  | (⟨left, right, top, bottom⟩, s) =>
    if going s then do
      let s ← (range left (right + 1)).foldlM (fun s i => body top i s) s
      let top := top + 1
      let s ← (range top (bottom + 1)).foldlM (fun s j => body j right s) s
      let right := right - 1
      let s ← (rangeDown right (left - 1)).foldlM (fun s k => body bottom k s) s
      let bottom := bottom - 1
      let s ← (rangeDown bottom (top - 1)).foldlM (fun s z => body z left s) s
      let left := left + 1
      return .again (⟨left, right, top, bottom⟩, s)
    else return .leave s

/-! ## Reading -/

/-- `res` and `counter`. -/
structure Reading (α : Type) where
  res : List α
  counter : ℤ

def Reading.going (s : Reading α) : Bool := s.counter ≥ 1

/-- `if counter >= 1: res.append(matrix[x][y]); counter -= 1` -/
def read (matrix : Grid r c α) (x y : ℤ) (s : Reading α) : Except Exc (Reading α) :=
  if s.counter ≥ 1 then
    match matrix.item? x y with
    | none => .error .indexError
    | some a => .ok ⟨s.res ++ [a], s.counter - 1⟩
  else .ok s

def readAll (matrix : Grid r c α) (fuel : ℕ) : Option (Except Exc (List α)) :=
  (loop (attempt (round Reading.going (read matrix))) fuel
    (⟨0, (c : ℤ) - 1, 0, (r : ℤ) - 1⟩, ⟨[], (r : ℤ) * c⟩)).map fun s => s.map Reading.res

/-- A matrix of one row is returned as it is. -/
def Exercise54.spiralOrder : {r : ℕ} → Grid r c α → ℕ → Option (Except Exc (List α))
  | 0, _, _ => some (.ok [])
  | 1, matrix, _ => some (.ok matrix.rows[0].toList)
  | _ + 2, matrix, fuel => readAll matrix fuel

def Offer29.spiralOrder : {r : ℕ} → Grid r c α → ℕ → Option (Except Exc (List α))
  | 0, _, _ => some (.ok [])
  | _ + 1, matrix, fuel => readAll matrix fuel

/-! ## Writing -/

/-- `matrix` and `counter`. -/
structure Writing (n : ℕ) where
  matrix : Grid n n ℤ
  counter : ℤ

def Writing.going {n : ℕ} (s : Writing n) : Bool := s.counter ≤ (n : ℤ) ^ 2

/-- `if counter <= n ** 2: matrix[x][y] = counter; counter += 1` -/
def write {n : ℕ} (x y : ℤ) (s : Writing n) : Except Exc (Writing n) :=
  if s.counter ≤ (n : ℤ) ^ 2 then
    match s.matrix.setItem? x y s.counter with
    | none => .error .indexError
    | some matrix => .ok ⟨matrix, s.counter + 1⟩
  else .ok s

/-- `generateMatrix(0)` is the empty matrix. -/
def generateMatrix (n fuel : ℕ) : Option (Except Exc (Grid n n ℤ)) :=
  if n = 0 then some (.ok (.replicate n n 0))
  else
    (loop (attempt (round Writing.going write)) fuel (⟨0, (n : ℤ) - 1, 0, (n : ℤ) - 1⟩, ⟨.replicate n n 0, 1⟩)).map
      fun s => s.map Writing.matrix

/-! ## The cells that are left -/

/-- The cells that are left are the spiral through a grid that lies from `(x, y)` on with its rows along `(dx, dy)`. -/
def Ahead (rest : List (Cell r c)) (x y dx dy rows cols : ℤ) : Prop :=
  rest = [] ∨ ∃ m n : ℕ, rows = m ∧ cols = n ∧
    rest.map (fun p => ((p.1 : ℤ), (p.2 : ℤ))) = (spiral m n).map (layout (x, y) (dx, dy))

/-- The cells that are left lie within the borders. -/
def Within (b : Borders) (rest : List (Cell r c)) : Prop :=
  Ahead rest b.top b.left 0 1 (b.bottom + 1 - b.top) (b.right + 1 - b.left)

theorem Within.rows_pos {b : Borders} {rest : List (Cell r c)} (h : Within b rest) (hrest : rest ≠ []) :
    0 < b.bottom + 1 - b.top := by
  rcases h with rfl | ⟨m, n, hrows, -, hmap⟩
  · exact absurd rfl hrest
  · have hm : m ≠ 0 := by
      rintro rfl
      exact hrest (by simpa [spiral_zero] using hmap)
    omega

theorem within_all : Within ⟨0, (c : ℤ) - 1, 0, (r : ℤ) - 1⟩ (spiral r c) :=
  Or.inr ⟨r, c, by simp, by simp, List.map_congr_left fun p _ => (layout_id p).symm⟩

/-- What a body does on the way along the spiral: one cell after the other, and nothing when no cell is left. -/
structure Follows (going : σ → Bool) (body : ℤ → ℤ → σ → Except Exc σ) (P : List (Cell r c) → σ → Prop) : Prop where
  step : ∀ p rest s, P (p :: rest) s → ∃ s', body p.1 p.2 s = .ok s' ∧ P rest s'
  done : ∀ x y s, P [] s → body x y s = .ok s
  going_iff : ∀ rest s, P rest s → (going s = true ↔ rest ≠ [])

section Follows

variable {going : σ → Bool} {body : ℤ → ℤ → σ → Except Exc σ} {P : List (Cell r c) → σ → Prop}

theorem Follows.foldlM_done (h : Follows going body P) {s : σ} (hs : P [] s) (line : List (ℤ × ℤ)) :
    line.foldlM (fun s q => body q.1 q.2 s) s = .ok s := by
  induction line with
  | nil => rfl
  | cons q line ih =>
    rw [List.foldlM_cons, h.done q.1 q.2 s hs]
    exact ih

theorem Follows.foldlM_cells (h : Follows going body P) (rest : List (Cell r c)) :
    ∀ (pre : List (Cell r c)) {s : σ}, P (pre ++ rest) s →
      ∃ s', (pre.map fun p => ((p.1 : ℤ), (p.2 : ℤ))).foldlM (fun s q => body q.1 q.2 s) s = .ok s' ∧ P rest s'
  | [], s, hs => ⟨s, rfl, hs⟩
  | p :: pre, s, hs => by
    obtain ⟨s₁, heq₁, hs₁⟩ := h.step p (pre ++ rest) s hs
    obtain ⟨s₂, heq₂, hs₂⟩ := h.foldlM_cells rest pre hs₁
    refine ⟨s₂, ?_, hs₂⟩
    rw [List.map_cons, List.foldlM_cons, heq₁]
    exact heq₂

/-- One of the four loops goes along the first row of the grid that is left. -/
theorem Follows.line (h : Follows going body P) {rest : List (Cell r c)} {s : σ} (hs : P rest s)
    {x y dx dy rows cols : ℤ} (hrest : Ahead rest x y dx dy rows cols) :
    ∃ s' rest', ((List.range cols.toNat).map fun (k : ℕ) => (x + k * dx, y + k * dy)).foldlM
        (fun s q => body q.1 q.2 s) s = .ok s' ∧ P rest' s' ∧
      Ahead rest' (x + (cols - 1) * dx + dy) (y + (cols - 1) * dy - dx) dy (-dx) cols (rows - 1) := by
  rcases hrest with rfl | ⟨m, n, rfl, rfl, hmap⟩
  · exact ⟨s, [], h.foldlM_done hs _, hs, Or.inl rfl⟩
  · cases m with
    | zero =>
      obtain rfl : rest = [] := by simpa [spiral_zero] using hmap
      exact ⟨s, [], h.foldlM_done hs _, hs, Or.inl rfl⟩
    | succ m =>
      rw [spiral_succ, List.map_append, List.map_map, List.map_map] at hmap
      obtain ⟨pre, rest', rfl, hpre, hrest'⟩ := List.map_eq_append_iff.1 hmap
      obtain ⟨s', heq, hs'⟩ := h.foldlM_cells rest' pre hs
      refine ⟨s', rest', ?_, hs', Or.inr ⟨n, m, rfl, by simp, ?_⟩⟩
      · rw [← heq, hpre, Int.toNat_natCast, ← List.map_coe_finRange_eq_range, List.map_map]
        exact congrArg (List.foldlM _ s) (List.map_congr_left fun j _ => by simp [layout])
      · rw [hrest']
        exact List.map_congr_left fun p _ => layout_turn (x, y) (dx, dy) p

theorem Follows.round (h : Follows going body P) {b : Borders} {rest : List (Cell r c)} {s : σ} (hs : P rest s)
    (hb : Within b rest) (hrest : rest ≠ []) : ∃ s' rest',
      round going body (b, s) = .ok (.again (⟨b.left + 1, b.right - 1, b.top + 1, b.bottom - 1⟩, s')) ∧ P rest' s' ∧
        Within ⟨b.left + 1, b.right - 1, b.top + 1, b.bottom - 1⟩ rest' := by
  obtain ⟨left, right, top, bottom⟩ := b
  obtain ⟨s₁, rest₁, heq₁, hs₁, hrest₁⟩ := h.line hs hb
  have hdown : Ahead rest₁ (top + 1) right 1 0 (right + 1 - left) (bottom + 1 - (top + 1)) := by
    convert hrest₁ using 1 <;> ring
  obtain ⟨s₂, rest₂, heq₂, hs₂, hrest₂⟩ := h.line hs₁ hdown
  have hback : Ahead rest₂ bottom (right - 1) 0 (-1) (bottom + 1 - (top + 1)) (right - 1 - (left - 1)) := by
    convert hrest₂ using 1 <;> ring
  obtain ⟨s₃, rest₃, heq₃, hs₃, hrest₃⟩ := h.line hs₂ hback
  have hup : Ahead rest₃ (bottom - 1) left (-1) 0 (right - 1 - (left - 1)) (bottom - 1 - (top + 1 - 1)) := by
    convert hrest₃ using 1 <;> ring
  obtain ⟨s₄, rest₄, heq₄, hs₄, hrest₄⟩ := h.line hs₃ hup
  refine ⟨s₄, rest₄, ?_, hs₄, ?_⟩
  · simp only [List.foldlM_map, mul_zero, mul_one, mul_neg, add_zero, ← sub_eq_add_neg] at heq₁ heq₂ heq₃ heq₄
    simp only [Spiral.round, (h.going_iff rest s hs).2 hrest, if_true, range, rangeDown, List.foldlM_map, bind,
      Except.bind, heq₁, heq₂, heq₃, heq₄]
    rfl
  · unfold Within
    convert hrest₄ using 1 <;> ring

/-- The loop returns when no cell is left. -/
theorem Follows.loop_within (h : Follows going body P) {b : Borders} {rest : List (Cell r c)} {s : σ} (hs : P rest s)
    (hb : Within b rest) :
    ∃ s', Returns (fun fuel => loop (attempt (Spiral.round going body)) fuel (b, s)) (.ok s') ∧ P [] s' := by
  have hloop : ∃ e, Returns (fun fuel => loop (attempt (Spiral.round going body)) fuel (b, s)) e ∧
      ∃ s', e = .ok s' ∧ P [] s' := Returns.loop_of_measure (fun t : Borders × σ => (t.1.bottom + 1 - t.1.top).toNat)
    (I := fun t => ∃ rest, P rest t.2 ∧ Within t.1 rest) (fun t ht => by
      obtain ⟨b, s⟩ := t
      obtain ⟨rest, hs, hb⟩ := ht
      by_cases hrest : rest = []
      · subst hrest
        have hstop : going s = false := by
          rw [← Bool.not_eq_true, h.going_iff [] s hs]
          exact not_not.2 rfl
        refine Or.inr ⟨_, attempt_leave ?_, s, rfl, hs⟩
        simp only [Spiral.round, hstop, Bool.false_eq_true, if_false]
        rfl
      · obtain ⟨s', rest', heq, hs', hb'⟩ := h.round hs hb hrest
        refine Or.inl ⟨_, attempt_again heq, ⟨rest', hs', hb'⟩, ?_⟩
        have hrows : 0 < b.bottom + 1 - b.top := hb.rows_pos hrest
        simp only
        omega) ⟨rest, hs, hb⟩
  obtain ⟨_, hreturns, s', rfl, hs'⟩ := hloop
  exact ⟨s', hreturns, hs'⟩

/-- A loop along the whole spiral. -/
theorem Follows.loop (h : Follows going body P) {s : σ} (hs : P (spiral r c) s) : ∃ s',
    Returns (fun fuel => loop (attempt (Spiral.round going body)) fuel (⟨0, (c : ℤ) - 1, 0, (r : ℤ) - 1⟩, s)) (.ok s') ∧
      P [] s' :=
  h.loop_within hs within_all

end Follows

/-! ## The readers -/

/-- What was read, and what is left to read. -/
theorem follows_read (matrix : Grid r c α) (all : List α) :
    Follows Reading.going (read matrix) fun (rest : List (Cell r c)) s =>
      s.counter = rest.length ∧ s.res ++ rest.map matrix.get = all where
  step := by
    rintro p rest ⟨res, counter⟩ ⟨rfl, rfl⟩
    refine ⟨⟨res ++ [matrix.get p], rest.length⟩, ?_, rfl, by simp⟩
    have hpos : ((p :: rest).length : ℤ) ≥ 1 := by simp
    rw [read, if_pos hpos, matrix.item?_cell p]
    simp
  done := by
    rintro x y ⟨res, counter⟩ ⟨rfl, -⟩
    rfl
  going_iff := by
    rintro rest ⟨res, counter⟩ ⟨rfl, -⟩
    rw [Reading.going, decide_eq_true_iff, ← List.length_pos_iff]
    simp only
    omega

theorem readAll_eq (matrix : Grid r c α) : Returns (readAll matrix) (.ok ((spiral r c).map matrix.get)) := by
  obtain ⟨s, hs, -, hres⟩ := (follows_read matrix ((spiral r c).map matrix.get)).loop
    (s := ⟨[], (r : ℤ) * c⟩) ⟨by simp [length_spiral], by simp⟩
  rw [List.map_nil, List.append_nil] at hres
  have hread := hs.map (Except.map Reading.res)
  rwa [Except.map, hres] at hread

theorem Exercise54.spiralOrder_eq : {r : ℕ} → (matrix : Grid r c α) →
    Returns (Exercise54.spiralOrder matrix) (.ok ((spiral r c).map matrix.get))
  | 0, matrix => by
    rw [spiral_zero]
    exact Returns.pure _
  | 1, matrix => by
    have hrow : matrix.rows[0].toList = (spiral 1 c).map matrix.get := by
      rw [spiral_succ, spiral_zero_right, List.map_nil, List.append_nil, List.map_map]
      exact matrix.toList_row 0
    rw [← hrow]
    exact Returns.pure _
  | _ + 2, matrix => readAll_eq matrix

theorem Offer29.spiralOrder_eq : {r : ℕ} → (matrix : Grid r c α) →
    Returns (Offer29.spiralOrder matrix) (.ok ((spiral r c).map matrix.get))
  | 0, matrix => by
    rw [spiral_zero]
    exact Returns.pure _
  | _ + 1, matrix => readAll_eq matrix

/-! ## The square matrix -/

/-- `1, 2, ..., k` -/
def numbers (k : ℕ) : List ℤ := (List.range k).map fun (i : ℕ) => (i : ℤ) + 1

/-- The cells that were passed hold their numbers. -/
def Filled {n : ℕ} (rest : List (Cell n n)) (s : Writing n) : Prop :=
  ∃ pre, pre ++ rest = spiral n n ∧ s.counter = pre.length + 1 ∧ pre.map s.matrix.get = numbers pre.length

theorem Filled.counter_eq {n : ℕ} {rest : List (Cell n n)} {s : Writing n} (h : Filled rest s) :
    s.counter + rest.length = (n : ℤ) ^ 2 + 1 := by
  obtain ⟨pre, hpre, hcounter, -⟩ := h
  have hlen : (pre.length : ℤ) + rest.length = n * n := by
    rw [← Nat.cast_add, ← Nat.cast_mul, ← List.length_append, hpre, length_spiral]
  rw [hcounter, sq]
  omega

theorem Filled.set {n : ℕ} {p : Cell n n} {rest : List (Cell n n)} {s : Writing n} (h : Filled (p :: rest) s) :
    Filled rest ⟨s.matrix.set p s.counter, s.counter + 1⟩ := by
  obtain ⟨pre, hpre, hcounter, hget⟩ := h
  have hnodup := nodup_spiral n n
  rw [← hpre] at hnodup
  have hp : p ∉ pre := fun hmem => List.disjoint_of_nodup_append hnodup hmem List.mem_cons_self
  refine ⟨pre ++ [p], by rw [← hpre, List.append_assoc, List.singleton_append], by simp [hcounter], ?_⟩
  have hkeep : pre.map (s.matrix.set p s.counter).get = pre.map s.matrix.get := by
    refine List.map_congr_left fun q hq => ?_
    rw [Grid.get_set, if_neg]
    rintro rfl
    exact hp hq
  rw [List.map_append, hkeep, hget, List.length_append, List.length_singleton, numbers, numbers, List.range_succ,
    List.map_append, List.map_singleton, List.map_singleton, Grid.get_set, if_pos rfl, hcounter]

theorem follows_write (n : ℕ) : Follows Writing.going write (Filled (n := n)) where
  step p rest s hs := by
    have hcounter := hs.counter_eq
    refine ⟨_, ?_, hs.set⟩
    rw [write, if_pos (by simp only [List.length_cons] at hcounter; omega), s.matrix.setItem?_cell p]
  done x y s hs := by
    have hcounter := hs.counter_eq
    rw [write, if_neg (by simp only [List.length_nil] at hcounter; omega)]
  going_iff rest s hs := by
    have hcounter := hs.counter_eq
    rw [Writing.going, decide_eq_true_iff, ← List.length_pos_iff]
    omega

theorem generateMatrix_spec (n : ℕ) : ∃ matrix, Returns (generateMatrix n) (.ok matrix) ∧
    (spiral n n).map matrix.get = numbers (n * n) := by
  by_cases hn : n = 0
  · subst hn
    exact ⟨_, Returns.pure _, by rw [spiral_zero]; rfl⟩
  · obtain ⟨s, hs, pre, hpre, -, hget⟩ := (follows_write n).loop (s := ⟨.replicate n n 0, 1⟩)
      ⟨[], rfl, rfl, rfl⟩
    rw [List.append_nil] at hpre
    rw [hpre, length_spiral] at hget
    have hwrite := hs.map (Except.map Writing.matrix)
    refine ⟨s.matrix, ?_, hget⟩
    have heq : generateMatrix n = fun fuel => _ := funext fun fuel => if_neg hn
    rw [heq]
    exact hwrite

/-- Both readers return the entries of any matrix in the order of the spiral, which takes every cell once, and what they
read in the matrix that `generateMatrix n` fills are the numbers from 1 to `n * n`. -/
theorem spiralOrder_exact (matrix : Grid r c α) (n : ℕ) :
    (spiral r c).Nodup ∧ (∀ p, p ∈ spiral r c) ∧
      Returns (Exercise54.spiralOrder matrix) (.ok ((spiral r c).map matrix.get)) ∧
      Returns (Offer29.spiralOrder matrix) (.ok ((spiral r c).map matrix.get)) ∧
      ∃ square, Returns (generateMatrix n) (.ok square) ∧
        Returns (Exercise54.spiralOrder square) (.ok (numbers (n * n))) ∧
        Returns (Offer29.spiralOrder square) (.ok (numbers (n * n))) := by
  obtain ⟨square, hsquare, hnumbers⟩ := generateMatrix_spec n
  have h54 := Exercise54.spiralOrder_eq square
  have h29 := Offer29.spiralOrder_eq square
  rw [hnumbers] at h54 h29
  exact ⟨nodup_spiral r c, mem_spiral, Exercise54.spiralOrder_eq matrix, Offer29.spiralOrder_eq matrix, square, hsquare,
    h54, h29⟩

example : Exercise54.spiralOrder (⟨#v[#v[1, 2, 3, 4], #v[5, 6, 7, 8], #v[9, 10, 11, 12]]⟩ : Grid 3 4 ℕ) 3 =
    some (.ok [1, 2, 3, 4, 8, 12, 11, 10, 9, 5, 6, 7]) := by
  decide +kernel

end GoodGoodStudy.LeetCode.Spiral
