/-
Reading and writing by index the way a scripting language does, in lists and in grids: an index below zero counts from
the end, and an index out of range is an error.
-/
import Mathlib.Data.List.Basic
import GoodGoodStudy.Lib.Grid

namespace GoodGoodStudy.Lib

variable {α : Type*}

/-- The place that an index names among `n` places. -/
def position? (n : ℕ) (i : ℤ) : Option (Fin n) := index? n (if i < 0 then n + i else i)

theorem position?_natCast {n i : ℕ} (h : i < n) : position? n i = some ⟨i, h⟩ := by
  rw [position?, if_neg (Int.natCast_nonneg i).not_gt]
  exact index?_eq_some.2 rfl

def item? (xs : List α) (i : ℤ) : Option α := (position? xs.length i).map xs.get

def setItem? (xs : List α) (i : ℤ) (a : α) : Option (List α) := (position? xs.length i).map fun k => xs.set k a

theorem item?_natCast {xs : List α} {i : ℕ} (h : i < xs.length) : item? xs i = some xs[i] := by
  rw [item?, position?_natCast h]
  rfl

theorem setItem?_natCast {xs : List α} {i : ℕ} (h : i < xs.length) (a : α) : setItem? xs i a = some (xs.set i a) := by
  rw [setItem?, position?_natCast h]
  rfl

theorem item?_getD {xs : List α} {i : ℕ} (h : i < xs.length) (a : α) : item? xs i = some (xs.getD i a) := by
  rw [item?_natCast h, List.getD_eq_getElem?_getD, List.getElem?_eq_getElem h]
  rfl

theorem getD_set {xs : List α} {i : ℕ} (h : i < xs.length) (a b : α) (j : ℕ) :
    (xs.set i a).getD j b = if j = i then a else xs.getD j b := by
  rw [List.getD_eq_getElem?_getD, List.getD_eq_getElem?_getD]
  split_ifs with hj
  · rw [hj, List.getElem?_set_self h]
    rfl
  · rw [List.getElem?_set_ne (Ne.symm hj)]

/-- The indices that name an element. -/
theorem item?_isSome_iff {xs : List α} {i : ℤ} :
    (item? xs i).isSome ↔ -(xs.length : ℤ) ≤ i ∧ i < xs.length := by
  rw [item?, Option.isSome_map, position?, Option.isSome_iff_exists]
  simp only [index?_eq_some]
  constructor
  · rintro ⟨k, hk⟩
    have hlt := k.isLt
    split_ifs at hk <;> omega
  · rintro ⟨hle, hlt⟩
    split_ifs with hneg
    · exact ⟨⟨(xs.length + i).toNat, by omega⟩, by simp only; omega⟩
    · exact ⟨⟨i.toNat, by omega⟩, by simp only; omega⟩

/-- The element behind a part whose length is the index. -/
theorem item?_append {pre : List α} {i : ℤ} (hi : i = pre.length) (a : α) (post : List α) :
    item? (pre ++ a :: post) i = some a := by
  rw [hi, item?_natCast (by simp)]
  simp

theorem setItem?_append {pre : List α} {i : ℤ} (hi : i = pre.length) (a b : α) (post : List α) :
    setItem? (pre ++ a :: post) i b = some (pre ++ b :: post) := by
  rw [hi, setItem?_natCast (by simp)]
  simp

/-- The elements of a list are read one after the other. -/
theorem mapM_range {f : ℕ → Option α} {l : List α} (h : ∀ i < l.length, f i = l[i]?) :
    (List.range l.length).mapM f = some l := by
  induction l using List.reverseRecOn with
  | nil => rfl
  | append_singleton l a ih =>
    have hl : (List.range l.length).mapM f = some l := ih fun i hi => by
      rw [h i (by rw [List.length_append]; omega), List.getElem?_append_left hi]
    have ha : f l.length = some a := by simp [h l.length]
    simp [List.range_succ, hl, ha]

/-- Counted from the end. -/
theorem item?_neg {xs : List α} {k : ℕ} (hpos : 0 < k) (hk : k ≤ xs.length) :
    item? xs (-k) = xs.reverse[k - 1]? := by
  have hindex : (if -(k : ℤ) < 0 then (xs.length : ℤ) + -k else -k) = (xs.length - k : ℕ) := by
    rw [if_pos (by omega)]
    omega
  have hplace : position? xs.length (-k) = some ⟨xs.length - k, by omega⟩ := index?_eq_some.2 hindex
  rw [item?, hplace, Option.map_some, List.getElem?_reverse (by omega), List.getElem?_eq_getElem (by omega)]
  simp only [List.get_eq_getElem]
  congr 2
  omega

theorem item?_concat (xs : List α) (a : α) : item? (xs ++ [a]) (-1) = some a := by
  have hlength : 1 ≤ (xs ++ [a]).length := by
    rw [List.length_append, List.length_singleton]
    omega
  have hneg := item?_neg Nat.one_pos hlength
  rw [List.reverse_append] at hneg
  exact hneg

theorem setItem?_concat (xs : List α) (a b : α) : setItem? (xs ++ [a]) (-1) b = some (xs ++ [b]) := by
  have hindex : (if (-1 : ℤ) < 0 then ((xs ++ [a]).length : ℤ) + -1 else -1) = xs.length := by
    rw [if_pos (by omega), List.length_append, List.length_singleton]
    omega
  have hplace : position? (xs ++ [a]).length (-1) = some ⟨xs.length, by simp⟩ := index?_eq_some.2 hindex
  have hset : (xs ++ [a]).set xs.length b = xs ++ [b] := by
    rw [List.set_append_right _ _ le_rfl, Nat.sub_self]
    rfl
  rw [setItem?, hplace]
  exact congrArg some hset

/-- `xs[i:j]`: bounds below zero count from the end, and what is out of range is left out. -/
def slice (xs : List α) (i j : ℤ) : List α :=
  let bound (i : ℤ) : ℕ := (if i < 0 then xs.length + i else i).toNat
  (xs.take (bound j)).drop (bound i)

theorem slice_natCast (xs : List α) (i j : ℕ) : slice xs i j = (xs.take j).drop i := by
  unfold slice
  simp only [if_neg (Int.natCast_nonneg _).not_gt, Int.toNat_natCast]

/-- `xs[i:j] = ys` -/
def setSlice (xs : List α) (i j : ℤ) (ys : List α) : List α :=
  let bound (i : ℤ) : ℕ := (if i < 0 then xs.length + i else i).toNat
  xs.take (bound i) ++ ys ++ xs.drop (max (bound i) (bound j))

theorem slice_append {pre seg : List α} {i j : ℤ} (hi : i = pre.length) (hj : j = i + seg.length) (post : List α) :
    slice (pre ++ seg ++ post) i j = seg := by
  have hj' : j = (pre ++ seg).length := by
    rw [hj, hi, List.length_append]
    omega
  rw [hi, hj', slice_natCast, List.take_left, List.drop_left]

theorem setSlice_append {pre seg : List α} {i j : ℤ} (hi : i = pre.length) (hj : j = i + seg.length)
    (ys post : List α) : setSlice (pre ++ seg ++ post) i j ys = pre ++ ys ++ post := by
  have hj' : j = (pre ++ seg).length := by
    rw [hj, hi, List.length_append]
    omega
  have hmax : max pre.length (pre ++ seg).length = (pre ++ seg).length := by
    rw [List.length_append]
    omega
  unfold setSlice
  simp only [hi, hj', if_neg (Int.natCast_nonneg _).not_gt, Int.toNat_natCast, hmax, List.drop_left]
  rw [List.append_assoc pre seg, List.take_left]

/-! ## Two indices -/

namespace Grid

variable {r c : ℕ}

/-- `rows[x][y]` -/
def item? (g : Grid r c α) (x y : ℤ) : Option α :=
  (position? r x).bind fun i => (position? c y).map fun j => g.get (i, j)

def setItem? (g : Grid r c α) (x y : ℤ) (a : α) : Option (Grid r c α) :=
  (position? r x).bind fun i => (position? c y).map fun j => g.set (i, j) a

theorem item?_cell (g : Grid r c α) (p : Cell r c) : g.item? p.1 p.2 = some (g.get p) := by
  rw [item?, position?_natCast p.1.isLt, Option.bind_some, position?_natCast p.2.isLt]
  rfl

theorem setItem?_cell (g : Grid r c α) (p : Cell r c) (a : α) : g.setItem? p.1 p.2 a = some (g.set p a) := by
  rw [setItem?, position?_natCast p.1.isLt, Option.bind_some, position?_natCast p.2.isLt]
  rfl

section Indices

variable {p : Cell r c} {x y : ℤ}

theorem item?_eq (hx : x = p.1) (hy : y = p.2) (g : Grid r c α) : g.item? x y = some (g.get p) := by
  rw [hx, hy, item?_cell]

theorem setItem?_eq (hx : x = p.1) (hy : y = p.2) (g : Grid r c α) (a : α) : g.setItem? x y a = some (g.set p a) := by
  rw [hx, hy, setItem?_cell]

end Indices

end Grid

end GoodGoodStudy.Lib
