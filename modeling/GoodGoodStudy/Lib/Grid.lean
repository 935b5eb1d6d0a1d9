/-
Rectangular grids: cells, reading and writing a cell, the neighbours of a cell by a list of directions with a range
check on integer coordinates, and the loop over all cells in the order of the rows.
-/
import Mathlib.Data.List.FinRange
import Mathlib.Data.List.Nodup
import Mathlib.Data.List.ProdSigma
import Mathlib.Data.Finset.Insert
import Mathlib.Data.Int.Order.Basic

namespace GoodGoodStudy.Lib

abbrev Cell (r c : ℕ) := Fin r × Fin c

/-- `r` rows of length `c`. -/
structure Grid (r c : ℕ) (α : Type*) where
  rows : Vector (Vector α c) r
  deriving DecidableEq, Repr

variable {r c : ℕ} {α : Type*}

theorem vector_get_set {n : ℕ} (v : Vector α n) (i j : Fin n) (a : α) :
    (v.set i a i.isLt).get j = if j = i then a else v.get j := by
  refine (Vector.getElem_set i.isLt j.isLt).trans ?_
  simp only [Fin.ext_iff, eq_comm]
  rfl

namespace Grid

def get (g : Grid r c α) (p : Cell r c) : α := g.rows[p.1][p.2]

def set (g : Grid r c α) (p : Cell r c) (a : α) : Grid r c α := ⟨g.rows.set p.1 (g.rows[p.1].set p.2 a)⟩

def ofFn (f : Cell r c → α) : Grid r c α := ⟨Vector.ofFn fun i => Vector.ofFn fun j => f (i, j)⟩

@[simp] theorem get_ofFn (f : Cell r c → α) (p : Cell r c) : (ofFn f).get p = f p := by simp [get, ofFn]

def replicate (r c : ℕ) (a : α) : Grid r c α := ⟨Vector.replicate r (Vector.replicate c a)⟩

@[simp] theorem get_replicate (a : α) (p : Cell r c) : (replicate r c a).get p = a := by simp [get, replicate]

theorem toList_row (g : Grid r c α) (i : Fin r) :
    (g.rows.get i).toList = (List.finRange c).map fun j => g.get (i, j) := by
  refine List.ext_getElem (by simp) fun j h₁ h₂ => ?_
  simp [get, Vector.get]

theorem get_set (g : Grid r c α) (p q : Cell r c) (a : α) :
    (g.set p a).get q = if q = p then a else g.get q := by
  obtain ⟨i, j⟩ := p
  obtain ⟨k, l⟩ := q
  unfold get set
  by_cases hi : k = i
  · subst hi
    by_cases hj : l = j
    · subst hj
      simp
    · have hne : (j : ℕ) ≠ l := fun he => hj (Fin.ext he.symm)
      simp [hj, hne]
  · have hne : (i : ℕ) ≠ k := fun he => hi (Fin.ext he.symm)
    simp [hi, hne]

theorem ext_get {g h : Grid r c α} (heq : ∀ p, g.get p = h.get p) : g = h := by
  obtain ⟨g⟩ := g
  obtain ⟨h⟩ := h
  refine congrArg Grid.mk (Vector.ext fun i hi => Vector.ext fun j hj => ?_)
  exact heq (⟨i, hi⟩, ⟨j, hj⟩)

theorem set_get_self (g : Grid r c α) (p : Cell r c) (a : α) : (g.set p a).set p (g.get p) = g := by
  refine ext_get fun q => ?_
  rw [get_set, get_set]
  by_cases hq : q = p
  · rw [if_pos hq, hq]
  · rw [if_neg hq, if_neg hq]

end Grid

/-! ## Cells and coordinates -/

/-- The range check of an index. -/
def index? (n : ℕ) (x : ℤ) : Option (Fin n) :=
  if h : 0 ≤ x ∧ x < n then some ⟨x.toNat, (Int.toNat_lt h.1).2 h.2⟩ else none

theorem index?_eq_some {n : ℕ} {x : ℤ} {i : Fin n} : index? n x = some i ↔ x = i := by
  unfold index?
  constructor
  · intro h
    split_ifs at h with hx
    obtain rfl := Option.some.inj h
    exact (Int.toNat_of_nonneg hx.1).symm
  · rintro rfl
    rw [dif_pos ⟨Int.natCast_nonneg _, Int.ofNat_lt.2 i.isLt⟩]
    rfl

/-- The range check of two coordinates. -/
def cell? (r c : ℕ) (x y : ℤ) : Option (Cell r c) :=
  (index? r x).bind fun i => (index? c y).map fun j => (i, j)

theorem cell?_eq_some {x y : ℤ} {p : Cell r c} : cell? r c x y = some p ↔ x = p.1 ∧ y = p.2 := by
  unfold cell?
  constructor
  · intro h
    obtain ⟨i, hi, h⟩ := Option.bind_eq_some_iff.1 h
    obtain ⟨j, hj, rfl⟩ := Option.map_eq_some_iff.1 h
    exact ⟨index?_eq_some.1 hi, index?_eq_some.1 hj⟩
  · rintro ⟨hx, hy⟩
    rw [index?_eq_some.2 hx, index?_eq_some.2 hy]
    rfl

theorem cell_eq_iff {p q : Cell r c} : p = q ↔ (p.1 : ℕ) = q.1 ∧ (p.2 : ℕ) = q.2 := by
  rw [Prod.ext_iff, Fin.ext_iff, Fin.ext_iff]

/-- The cells that lie in these directions from a cell, in their order. -/
def neighbours (dirs : List (ℤ × ℤ)) (p : Cell r c) : List (Cell r c) :=
  dirs.filterMap fun d => cell? r c (p.1 + d.1) (p.2 + d.2)

/-- The two cells share a side. -/
def SharesSide (p q : Cell r c) : Prop := ((q.1 : ℤ) - p.1).natAbs + ((q.2 : ℤ) - p.2).natAbs = 1

instance (p q : Cell r c) : Decidable (SharesSide p q) := inferInstanceAs (Decidable (_ = _))

theorem SharesSide.symm {p q : Cell r c} (h : SharesSide p q) : SharesSide q p := by
  unfold SharesSide at h ⊢
  omega

theorem mem_neighbours_iff {dirs : List (ℤ × ℤ)} {p q : Cell r c} :
    q ∈ neighbours dirs p ↔ ∃ d ∈ dirs, (p.1 : ℤ) + d.1 = q.1 ∧ (p.2 : ℤ) + d.2 = q.2 := by
  rw [neighbours, List.mem_filterMap]
  exact exists_congr fun d => and_congr_right fun _ => cell?_eq_some

/-- The four directions, in any order. -/
theorem mem_neighbours {dirs : List (ℤ × ℤ)} (h : dirs.Perm [(-1, 0), (1, 0), (0, -1), (0, 1)]) {p q : Cell r c} :
    q ∈ neighbours dirs p ↔ SharesSide p q := by
  rw [mem_neighbours_iff]
  simp only [h.mem_iff]
  unfold SharesSide
  simp only [List.mem_cons, List.not_mem_nil, or_false, exists_eq_or_imp, exists_eq_left]
  omega

/-- To look in the four directions from the coordinates of a cell. -/
theorem exists_direction_iff {dirs : List (ℤ × ℤ)} (h : dirs.Perm [(-1, 0), (1, 0), (0, -1), (0, 1)]) {x y : ℤ}
    {p : Cell r c} (hp : cell? r c x y = some p) {P : Cell r c → Prop} :
    (∃ d ∈ dirs, ∃ q, cell? r c (x + d.1) (y + d.2) = some q ∧ P q) ↔ ∃ q, SharesSide p q ∧ P q := by
  obtain ⟨rfl, rfl⟩ := cell?_eq_some.1 hp
  constructor
  · rintro ⟨d, hd, q, hq, hP⟩
    exact ⟨q, (mem_neighbours h).1 (mem_neighbours_iff.2 ⟨d, hd, cell?_eq_some.1 hq⟩), hP⟩
  · rintro ⟨q, hside, hP⟩
    obtain ⟨d, hd, hq⟩ := mem_neighbours_iff.1 ((mem_neighbours h).2 hside)
    exact ⟨d, hd, q, cell?_eq_some.2 hq, hP⟩

/-! ## Words along cells -/

/-- From the cell the word can be read along cells that share sides, each of them taken once, and none of those that
were visited. -/
def Trail (g : Grid r c α) (visited : Finset (Cell r c)) (p : Cell r c) (word : List α) : Prop :=
  ∃ ps : List (Cell r c), (p :: ps).IsChain SharesSide ∧ (p :: ps).Nodup ∧ (∀ q ∈ p :: ps, q ∉ visited) ∧
    (p :: ps).map g.get = word

/-- One cell after the other: the first cell has the first letter, and is visited for the rest of the word. -/
theorem trail_iff {g : Grid r c α} {visited : Finset (Cell r c)} {p : Cell r c} {word : List α} :
    Trail g visited p word ↔ ∃ rest, word = g.get p :: rest ∧ p ∉ visited ∧
      (rest = [] ∨ ∃ q, SharesSide p q ∧ Trail g (insert p visited) q rest) := by
  constructor
  · rintro ⟨ps, hchain, hnodup, hfree, rfl⟩
    refine ⟨ps.map g.get, rfl, hfree p List.mem_cons_self, ?_⟩
    cases ps with
    | nil => exact Or.inl rfl
    | cons q ps =>
      obtain ⟨hside, hchain⟩ := List.isChain_cons_cons.1 hchain
      obtain ⟨hp, hnodup⟩ := List.nodup_cons.1 hnodup
      refine Or.inr ⟨q, hside, ps, hchain, hnodup, fun x hx hmem => ?_, rfl⟩
      rcases Finset.mem_insert.1 hmem with rfl | hmem
      · exact hp hx
      · exact hfree x (List.mem_cons_of_mem p hx) hmem
  · rintro ⟨rest, rfl, hp, rfl | ⟨q, hside, ps, hchain, hnodup, hfree, rfl⟩⟩
    · refine ⟨[], .singleton p, List.nodup_singleton p, fun x hx => ?_, rfl⟩
      exact List.mem_singleton.1 hx ▸ hp
    · refine ⟨q :: ps, List.isChain_cons_cons.2 ⟨hside, hchain⟩, List.nodup_cons.2 ⟨fun hmem => ?_, hnodup⟩,
        fun x hx => ?_, rfl⟩
      · exact hfree p hmem (Finset.mem_insert_self p visited)
      · rcases List.mem_cons.1 hx with rfl | hx
        · exact hp
        · exact fun hmem => hfree x hx (Finset.mem_insert_of_mem hmem)

/-! ## All cells -/

/-- The order of two nested loops. -/
def cells (r c : ℕ) : List (Cell r c) := List.finRange r ×ˢ List.finRange c

theorem mem_cells (p : Cell r c) : p ∈ cells r c :=
  List.mem_product.2 ⟨List.mem_finRange p.1, List.mem_finRange p.2⟩

theorem nodup_cells : (cells r c).Nodup := (List.nodup_finRange r).product (List.nodup_finRange c)

/-- The cell comes earlier in this order. -/
def Precedes (p q : Cell r c) : Prop := p.1 < q.1 ∨ p.1 = q.1 ∧ p.2 < q.2

theorem pairwise_cells : (cells r c).Pairwise Precedes := by
  refine List.pairwise_flatMap.2 ⟨fun i _ => ?_, (List.pairwise_lt_finRange r).imp fun hlt p hp q hq => ?_⟩
  · exact List.pairwise_map.2 ((List.pairwise_lt_finRange c).imp fun hlt => Or.inr ⟨rfl, hlt⟩)
  · obtain ⟨_, -, rfl⟩ := List.mem_map.1 hp
    obtain ⟨_, -, rfl⟩ := List.mem_map.1 hq
    exact Or.inl hlt

theorem mem_of_precedes {pre rest : List (Cell r c)} {p q : Cell r c} (h : pre ++ p :: rest = cells r c)
    (hq : Precedes q p) : q ∈ pre := by
  have hmem : q ∈ pre ++ p :: rest := h ▸ mem_cells q
  have hpairwise := pairwise_cells (r := r) (c := c)
  rw [← h] at hpairwise
  unfold Precedes at hq
  rcases List.mem_append.1 hmem with hmem | hmem
  · exact hmem
  · rcases List.mem_cons.1 hmem with rfl | hmem
    · omega
    · have hback := (List.pairwise_cons.1 (List.pairwise_append.1 hpairwise).2.1).1 q hmem
      unfold Precedes at hback
      omega

/-- A loop that changes one cell after the other. -/
theorem Grid.get_foldl_set (f : α → α) :
    ∀ (l : List (Cell r c)) (g : Grid r c α), l.Nodup → ∀ q,
      (l.foldl (fun g p => g.set p (f (g.get p))) g).get q = if q ∈ l then f (g.get q) else g.get q
  | [], _, _, _ => rfl
  | p :: l, g, h, q => by
    obtain ⟨hp, hl⟩ := List.nodup_cons.1 h
    rw [List.foldl_cons, get_foldl_set f l _ hl q, get_set]
    by_cases hq : q = p
    · subst hq
      rw [if_neg hp, if_pos rfl, if_pos List.mem_cons_self]
    · rw [if_neg hq]
      simp only [List.mem_cons, hq, false_or]

end GoodGoodStudy.Lib
