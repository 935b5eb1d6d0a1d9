/-
Two players take piles from the ends of a row, in turn. What the pile counts that is taken last is a parameter of the
game. The lead that the player to move can force is computed from the shorter rows. With an even number of piles he can
take all those with an even number, or all the others, and the opponent takes the last pile.
-/
import Mathlib.Algebra.Group.Int.Even
import Mathlib.Algebra.Order.Group.Int
import Mathlib.Data.List.Basic
import Mathlib.Order.Lattice

namespace GoodGoodStudy.Lib

/-- A move: what it counts, and the piles that are left. -/
inductive Takes (last : ℤ → ℤ) : List ℤ → ℤ → List ℤ → Prop
  | only (a : ℤ) : Takes last [a] (last a) []
  | front (a : ℤ) {l : List ℤ} (hl : l ≠ []) : Takes last (a :: l) a l
  | back (a : ℤ) {l : List ℤ} (hl : l ≠ []) : Takes last (l ++ [a]) a l

/-- A player can force to be ahead by `v` at least, when it is his turn (`true`) or the turn of the other one. -/
inductive Forces (last : ℤ → ℤ) : Bool → List ℤ → ℤ → Prop
  | ended {turn : Bool} {v : ℤ} (hv : v ≤ 0) : Forces last turn [] v
  | move {l rest : List ℤ} {a v : ℤ} (ht : Takes last l a rest) (h : Forces last false rest (v - a)) :
      Forces last true l v
  | wait {l : List ℤ} {v : ℤ} (hl : l ≠ []) (h : ∀ a rest, Takes last l a rest → Forces last true rest (v + a)) :
      Forces last false l v

/-- The lead of the player to move, when the piles from `i` to `i + n` are left. -/
def lead (last : ℤ → ℤ) (p : ℕ → ℤ) : ℕ → ℕ → ℤ
  | i, 0 => last (p i)
  | i, n + 1 => max (p i - lead last p (i + 1) n) (p (i + (n + 1)) - lead last p i n)

variable {last last' : ℤ → ℤ} {p : ℕ → ℤ} {i n : ℕ} {a v ε : ℤ} {l rest : List ℤ}

/-! ## The lead can be forced, and no more -/

/-- The piles from `i` to `i + n`. -/
def row (p : ℕ → ℤ) (i n : ℕ) : List ℤ := (List.range' i (n + 1)).map p

theorem row_zero (p : ℕ → ℤ) (i : ℕ) : row p i 0 = [p i] := rfl

theorem row_succ (p : ℕ → ℤ) (i n : ℕ) : row p i (n + 1) = p i :: row p (i + 1) n := by
  rw [row, List.range'_succ]
  rfl

theorem row_concat (p : ℕ → ℤ) (i n : ℕ) : row p i (n + 1) = row p i n ++ [p (i + (n + 1))] := by
  rw [row, List.range'_concat, List.map_append, Nat.one_mul]
  rfl

theorem row_ne_nil (p : ℕ → ℤ) (i n : ℕ) : row p i n ≠ [] := by
  rw [row, List.range'_succ]
  exact List.cons_ne_nil _ _

theorem takes_row_zero : Takes last (row p i 0) a rest ↔ a = last (p i) ∧ rest = [] := by
  rw [row_zero]
  constructor
  · generalize hl : [p i] = l
    intro h
    cases h with
    | only => exact ⟨by rw [List.singleton_inj.1 hl], rfl⟩
    | front _ hrest => exact absurd (List.cons_eq_cons.1 hl).2.symm hrest
    | back _ hrest =>
      have hlen := congrArg List.length hl
      have hpos := List.length_pos_iff.2 hrest
      rw [List.length_append, List.length_singleton, List.length_singleton] at hlen
      omega
  · rintro ⟨rfl, rfl⟩
    exact Takes.only (p i)

theorem takes_row_succ : Takes last (row p i (n + 1)) a rest ↔
    a = p i ∧ rest = row p (i + 1) n ∨ a = p (i + (n + 1)) ∧ rest = row p i n := by
  constructor
  · generalize hl : row p i (n + 1) = l
    intro h
    cases h with
    | only =>
      rw [row_succ] at hl
      exact absurd (List.cons_eq_cons.1 hl).2 (row_ne_nil p (i + 1) n)
    | front _ hrest =>
      rw [row_succ] at hl
      obtain ⟨ha, hrest⟩ := List.cons_eq_cons.1 hl
      exact Or.inl ⟨ha.symm, hrest.symm⟩
    | back _ hrest =>
      rw [row_concat] at hl
      obtain ⟨hrest, ha⟩ := List.append_inj' hl rfl
      exact Or.inr ⟨(List.singleton_inj.1 ha).symm, hrest.symm⟩
  · rintro (⟨rfl, rfl⟩ | ⟨rfl, rfl⟩)
    · rw [row_succ]
      exact Takes.front _ (row_ne_nil p (i + 1) n)
    · rw [row_concat]
      exact Takes.back _ (row_ne_nil p i n)

theorem Takes.ne_nil (h : Takes last l a rest) : l ≠ [] := by
  cases h with
  | only => exact List.cons_ne_nil _ _
  | front => exact List.cons_ne_nil _ _
  | back => exact List.append_ne_nil_of_right_ne_nil _ (List.cons_ne_nil _ _)

theorem forces_nil {turn : Bool} : Forces last turn [] v ↔ v ≤ 0 := by
  constructor
  · intro h
    cases h with
    | ended hv => exact hv
    | move ht => exact absurd rfl ht.ne_nil
    | wait hl => exact absurd rfl hl
  · exact Forces.ended

theorem forces_true (hl : l ≠ []) :
    Forces last true l v ↔ ∃ a rest, Takes last l a rest ∧ Forces last false rest (v - a) := by
  constructor
  · intro h
    cases h with
    | ended => exact absurd rfl hl
    | move ht h => exact ⟨_, _, ht, h⟩
  · rintro ⟨a, rest, ht, h⟩
    exact Forces.move ht h

theorem forces_false (hl : l ≠ []) :
    Forces last false l v ↔ ∀ a rest, Takes last l a rest → Forces last true rest (v + a) := by
  constructor
  · intro h
    cases h with
    | ended => exact absurd rfl hl
    | wait _ h => exact h
  · exact Forces.wait hl

theorem forces_row_zero (i : ℕ) (v : ℤ) : (Forces last true (row p i 0) v ↔ v ≤ lead last p i 0) ∧
    (Forces last false (row p i 0) v ↔ v ≤ -lead last p i 0) := by
  rw [forces_true (row_ne_nil p i 0), forces_false (row_ne_nil p i 0), lead]
  simp only [takes_row_zero]
  constructor
  · constructor
    · rintro ⟨_, _, ⟨rfl, rfl⟩, h⟩
      have hv := forces_nil.1 h
      omega
    · exact fun hv => ⟨_, _, ⟨rfl, rfl⟩, forces_nil.2 (by omega)⟩
  · constructor
    · intro h
      have hv := forces_nil.1 (h _ _ ⟨rfl, rfl⟩)
      omega
    · rintro hv _ _ ⟨rfl, rfl⟩
      exact forces_nil.2 (by omega)

theorem forces_row (n : ℕ) : ∀ i v, (Forces last true (row p i n) v ↔ v ≤ lead last p i n) ∧
    (Forces last false (row p i n) v ↔ v ≤ -lead last p i n) := by
  induction n with
  | zero => exact forces_row_zero
  | succ n ih =>
    intro i v
    rw [forces_true (row_ne_nil p i (n + 1)), forces_false (row_ne_nil p i (n + 1)), lead]
    simp only [takes_row_succ]
    constructor
    -- the other player moves next, and the lead changes its sign
    · rw [le_max_iff]
      constructor
      · rintro ⟨_, _, ⟨rfl, rfl⟩ | ⟨rfl, rfl⟩, h⟩
        · have hv := (ih _ _).2.1 h
          omega
        · have hv := (ih _ _).2.1 h
          omega
      · rintro (hv | hv)
        · exact ⟨_, _, Or.inl ⟨rfl, rfl⟩, (ih _ _).2.2 (by omega)⟩
        · exact ⟨_, _, Or.inr ⟨rfl, rfl⟩, (ih _ _).2.2 (by omega)⟩
    · constructor
      · intro h
        have hfront := (ih _ _).1.1 (h _ _ (Or.inl ⟨rfl, rfl⟩))
        have hback := (ih _ _).1.1 (h _ _ (Or.inr ⟨rfl, rfl⟩))
        omega
      · rintro hv _ _ (⟨rfl, rfl⟩ | ⟨rfl, rfl⟩)
        · exact (ih _ _).1.2 (by omega)
        · exact (ih _ _).1.2 (by omega)

/-! ## Even and odd numbers of piles -/

/-- The piles with an even number from `i` on, less the others. -/
def alternating (p : ℕ → ℤ) : ℕ → ℕ → ℤ
  | i, 0 => p i
  | i, n + 1 => p i - alternating p (i + 1) n

theorem alternating_concat (p : ℕ → ℤ) (n : ℕ) : ∀ i, alternating p i (n + 1) =
    if Even n then alternating p i n - p (i + (n + 1)) else alternating p i n + p (i + (n + 1)) := by
  induction n with
  | zero => exact fun i => by simp [alternating]
  | succ n ih =>
    intro i
    have hindex : i + 1 + (n + 1) = i + (n + 1 + 1) := by omega
    rw [alternating, ih (i + 1), alternating, hindex]
    simp only [Nat.even_add_one]
    split_ifs <;> omega

/-- What can be forced, if the last pile counts less by `ε` at least. -/
theorem lead_bounds (hlast : ∀ i, last (p i) ≤ p i - ε) (n : ℕ) : ∀ i,
    (Even n → lead last p i n ≤ alternating p i n - ε) ∧
      (¬Even n → alternating p i n + ε ≤ lead last p i n ∧ -alternating p i n + ε ≤ lead last p i n) := by
  induction n with
  | zero => exact fun i => ⟨fun _ => hlast i, fun hodd => absurd Even.zero hodd⟩
  | succ n ih =>
    intro i
    have hcons : alternating p i (n + 1) = p i - alternating p (i + 1) n := rfl
    have hconcat := alternating_concat p n i
    have hfront := ih (i + 1)
    have hback := ih i
    rw [Nat.even_add_one, not_not, lead]
    -- whether the first or the last pile is taken, a row of the other kind is left
    by_cases hn : Even n
    · rw [if_pos hn] at hconcat
      have hfront := hfront.1 hn
      have hback := hback.1 hn
      refine ⟨fun hodd => absurd hn hodd, fun _ => ⟨le_max_of_le_left ?_, le_max_of_le_right ?_⟩⟩
      · omega
      · omega
    · rw [if_neg hn] at hconcat
      have hfront := hfront.2 hn
      have hback := hback.2 hn
      refine ⟨fun _ => max_le ?_ ?_, fun heven => absurd heven hn⟩
      · omega
      · omega

/-- The player who takes the last pile is better off if it counts more. -/
theorem lead_mono (h : ∀ i, last (p i) ≤ last' (p i)) (n : ℕ) : ∀ i, (Even n → lead last p i n ≤ lead last' p i n) ∧
    (¬Even n → lead last' p i n ≤ lead last p i n) := by
  induction n with
  | zero => exact fun i => ⟨fun _ => h i, fun hodd => absurd Even.zero hodd⟩
  | succ n ih =>
    intro i
    rw [Nat.even_add_one, not_not]
    refine ⟨fun hn => max_le_max ?_ ?_, fun hn => max_le_max ?_ ?_⟩
    · exact Int.sub_le_sub_left ((ih (i + 1)).2 hn) _
    · exact Int.sub_le_sub_left ((ih i).2 hn) _
    · exact Int.sub_le_sub_left ((ih (i + 1)).1 hn) _
    · exact Int.sub_le_sub_left ((ih i).1 hn) _

end GoodGoodStudy.Lib
