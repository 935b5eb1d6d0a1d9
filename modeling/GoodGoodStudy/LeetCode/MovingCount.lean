/-
The exercise 13 of 剑指offer, the cells that a robot can move to. The search goes to the right and down only. No
cell is missed: the cells come in blocks of ten by ten, a block is entered at its first corner, which has the least
sum of digits in it, and to enter a block from the one before takes nine more than its first corner needs. So the
blocks are entered as the cells of a grid are with a bound that is less by nine, and what holds of the blocks holds of
the cells.
-/
import Mathlib.Data.Finset.Prod
import Mathlib.Data.Nat.Digits.Defs
import Mathlib.Data.Set.Card
import GoodGoodStudy.Lib.Flood
import GoodGoodStudy.Lib.Loop

namespace GoodGoodStudy.LeetCode.MovingCount

open GoodGoodStudy.Lib

/-! ## The code -/

/-- The loop of `digitsum`. -/
def digitsumFrom (sum num : ℕ) : ℕ := if num > 9 then digitsumFrom (sum + num % 10) (num / 10) else sum + num
termination_by num
decreasing_by omega

def digitsum (num : ℕ) : ℕ := digitsumFrom 0 num

/-- A round of the loop of `movingCount`, on `res` and `queue`. -/
def round (m n k : ℕ) : Finset (ℕ × ℕ) × List (ℕ × ℕ) → Round (Finset (ℕ × ℕ) × List (ℕ × ℕ)) ℕ
  | (res, []) => .leave res.card
  | (res, (x, y) :: queue) =>
    if (x, y) ∉ res ∧ (0 ≤ x ∧ x < m) ∧ (0 ≤ y ∧ y < n) ∧ digitsum x + digitsum y ≤ k then
      .again (insert (x, y) res, queue ++ [(x + 1, y), (x, y + 1)])
    else .again (res, queue)

def movingCount (m n k fuel : ℕ) : Option ℕ := if k = 0 then some 1 else loop (round m n k) fuel (∅, [(0, 0)])

/-! ## The sum of the digits -/

def digitSum (n : ℕ) : ℕ := (Nat.digits 10 n).sum

variable {m n k i j q r : ℕ}

@[simp] theorem digitSum_zero : digitSum 0 = 0 := by rw [digitSum, Nat.digits_zero, List.sum_nil]

/-- The last digit. -/
theorem digitSum_add (q : ℕ) (hr : r ≤ 9) : digitSum (10 * q + r) = digitSum q + r := by
  by_cases hzero : r ≠ 0 ∨ q ≠ 0
  · unfold digitSum
    rw [Nat.add_comm, Nat.digits_add 10 (by decide) r q (by omega) hzero, List.sum_cons, Nat.add_comm]
  · obtain ⟨rfl, rfl⟩ : r = 0 ∧ q = 0 := by omega
    rfl

@[simp] theorem digitSum_mul (q : ℕ) : digitSum (10 * q) = digitSum q := digitSum_add q (Nat.zero_le 9)

theorem digitSum_succ_le (n : ℕ) : digitSum (n + 1) ≤ digitSum n + 1 := by
  induction n using Nat.strong_induction_on with
  | _ n ih =>
    obtain ⟨q, r, hr, rfl⟩ : ∃ q r, r ≤ 9 ∧ n = 10 * q + r := ⟨n / 10, n % 10, by omega, by omega⟩
    rcases Nat.lt_or_ge r 9 with hlt | hge
    · rw [Nat.add_assoc, digitSum_add q hlt, digitSum_add q hr, Nat.add_assoc]
    · obtain rfl : r = 9 := Nat.le_antisymm hr hge
      have hnext : 10 * q + 9 + 1 = 10 * (q + 1) := by omega
      have hle := ih q (by omega)
      rw [hnext, digitSum_mul, digitSum_add q hr]
      omega

theorem eq_zero_of_digitSum {n : ℕ} (h : digitSum n = 0) : n = 0 := by
  induction n using Nat.strong_induction_on with
  | _ n ih =>
    obtain ⟨q, r, hr, rfl⟩ : ∃ q r, r ≤ 9 ∧ n = 10 * q + r := ⟨n / 10, n % 10, by omega, by omega⟩
    rw [digitSum_add q hr] at h
    by_contra hne
    exact hne (by rw [ih q (by omega) (by omega)]; omega)

theorem digitsumFrom_eq (sum num : ℕ) : digitsumFrom sum num = sum + digitSum num := by
  induction sum, num using digitsumFrom.induct with
  | case1 sum num hnum ih =>
    have hsplit := digitSum_add (num / 10) (show num % 10 ≤ 9 by omega)
    rw [Nat.div_add_mod] at hsplit
    rw [digitsumFrom, if_pos hnum, ih, hsplit]
    omega
  | case2 sum num hnum =>
    have hsplit := digitSum_add 0 (Nat.not_lt.1 hnum)
    rw [Nat.mul_zero, Nat.zero_add, digitSum_zero, Nat.zero_add] at hsplit
    rw [digitsumFrom, if_neg hnum, hsplit]

theorem digitsum_eq (num : ℕ) : digitsum num = digitSum num := (digitsumFrom_eq 0 num).trans (Nat.zero_add _)

/-! ## Right and down -/

/-- The cells that are reached from the first one by going right and down, in a grid without an end. -/
inductive Reached (k : ℕ) : ℕ → ℕ → Prop
  | start : Reached k 0 0
  | down {i j : ℕ} : Reached k i j → digitSum (i + 1) + digitSum j ≤ k → Reached k (i + 1) j
  | right {i j : ℕ} : Reached k i j → digitSum i + digitSum (j + 1) ≤ k → Reached k i (j + 1)

namespace Reached

theorem le (h : Reached k i j) : digitSum i + digitSum j ≤ k := by
  cases h with
  | start => exact Nat.zero_le k
  | down _ hle => exact hle
  | right _ hle => exact hle

theorem symm (h : Reached k i j) : Reached k j i := by
  induction h with
  | start => exact .start
  | down _ hle ih => exact .right ih (by rwa [Nat.add_comm])
  | right _ hle ih => exact .down ih (by rwa [Nat.add_comm])

/-- Down inside a block. -/
theorem down_to (h : Reached k (10 * q) j) (hr : r ≤ 9) (hle : digitSum q + r + digitSum j ≤ k) :
    Reached k (10 * q + r) j := by
  induction r with
  | zero => exact h
  | succ r ih =>
    have hnext : digitSum (10 * q + r + 1) + digitSum j ≤ k := by rwa [Nat.add_assoc, digitSum_add q hr]
    exact .down (ih (Nat.le_of_succ_le hr) (by omega)) hnext

/-- From its first corner all cells of a block are reached. -/
theorem of_corner {b : ℕ} (h : Reached k (10 * i) (10 * j)) (hr : r ≤ 9) (hb : b ≤ 9)
    (hle : digitSum i + r + (digitSum j + b) ≤ k) : Reached k (10 * i + r) (10 * j + b) := by
  have hdown : Reached k (10 * i + r) (10 * j) := h.down_to hr (by rw [digitSum_mul]; omega)
  exact (hdown.symm.down_to hb (by rw [digitSum_add i hr]; omega)).symm

/-- Into the next block, from its corner to the next one. -/
theorem next_corner (h : Reached k (10 * i) (10 * j)) (hle : digitSum i + digitSum j + 9 ≤ k) :
    Reached k (10 * (i + 1)) (10 * j) := by
  have hlast : Reached k (10 * i + 9) (10 * j) := h.down_to le_rfl (by rw [digitSum_mul]; omega)
  have hnext : 10 * (i + 1) = 10 * i + 9 + 1 := by omega
  have hsucc := digitSum_succ_le i
  rw [hnext]
  refine .down hlast ?_
  rw [← hnext, digitSum_mul, digitSum_mul]
  omega

theorem corner_down (h : Reached k i j) (ih : Reached k (10 * (i / 10)) (10 * (j / 10))) :
    Reached k (10 * ((i + 1) / 10)) (10 * (j / 10)) := by
  by_cases hsame : (i + 1) / 10 = i / 10
  · rwa [hsame]
  · -- the last cell of a block in its column: its digits show that the next corner is allowed
    have hi : i = 10 * (i / 10) + 9 := by omega
    have hj : j = 10 * (j / 10) + j % 10 := by omega
    have hsum := h.le
    rw [hi, digitSum_add _ le_rfl, hj, digitSum_add _ (by omega)] at hsum
    have hnext : (i + 1) / 10 = i / 10 + 1 := by omega
    rw [hnext]
    exact ih.next_corner (by omega)

/-- If a cell is reached, so is the first corner of its block. -/
theorem corner (h : Reached k i j) : Reached k (10 * (i / 10)) (10 * (j / 10)) := by
  induction h with
  | start => exact .start
  | down h _ ih => exact corner_down h ih
  | right h _ ih => exact (corner_down h.symm ih.symm).symm

/-- How the first corner of a block is reached. -/
theorem corner_cases (h : Reached k (10 * i) (10 * j)) : (i = 0 ∧ j = 0) ∨
    (∃ i', i = i' + 1 ∧ Reached k (10 * i') (10 * j) ∧ digitSum i' + digitSum j + 9 ≤ k) ∨
    ∃ j', j = j' + 1 ∧ Reached k (10 * i) (10 * j') ∧ digitSum i + digitSum j' + 9 ≤ k := by
  have hdown : ∀ {i j x : ℕ}, Reached k x (10 * j) → x + 1 = 10 * i →
      ∃ i', i = i' + 1 ∧ Reached k (10 * i') (10 * j) ∧ digitSum i' + digitSum j + 9 ≤ k := by
    intro i j x hx heq
    obtain ⟨i', rfl⟩ : ∃ i', i = i' + 1 := ⟨i - 1, by omega⟩
    obtain rfl : x = 10 * i' + 9 := by omega
    have hsum := hx.le
    have hcorner := hx.corner
    rw [digitSum_add _ le_rfl, digitSum_mul] at hsum
    rw [show (10 * i' + 9) / 10 = i' by omega, show 10 * j / 10 = j by omega] at hcorner
    exact ⟨i', rfl, hcorner, by omega⟩
  generalize hx : 10 * i = x at h
  generalize hy : 10 * j = y at h
  cases h with
  | start => exact Or.inl ⟨by omega, by omega⟩
  | down h _ =>
    subst hy
    exact Or.inr (Or.inl (hdown h hx.symm))
  | right h _ =>
    subst hx
    obtain ⟨j', rfl, hj', hsum⟩ := hdown h.symm hy.symm
    exact Or.inr (Or.inr ⟨j', rfl, hj'.symm, by omega⟩)

end Reached

/-- The blocks are reached as the cells are with a bound that is less by 9. -/
theorem reached_blocks (hle : digitSum i + digitSum j ≤ k) : Reached (k + 9) (10 * i) (10 * j) ↔ Reached k i j := by
  constructor
  · intro h
    induction hsum : i + j using Nat.strong_induction_on generalizing i j with
    | _ s ih =>
      rcases h.corner_cases with ⟨rfl, rfl⟩ | ⟨i', rfl, h', hle'⟩ | ⟨j', rfl, h', hle'⟩
      · exact .start
      · exact .down (ih (i' + j) (by omega) (by omega) h' rfl) hle
      · exact .right (ih (i + j') (by omega) (by omega) h' rfl) hle
  · intro h
    induction h with
    | start => exact .start
    | down h _ ih => exact (ih h.le).next_corner (Nat.add_le_add_right h.le 9)
    | right h _ ih =>
      have hcorner := (ih h.le).symm.next_corner
      exact (hcorner (by have := h.le; omega)).symm

/-- No cell is missed for going neither up nor left: a neighbour that is allowed is reached as well. -/
theorem Reached.up (h : Reached k (i + 1) j) (hle : digitSum i + digitSum j ≤ k) : Reached k i j := by
  induction k using Nat.strong_induction_on generalizing i j with
  | _ k ih =>
    obtain ⟨q, r, hr, rfl⟩ : ∃ q r, r ≤ 9 ∧ i = 10 * q + r := ⟨i / 10, i % 10, by omega, by omega⟩
    obtain ⟨p, b, hb, rfl⟩ : ∃ p b, b ≤ 9 ∧ j = 10 * p + b := ⟨j / 10, j % 10, by omega, by omega⟩
    rw [digitSum_add q hr, digitSum_add p hb] at hle
    have hcorner := h.corner
    rw [show (10 * p + b) / 10 = p by omega] at hcorner
    refine Reached.of_corner ?_ hr hb hle
    rcases Nat.lt_or_ge r 9 with hlt | hge
    · rwa [show (10 * q + r + 1) / 10 = q by omega] at hcorner
    · -- the two cells are in different blocks
      obtain rfl : r = 9 := Nat.le_antisymm hr hge
      rw [show (10 * q + 9 + 1) / 10 = q + 1 by omega] at hcorner
      obtain ⟨k, rfl⟩ : ∃ k', k = k' + 9 := ⟨k - 9, by omega⟩
      -- the lower block is entered from the upper one, or from the left; then so is the upper one, by the same fact
      -- for the blocks, where the bound is less
      rcases hcorner.corner_cases with ⟨hzero, -⟩ | ⟨q', heq, hq', -⟩ | ⟨p', rfl, hp', hsum⟩
      · exact absurd hzero (Nat.succ_ne_zero q)
      · obtain rfl := Nat.succ.inj heq
        exact hq'
      · rw [reached_blocks (by omega)] at hp'
        rw [reached_blocks (by omega)]
        by_cases hnext : digitSum (q + 1) + digitSum (p' + 1) ≤ k
        · exact ih k (by omega) (.right hp' hnext) (by omega)
        · have hsucc := digitSum_succ_le p'
          exact .right (ih k (by omega) hp' (by omega)) (by omega)

theorem Reached.left (h : Reached k i (j + 1)) (hle : digitSum i + digitSum j ≤ k) : Reached k i j :=
  (h.symm.up (by rwa [Nat.add_comm])).symm

/-! ## The search -/

/-- The cells of the grid whose digits have a sum of at most `k`. -/
def allowed (m n k : ℕ) : Set (ℕ × ℕ) := {p | p.1 < m ∧ p.2 < n ∧ digitSum p.1 + digitSum p.2 ≤ k}

/-- One step to the right or down. -/
def Steps (p q : ℕ × ℕ) : Prop := q = (p.1 + 1, p.2) ∨ q = (p.1, p.2 + 1)

/-- The cells share a side. -/
def Adjacent (p q : ℕ × ℕ) : Prop := Steps p q ∨ Steps q p

theorem allowed_finite (m n k : ℕ) : (allowed m n k).Finite :=
  (Finset.range m ×ˢ Finset.range n).finite_toSet.subset fun _ hp =>
    Finset.mem_coe.2 (Finset.mem_product.2 ⟨Finset.mem_range.2 hp.1, Finset.mem_range.2 hp.2.1⟩)

/-- The way to a cell of the grid does not leave it. -/
theorem Reached.reach (h : Reached k i j) (hi : i < m) (hj : j < n) : Reach Steps (allowed m n k) {(0, 0)} (i, j) := by
  induction h with
  | start => exact Reach.start rfl ⟨hi, hj, Nat.zero_le k⟩
  | down _ hle ih => exact (ih (Nat.lt_of_succ_lt hi) hj).edge ⟨hi, hj, hle⟩ (Or.inl rfl)
  | right _ hle ih => exact (ih hi (Nat.lt_of_succ_lt hj)).edge ⟨hi, hj, hle⟩ (Or.inr rfl)

theorem reach_steps_iff {p : ℕ × ℕ} :
    Reach Steps (allowed m n k) {(0, 0)} p ↔ p ∈ allowed m n k ∧ Reached k p.1 p.2 := by
  constructor
  · rintro ⟨_, rfl, hstart, hpath⟩
    induction hpath with
    | refl => exact ⟨hstart, .start⟩
    | tail _ hlast ih =>
      obtain ⟨-, hmem, hstep⟩ := hlast
      refine ⟨hmem, ?_⟩
      rcases hstep with rfl | rfl
      · exact .down ih.2 hmem.2.2
      · exact .right ih.2 hmem.2.2
  · exact fun h => h.2.reach h.1.1 h.1.2.1

/-- What is reached in all directions is reached by going right and down. -/
theorem reach_adjacent_iff {p : ℕ × ℕ} :
    Reach Adjacent (allowed m n k) {(0, 0)} p ↔ Reach Steps (allowed m n k) {(0, 0)} p := by
  constructor
  · rw [reach_steps_iff]
    rintro ⟨_, rfl, hstart, hpath⟩
    induction hpath with
    | refl => exact ⟨hstart, .start⟩
    | @tail p q _ hlast ih =>
      obtain ⟨-, hmem, hadj⟩ := hlast
      refine ⟨hmem, ?_⟩
      obtain ⟨x, y⟩ := p
      obtain ⟨x', y'⟩ := q
      rcases hadj with (heq | heq) | (heq | heq) <;> cases heq
      · exact .down ih.2 hmem.2.2
      · exact .right ih.2 hmem.2.2
      · exact ih.2.up hmem.2.2
      · exact ih.2.left hmem.2.2
  · rintro ⟨q, hq, hmem, hpath⟩
    exact ⟨q, hq, hmem, Relation.ReflTransGen.mono (fun _ _ hab => ⟨hab.1, hab.2.1, Or.inl hab.2.2⟩) _ _ hpath⟩

/-- The cells of the queue that are allowed and new are still to be looked at. -/
structure Searching (m n k : ℕ) (s : Finset (ℕ × ℕ) × List (ℕ × ℕ)) : Prop where
  sub : ∀ p ∈ s.1, p ∈ allowed m n k
  flooding : Flooding Steps (allowed m n k) {(0, 0)} (allowed m n k \ s.1) {p | p ∈ s.2 ∧ p ∈ allowed m n k \ s.1}

theorem searching_start (m n k : ℕ) : Searching m n k (∅, [(0, 0)]) where
  sub _ hp := absurd hp (Finset.notMem_empty _)
  flooding := by
    simp only [Finset.coe_empty, Set.sdiff_empty]
    exact Flooding.init fun p => by simp

variable {res : Finset (ℕ × ℕ)} {p : ℕ × ℕ} {queue : List (ℕ × ℕ)}

theorem sdiff_insert (U : Set (ℕ × ℕ)) (res : Finset (ℕ × ℕ)) (p : ℕ × ℕ) :
    U \ ↑(insert p res) = (U \ ↑res) \ {p} := by
  ext q
  simp only [Set.mem_sdiff, Finset.coe_insert, Set.mem_insert_iff, Set.mem_singleton_iff]
  tauto

/-- A new cell is taken. -/
theorem Searching.take (h : Searching m n k (res, p :: queue)) (hp : p ∈ allowed m n k) (hnew : p ∉ res) :
    Searching m n k (insert p res, queue ++ [(p.1 + 1, p.2), (p.1, p.2 + 1)]) := by
  have hqueue : ∀ q, q ∈ queue ++ [(p.1 + 1, p.2), (p.1, p.2 + 1)] ↔ q ∈ queue ∨ Steps p q := by simp [Steps]
  have hflooding := h.flooding
  refine ⟨fun q hq => ?_, ?_⟩
  · rcases Finset.mem_insert.1 hq with rfl | hq
    · exact hp
    · exact h.sub q hq
  · simp only [hqueue, sdiff_insert]
    refine hflooding.look ⟨List.mem_cons_self, hp, hnew⟩ ?_ ?_ ?_
    · rintro q ⟨hq, hallowed⟩
      by_cases hqp : q = p
      · exact Or.inl hqp
      · exact Or.inr ⟨Or.inl ((List.mem_cons.1 hq).resolve_left hqp), hallowed, hqp⟩
    · rintro q ⟨hq, hallowed, -⟩
      rcases hq with hq | hq
      · exact Or.inl ⟨List.mem_cons_of_mem p hq, hallowed⟩
      · exact Or.inr ⟨hallowed, hq⟩
    · exact fun q hq hqp hstep => ⟨Or.inr hstep, hq, hqp⟩

/-- Another cell is passed over. -/
theorem Searching.skip (h : Searching m n k (res, p :: queue)) (hp : ¬ (p ∈ allowed m n k ∧ p ∉ res)) :
    Searching m n k (res, queue) := by
  have hset : {q | q ∈ queue ∧ q ∈ allowed m n k \ ↑res} = {q | q ∈ p :: queue ∧ q ∈ allowed m n k \ ↑res} := by
    ext q
    refine and_congr_left fun hq => ⟨List.mem_cons_of_mem p, fun hmem => ?_⟩
    rcases List.mem_cons.1 hmem with rfl | hmem
    · exact absurd hq hp
    · exact hmem
  exact ⟨h.sub, hset ▸ h.flooding⟩

/-- When the queue is empty, the cells that have been taken are those that are reached. -/
theorem Searching.card_eq (h : Searching m n k (res, [])) :
    res.card = {p | Reach Steps (allowed m n k) {(0, 0)} p}.ncard := by
  have hflood : Flood Steps (allowed m n k) {(0, 0)} (allowed m n k \ res) := by
    have hempty : {p | p ∈ ([] : List (ℕ × ℕ)) ∧ p ∈ allowed m n k \ ↑res} = ∅ := by simp
    unfold Flood
    rw [← hempty]
    exact h.flooding
  have hset : {p | Reach Steps (allowed m n k) {(0, 0)} p} = ↑res := by
    ext p
    rw [Set.mem_ofPred_eq, ← hflood.mem_iff p, Finset.mem_coe]
    constructor
    · rintro ⟨hp, hnot⟩
      by_contra hres
      exact hnot ⟨hp, hres⟩
    · exact fun hp => ⟨h.sub p hp, fun hnot => hnot.2 hp⟩
  rw [hset, Set.ncard_coe_finset]

/-- A cell that is taken puts two into the queue, but there is one less to be taken. -/
noncomputable def remaining (m n k : ℕ) (s : Finset (ℕ × ℕ) × List (ℕ × ℕ)) : ℕ :=
  3 * (allowed m n k \ ↑s.1).ncard + s.2.length

theorem Searching.round {s : Finset (ℕ × ℕ) × List (ℕ × ℕ)} (h : Searching m n k s) :
    (∃ s', MovingCount.round m n k s = .again s' ∧ Searching m n k s' ∧
      remaining m n k s' < remaining m n k s) ∨
    ∃ r, MovingCount.round m n k s = .leave r ∧ r = {p | Reach Steps (allowed m n k) {(0, 0)} p}.ncard := by
  obtain ⟨res, _ | ⟨p, queue⟩⟩ := s
  · exact Or.inr ⟨res.card, rfl, h.card_eq⟩
  · have htest : (p ∉ res ∧ (0 ≤ p.1 ∧ p.1 < m) ∧ (0 ≤ p.2 ∧ p.2 < n) ∧ digitsum p.1 + digitsum p.2 ≤ k) ↔
        p ∈ allowed m n k ∧ p ∉ res := by
      simp only [digitsum_eq, Nat.zero_le, true_and]
      exact and_comm
    refine Or.inl ?_
    by_cases hp : p ∈ allowed m n k ∧ p ∉ res
    · refine ⟨(insert p res, queue ++ [(p.1 + 1, p.2), (p.1, p.2 + 1)]), if_pos (htest.2 hp), h.take hp.1 hp.2, ?_⟩
      have hfinite : (allowed m n k \ ↑res).Finite := (allowed_finite m n k).subset Set.sdiff_subset
      have hcard := Set.ncard_sdiff_singleton_add_one (s := allowed m n k \ ↑res) hp hfinite
      simp only [remaining, sdiff_insert, List.length_append, List.length_cons, List.length_nil]
      omega
    · refine ⟨(res, queue), if_neg (mt htest.1 hp), h.skip hp, ?_⟩
      simp only [remaining, List.length_cons]
      omega

theorem loop_returns (m n k : ℕ) : Returns (fun fuel => loop (round m n k) fuel (∅, [(0, 0)]))
    {p | Reach Steps (allowed m n k) {(0, 0)} p}.ncard := by
  obtain ⟨r, hr, rfl⟩ := Returns.loop_of_measure (remaining m n k) (I := Searching m n k)
    (P := fun r => r = {p | Reach Steps (allowed m n k) {(0, 0)} p}.ncard) (fun s hs => hs.round)
    (searching_start m n k)
  exact hr

/-! ## The result -/

/-- The result is the number of cells that can be reached by steps in all four directions. -/
theorem movingCount_returns (m n k : ℕ) (hm : 1 ≤ m) (hn : 1 ≤ n) :
    Returns (movingCount m n k) (component Adjacent (allowed m n k) (0, 0)).ncard := by
  have hset : component Adjacent (allowed m n k) (0, 0) = {p | Reach Steps (allowed m n k) {(0, 0)} p} :=
    Set.ext fun p => reach_adjacent_iff
  rw [hset]
  by_cases hk : k = 0
  · have hfirst : {p | Reach Steps (allowed m n k) {(0, 0)} p} = {(0, 0)} := by
      ext p
      refine ⟨fun hp => ?_, ?_⟩
      · have hsum := (reach_steps_iff.1 hp).1.2.2
        exact Prod.ext (eq_zero_of_digitSum (by omega)) (eq_zero_of_digitSum (by omega))
      · rintro rfl
        exact Reach.start rfl ⟨hm, hn, Nat.zero_le k⟩
    have hcall : movingCount m n k = fun _ => some 1 := funext fun _ => if_pos hk
    rw [hcall, hfirst, Set.ncard_singleton]
    exact Returns.pure 1
  · have hcall : movingCount m n k = fun fuel => loop (round m n k) fuel (∅, [(0, 0)]) := funext fun _ => if_neg hk
    rw [hcall]
    exact loop_returns m n k

theorem movingCount_returns_two : Returns (movingCount 2 3 1) (component Adjacent (allowed 2 3 1) (0, 0)).ncard :=
  movingCount_returns 2 3 1 (by decide) (by decide)

end GoodGoodStudy.LeetCode.MovingCount
