/-
The exercise 0,1背包问题: the greatest total value of items whose total weight a knapsack can carry. Cell `(i, j)` of the
table is about the first `i` items and the capacity `j`. The loops do not fill the column of capacity 0, so that what is
left of the capacity must not be 0 where an item is taken, be it without weight.
-/
import Mathlib.Algebra.BigOperators.Group.Finset.Basic
import GoodGoodStudy.Lib.Grid
import GoodGoodStudy.Lib.Knapsack
import GoodGoodStudy.Lib.Table

namespace GoodGoodStudy.LeetCode.Package

open GoodGoodStudy.Lib

variable {n : ℕ} {w : ℕ} {wt val : Vector ℕ n}

/-! ## The table -/

/-- What is computed for the item `i` and the capacity `j + 1`. -/
def best (wt val : Vector ℕ n) (dp : Grid (n + 1) (w + 1) ℕ) : Cell n w → ℕ
  | (i, j) =>
    if j + 1 < wt.get i then dp.get (i.castSucc, j.succ)
    else
      max (dp.get (i.castSucc, j.succ))
        (dp.get (i.castSucc, ⟨j + 1 - wt.get i, Nat.lt_of_le_of_lt (Nat.sub_le _ _) j.succ.isLt⟩) + val.get i)

/-- A round of the inner loop. -/
def fill (wt val : Vector ℕ n) (dp : Grid (n + 1) (w + 1) ℕ) (p : Cell n w) : Grid (n + 1) (w + 1) ℕ :=
  dp.set (p.1.succ, p.2.succ) (best wt val dp p)

def table (w : ℕ) (wt val : Vector ℕ n) : Grid (n + 1) (w + 1) ℕ :=
  (cells n w).foldl (fill wt val) (Grid.replicate (n + 1) (w + 1) 0)

def package (w : ℕ) (wt val : Vector ℕ n) : ℕ := (table w wt val).get (Fin.last n, Fin.last w)

/-- Rows and columns from the second on. -/
def cell (p : Cell n w) : Cell (n + 1) (w + 1) := (p.1.succ, p.2.succ)

theorem cell_injective : Function.Injective (cell : Cell n w → Cell (n + 1) (w + 1)) := by
  intro p q h
  obtain ⟨hi, hj⟩ := Prod.mk.inj h
  exact Prod.ext (Fin.succ_inj.1 hi) (Fin.succ_inj.1 hj)

/-- The loops fill the cells row by row, from the row above. -/
theorem table_get : (∀ p, (table w wt val).get (cell p) = best wt val (table w wt val) p) ∧
    ∀ q, (∀ p, q ≠ cell p) → (table w wt val).get q = 0 := by
  have hw : Writes Grid.get (fill wt val) cell (best (w := w) wt val) := fun dp p q => Grid.get_set dp (cell p) q _
  have hl : (cells n w).Pairwise fun p q => (cell p).1 ≤ (cell q).1 :=
    (pairwise_product_le (List.pairwise_lt_finRange n) _).imp Fin.succ_le_succ_iff.2
  obtain ⟨hnew, hout⟩ := hw.foldl_rows cell_injective hl (fun p _ dp dp' heq => by
    have habove : ∀ j, dp.get (p.1.castSucc, j) = dp'.get (p.1.castSucc, j) := fun j => heq _ Fin.castSucc_lt_succ
    simp only [best, habove]) (Grid.replicate (n + 1) (w + 1) 0)
  exact ⟨fun p => hnew p (mem_cells p), fun q hq => (hout q fun p _ => hq p).trans (Grid.get_replicate 0 q)⟩

/-! ## Its cells are the best choices -/

theorem take_finRange_succ (i : Fin n) : (List.finRange n).take (i + 1) = (List.finRange n).take i ++ [i] := by
  rw [List.take_succ_eq_append_getElem (by simp)]
  simp

theorem isBest_table (wt val : Vector ℕ n) (i : Fin (n + 1)) (j : Fin (w + 1)) :
    IsBest (0 < ·) wt.get val.get ((List.finRange n).take i) (j : ℕ) ((table w wt val).get (i, j)) := by
  induction i using Fin.induction generalizing j with
  | zero =>
    rw [table_get.2 (0, j) fun p hp => Fin.succ_ne_zero p.1 (Prod.mk.inj hp).1.symm]
    exact isBest_nil
  | succ i ih =>
    cases j using Fin.cases with
    | zero =>
      rw [table_get.2 (i.succ, 0) fun p hp => Fin.succ_ne_zero p.2 (Prod.mk.inj hp).2.symm]
      exact isBest_of_not_room (lt_irrefl 0)
    | succ j =>
      rw [Fin.val_succ i, take_finRange_succ]
      rw [show (i.succ, j.succ) = cell (i, j) from rfl, table_get.1, best]
      split_ifs with hj
      · exact (ih j.succ).concat_skip fun h => absurd h.2 (Nat.not_le.2 hj)
      · have htake := ih ⟨j + 1 - wt.get i, Nat.lt_of_le_of_lt (Nat.sub_le _ _) j.succ.isLt⟩
        exact (ih j.succ).concat_take htake (Nat.succ_pos j) (Nat.le_of_not_lt hj)

/-! ## Subsets of the items -/

/-- The items weigh at most `w` together, and no such items have a greater value. -/
def IsOptimum (w : ℕ) (wt val : Vector ℕ n) (s : Finset (Fin n)) : Prop :=
  ∑ i ∈ s, wt.get i ≤ w ∧ ∀ s' : Finset (Fin n), ∑ i ∈ s', wt.get i ≤ w → ∑ i ∈ s', val.get i ≤ ∑ i ∈ s, val.get i

/-- An item without weight is only taken before the capacity is used up; the last item is the first to be taken. -/
def LeavesRoom (w : ℕ) (wt : Vector ℕ n) (s : Finset (Fin n)) : Prop :=
  ∀ i ∈ s, wt.get i = 0 → ∑ j ∈ s with i < j, wt.get j < w

theorem filter_lt_of_split {ts us vs : List (Fin n)} {i : Fin n} (hts : ts.Pairwise (· < ·))
    (hsplit : ts = us ++ i :: vs) : ts.filter (i < ·) = vs := by
  subst hsplit
  obtain ⟨-, hvs, hlt⟩ := List.pairwise_append.1 hts
  rw [List.filter_append, List.filter_cons_of_neg (by simp), List.filter_eq_nil_iff.2, List.nil_append,
    List.filter_eq_self.2]
  · intro j hj
    exact decide_eq_true ((List.pairwise_cons.1 hvs).1 j hj)
  · intro j hj
    exact fun h => (hlt j hj i List.mem_cons_self).asymm (of_decide_eq_true h)

/-- The items of a set, in their order. -/
theorem packs_iff_leavesRoom {ts : List (Fin n)} (hts : ts.Sublist (List.finRange n)) :
    Packs (0 < ·) wt.get ts.reverse w ↔ ∑ i ∈ ts.toFinset, wt.get i ≤ w ∧ LeavesRoom w wt ts.toFinset := by
  have hlt : ts.Pairwise (· < ·) := (List.pairwise_lt_finRange n).sublist hts
  have hnodup : ts.Nodup := (List.nodup_finRange n).sublist hts
  have hbehind : ∀ us i vs, ts = us ++ i :: vs →
      ∑ j ∈ ts.toFinset with i < j, wt.get j = (vs.map wt.get).sum := by
    intro us i vs hsplit
    have hfilter := filter_lt_of_split hlt hsplit
    have hset : {j ∈ ts.toFinset | i < j} = vs.toFinset := by
      rw [← hfilter]
      ext j
      simp
    rw [hset, List.sum_toFinset _ (hfilter ▸ hnodup.filter _)]
  rw [packs_reverse_iff, List.sum_toFinset _ hnodup]
  refine and_congr_right fun hsum => ⟨fun h i hi _ => ?_, fun h us i vs hsplit => ?_⟩
  · obtain ⟨us, vs, hsplit⟩ := List.append_of_mem (List.mem_toFinset.1 hi)
    rw [hbehind us i vs hsplit]
    exact Nat.lt_of_sub_pos (h us i vs hsplit)
  · refine Nat.sub_pos_of_lt ?_
    by_cases hi : wt.get i = 0
    · have hmem : i ∈ ts.toFinset := by simp [hsplit]
      exact hbehind us i vs hsplit ▸ h i hmem hi
    · rw [hsplit, List.map_append, List.map_cons, List.sum_append, List.sum_cons] at hsum
      omega

/-- What is computed is the greatest value of the items that can be taken with something left of the capacity. -/
theorem isGreatest_package (w : ℕ) (wt val : Vector ℕ n) :
    IsGreatest {x | ∃ s : Finset (Fin n), ∑ i ∈ s, wt.get i ≤ w ∧ LeavesRoom w wt s ∧ ∑ i ∈ s, val.get i = x}
      (package w wt val) := by
  have hbest := isBest_table wt val (Fin.last n) (Fin.last w)
  rw [Fin.val_last, Fin.val_last, List.take_of_length_le (by simp)] at hbest
  obtain ⟨⟨ts, hts, hpacks, hsum⟩, hle⟩ := hbest
  constructor
  · obtain ⟨hweight, hroom⟩ := (packs_iff_leavesRoom hts).1 hpacks
    refine ⟨ts.toFinset, hweight, hroom, ?_⟩
    rw [List.sum_toFinset _ ((List.nodup_finRange n).sublist hts), hsum]
    rfl
  · rintro x ⟨s, hweight, hroom, rfl⟩
    have hsub : ((List.finRange n).filter (· ∈ s)).Sublist (List.finRange n) := List.filter_sublist
    have hset : ((List.finRange n).filter (· ∈ s)).toFinset = s := by
      ext i
      simp
    refine hle ⟨_, hsub, (packs_iff_leavesRoom hsub).2 ?_, ?_⟩
    · rw [hset]
      exact ⟨hweight, hroom⟩
    · rw [← List.sum_toFinset _ ((List.nodup_finRange n).sublist hsub), hset]

/-- If every item has some weight, the greatest total value is computed. -/
theorem isGreatest_package_of_pos (w : ℕ) {wt : Vector ℕ n} (hpos : ∀ i, 0 < wt.get i) (val : Vector ℕ n) :
    IsGreatest {x | ∃ s : Finset (Fin n), ∑ i ∈ s, wt.get i ≤ w ∧ ∑ i ∈ s, val.get i = x} (package w wt val) := by
  have hroom : ∀ s, LeavesRoom w wt s := fun s i _ hi => absurd hi (hpos i).ne'
  have hgreatest := isGreatest_package w wt val
  simpa only [hroom, true_and] using hgreatest

/-- The greatest total value is computed if and only if it is the value of some items that can be taken so. -/
theorem package_iff (w : ℕ) (wt val : Vector ℕ n) :
    IsGreatest {x | ∃ s : Finset (Fin n), ∑ i ∈ s, wt.get i ≤ w ∧ ∑ i ∈ s, val.get i = x} (package w wt val) ↔
      ∃ s : Finset (Fin n), IsOptimum w wt val s ∧ LeavesRoom w wt s := by
  obtain ⟨⟨s, hweight, hroom, hsum⟩, hle⟩ := isGreatest_package w wt val
  constructor
  · rintro ⟨-, hgreatest⟩
    exact ⟨s, ⟨hweight, fun s' hs' => hsum ▸ hgreatest ⟨s', hs', rfl⟩⟩, hroom⟩
  · rintro ⟨s', ⟨hweight', hopt⟩, hroom'⟩
    refine ⟨⟨s, hweight, hsum⟩, ?_⟩
    rintro x ⟨t, ht, rfl⟩
    exact (hopt t ht).trans (hle ⟨s', hweight', hroom', rfl⟩)

/-- With no capacity an item without weight is left behind. -/
theorem package_weightless : ¬ IsGreatest {x | ∃ s : Finset (Fin 1), ∑ i ∈ s, #v[0].get i ≤ 0 ∧
    ∑ i ∈ s, #v[5].get i = x} (package 0 #v[0] #v[5]) := by
  intro h
  have hle : 5 ≤ package 0 #v[0] #v[5] := h.2 ⟨{0}, by decide, by decide⟩
  exact absurd hle (by decide)

end GoodGoodStudy.LeetCode.Package
