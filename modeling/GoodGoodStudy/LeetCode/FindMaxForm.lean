/-
The three functions of the exercise 474, for the greatest number of strings with at most `m` zeros and `n` ones
together. Two of them rewrite one table for every string, from the last cell to the first; the other one fills a table
for every number of strings from the table before it.
-/
import Mathlib.Algebra.GroupWithZero.Nat
import Mathlib.Algebra.Order.Monoid.Prod
import Mathlib.Algebra.Order.Sub.Prod
import GoodGoodStudy.Lib.Grid
import GoodGoodStudy.Lib.Knapsack
import GoodGoodStudy.Lib.Table

namespace GoodGoodStudy.LeetCode.FindMaxForm

open GoodGoodStudy.Lib

variable {m n : ℕ}

/-! ## The three functions -/

/-- The number of zeros and of ones. -/
def count (s : String) : ℕ × ℕ := (s.toList.countP (· == '0'), s.toList.countP (· == '1'))

/-- `dp[x - z][y - o]` -/
def before (dp : Grid (m + 1) (n + 1) ℕ) (zo : ℕ × ℕ) (p : Cell (m + 1) (n + 1)) : ℕ :=
  dp.get (⟨p.1 - zo.1, Nat.lt_of_le_of_lt (Nat.sub_le _ _) p.1.isLt⟩,
    ⟨p.2 - zo.2, Nat.lt_of_le_of_lt (Nat.sub_le _ _) p.2.isLt⟩)

/-- `x >= z and y >= o` -/
abbrev Fits (zo : ℕ × ℕ) (p : Cell (m + 1) (n + 1)) : Prop := zo.1 ≤ p.1 ∧ zo.2 ≤ p.2

/-- `range(m, z - 1, -1)` -/
def descending (m z : ℕ) : List (Fin (m + 1)) := (List.finRange (m + 1)).reverse.filter fun x => z ≤ x

/-- What the inner loops do with one string. -/
def update (dp : Grid (m + 1) (n + 1) ℕ) (zo : ℕ × ℕ) : Grid (m + 1) (n + 1) ℕ :=
  (descending m 0 ×ˢ descending n 0).foldl
    (fun dp p => if Fits zo p then dp.set p (max (1 + before dp zo p) (dp.get p)) else dp) dp

def findMaxForm (strs : List String) (m n : ℕ) : ℕ :=
  let dp := (strs.map count).foldl update (Grid.replicate (m + 1) (n + 1) 0)
  dp.get (Fin.last m, Fin.last n)

/-- What the inner loops do with one string; they end before the cells that it does not fit in. -/
def update3 (dp : Grid (m + 1) (n + 1) ℕ) (zo : ℕ × ℕ) : Grid (m + 1) (n + 1) ℕ :=
  (descending m zo.1 ×ˢ descending n zo.2).foldl
    (fun dp p => dp.set p (max (dp.get p) (1 + before dp zo p))) dp

def findMaxForm3 (strs : List String) (m n : ℕ) : ℕ :=
  if strs.length = 0 then 0
  else
    let dp := strs.foldl (fun dp s => update3 dp (count s)) (Grid.replicate (m + 1) (n + 1) 0)
    dp.get (Fin.last m, Fin.last n)

/-- One table for every number of strings. -/
abbrev Tables (l m n : ℕ) := Vector (Grid (m + 1) (n + 1) ℕ) (l + 1)

/-- A table and a cell of it. -/
abbrev Place (l m n : ℕ) := Fin (l + 1) × Cell (m + 1) (n + 1)

variable {l : ℕ}

def Tables.at (dp : Tables l m n) (q : Place l m n) : ℕ := dp[q.1].get q.2

def Tables.put (dp : Tables l m n) (q : Place l m n) (a : ℕ) : Tables l m n :=
  dp.set q.1 (dp[q.1].set q.2 a)

/-- What is computed for the string `i`. -/
def choose (strs : List String) (dp : Tables strs.length m n) : Fin strs.length × Cell (m + 1) (n + 1) → ℕ
  | (i, p) =>
    let zo := count (strs.get i)
    if Fits zo p then max (dp.at (i.castSucc, p)) (before dp[i.castSucc] zo p + 1)
    else dp.at (i.castSucc, p)

def tables (strs : List String) (m n : ℕ) : Tables strs.length m n :=
  (List.finRange strs.length ×ˢ cells (m + 1) (n + 1)).foldl
    (fun dp k => dp.put (k.1.succ, k.2) (choose strs dp k))
    (Vector.replicate (strs.length + 1) (Grid.replicate (m + 1) (n + 1) 0))

def findMaxForm1 (strs : List String) (m n : ℕ) : ℕ :=
  (tables strs m n).at (Fin.last strs.length, Fin.last m, Fin.last n)

/-! ## One string more -/

theorem mem_descending {m z : ℕ} {x : Fin (m + 1)} : x ∈ descending m z ↔ z ≤ x := by
  simp [descending]

theorem pairwise_descending {m z : ℕ} : (descending m z).Pairwise (· > ·) :=
  (List.pairwise_reverse.2 (List.pairwise_lt_finRange (m + 1))).filter _

/-- What the table holds in the cell behind the string. -/
def updated (zo : ℕ × ℕ) (dp : Grid (m + 1) (n + 1) ℕ) (p : Cell (m + 1) (n + 1)) : ℕ :=
  if Fits zo p then max (1 + before dp zo p) (dp.get p) else dp.get p

/-- From the last cell to the first, no cell is computed from one that holds the string already. -/
theorem updated_congr (zo : ℕ × ℕ) (p : Cell (m + 1) (n + 1)) {dp dp' : Grid (m + 1) (n + 1) ℕ}
    (heq : ∀ q, ¬ Prod.Lex (· > ·) (· > ·) q p → dp.get q = dp'.get q) :
    before dp zo p = before dp' zo p ∧ dp.get p = dp'.get p := by
  constructor
  · refine heq _ fun h => ?_
    rcases Prod.lex_def.1 h with h | ⟨-, h⟩
    · exact absurd (Fin.lt_def.1 h) (Nat.not_lt.2 (Nat.sub_le _ _))
    · exact absurd (Fin.lt_def.1 h) (Nat.not_lt.2 (Nat.sub_le _ _))
  · refine heq p fun h => ?_
    rcases Prod.lex_def.1 h with h | ⟨-, h⟩
    · exact lt_irrefl _ h
    · exact lt_irrefl _ h

theorem update_get (zo : ℕ × ℕ) (dp : Grid (m + 1) (n + 1) ℕ) (p : Cell (m + 1) (n + 1)) :
    (update dp zo).get p = updated zo dp p := by
  have hw : Writes Grid.get (fun dp p => if Fits zo p then dp.set p (max (1 + before dp zo p) (dp.get p)) else dp) id
      (updated (m := m) (n := n) zo) := by
    intro dp p q
    show (if Fits zo p then dp.set p _ else dp).get q = if q = p then updated zo dp p else dp.get q
    unfold updated
    by_cases hp : Fits zo p
    · rw [if_pos hp, if_pos hp, Grid.get_set]
    · rw [if_neg hp, if_neg hp]
      by_cases hq : q = p
      · rw [if_pos hq, hq]
      · rw [if_neg hq]
  have hl : (descending m 0 ×ˢ descending n 0).Pairwise fun p q => Prod.Lex (· > ·) (· > ·) (id p) (id q) :=
    pairwise_product pairwise_descending pairwise_descending
  refine (hw.foldl_old Function.injective_id hl (fun p _ dp dp' heq => ?_) dp).1 p ?_
  · obtain ⟨hbefore, hget⟩ := updated_congr zo p heq
    simp only [updated, hbefore, hget]
  · exact List.mem_product.2 ⟨mem_descending.2 (Nat.zero_le _), mem_descending.2 (Nat.zero_le _)⟩

theorem update3_get (zo : ℕ × ℕ) (dp : Grid (m + 1) (n + 1) ℕ) (p : Cell (m + 1) (n + 1)) :
    (update3 dp zo).get p = updated zo dp p := by
  have hw : Writes Grid.get (fun dp p => dp.set p (max (dp.get p) (1 + before dp zo p))) id
      fun (dp : Grid (m + 1) (n + 1) ℕ) p => max (dp.get p) (1 + before dp zo p) :=
    fun dp p q => Grid.get_set dp p q _
  have hl : (descending m zo.1 ×ˢ descending n zo.2).Pairwise fun p q => Prod.Lex (· > ·) (· > ·) (id p) (id q) :=
    pairwise_product pairwise_descending pairwise_descending
  obtain ⟨hold, hout⟩ := hw.foldl_old Function.injective_id hl (fun p _ dp dp' heq => by
    obtain ⟨hbefore, hget⟩ := updated_congr zo p heq
    simp only [hbefore, hget]) dp
  unfold updated
  split_ifs with hp
  · rw [max_comm]
    exact hold p (List.mem_product.2 ⟨mem_descending.2 hp.1, mem_descending.2 hp.2⟩)
  · refine hout p fun q hq heq => hp ?_
    obtain ⟨h₁, h₂⟩ := List.mem_product.1 hq
    rw [heq]
    exact ⟨mem_descending.1 h₁, mem_descending.1 h₂⟩

theorem Tables.at_put (dp : Tables l m n) (q q' : Place l m n) (a : ℕ) :
    (dp.put q a).at q' = if q' = q then a else dp.at q' := by
  obtain ⟨i, p⟩ := q
  obtain ⟨i', p'⟩ := q'
  unfold Tables.at Tables.put
  by_cases hi : i' = i
  · subst hi
    simp [Grid.get_set]
  · have hne : (i : ℕ) ≠ i' := fun he => hi (Fin.ext he.symm)
    simp [hi, hne]

/-- The tables are filled one after the other. -/
theorem tables_at (strs : List String) :
    (∀ i p, (tables strs m n).at (i.succ, p) = choose strs (tables strs m n) (i, p)) ∧
      ∀ p, (tables strs m n).at (0, p) = 0 := by
  have hw : Writes Tables.at (fun dp k => dp.put (k.1.succ, k.2) (choose strs dp k)) (fun k => (k.1.succ, k.2))
      (choose (m := m) (n := n) strs) := fun dp k q => Tables.at_put dp _ q _
  have hcell : Function.Injective
      fun k : Fin strs.length × Cell (m + 1) (n + 1) => ((k.1.succ, k.2) : Place _ m n) := by
    intro k k' h
    obtain ⟨hi, hp⟩ := Prod.mk.inj h
    exact Prod.ext (Fin.succ_inj.1 hi) hp
  have hl : (List.finRange strs.length ×ˢ cells (m + 1) (n + 1)).Pairwise fun k k' => k.1.succ ≤ k'.1.succ :=
    (pairwise_product_le (List.pairwise_lt_finRange _) _).imp Fin.succ_le_succ_iff.2
  obtain ⟨hnew, hout⟩ := hw.foldl_rows hcell hl (fun k _ dp dp' heq => by
    have hbefore : ∀ p, dp[k.1.castSucc].get p = dp'[k.1.castSucc].get p :=
      fun p => heq (k.1.castSucc, p) Fin.castSucc_lt_succ
    simp only [choose, before, Tables.at, hbefore])
    (Vector.replicate (strs.length + 1) (Grid.replicate (m + 1) (n + 1) 0))
  refine ⟨fun i p => hnew (i, p) (List.mem_product.2 ⟨List.mem_finRange i, mem_cells p⟩), fun p => ?_⟩
  rw [tables, hout (0, p) fun k _ h => Fin.succ_ne_zero k.1 (Prod.mk.inj h).1.symm]
  simp [Tables.at]

/-! ## The greatest number of strings -/

/-- The cells hold the greatest number of these strings. -/
def Best (strs : List String) (dp : Cell (m + 1) (n + 1) → ℕ) : Prop :=
  ∀ p, IsBest (fun _ => True) count (fun _ => 1) strs ((p.1 : ℕ), (p.2 : ℕ)) (dp p)

theorem best_nil : Best [] fun _ : Cell (m + 1) (n + 1) => 0 := fun _ => isBest_nil

theorem Best.concat {strs : List String} {dp : Grid (m + 1) (n + 1) ℕ} (h : Best strs dp.get) (s : String) :
    Best (strs ++ [s]) (updated (count s) dp) := by
  intro p
  unfold updated
  split_ifs with hp
  · have htake := h (⟨p.1 - (count s).1, Nat.lt_of_le_of_lt (Nat.sub_le _ _) p.1.isLt⟩,
      ⟨p.2 - (count s).2, Nat.lt_of_le_of_lt (Nat.sub_le _ _) p.2.isLt⟩)
    rw [max_comm, Nat.add_comm 1]
    exact (h p).concat_take htake trivial hp
  · exact (h p).concat_skip fun hfits => hp hfits.2

/-- A table that is rewritten for every string. -/
theorem best_foldl {update : Grid (m + 1) (n + 1) ℕ → ℕ × ℕ → Grid (m + 1) (n + 1) ℕ}
    (hupdate : ∀ zo dp p, (update dp zo).get p = updated zo dp p) (strs : List String) :
    Best strs (strs.foldl (fun dp s => update dp (count s)) (Grid.replicate (m + 1) (n + 1) 0)).get := by
  refine foldl_mem (P := fun pre (dp : Grid (m + 1) (n + 1) ℕ) => Best pre dp.get) strs (fun pre s _ dp h => ?_) []
    fun p => ?_
  · rw [funext (hupdate (count s) dp)]
    exact h.concat s
  · rw [Grid.get_replicate]
    exact isBest_nil

theorem best_tables (strs : List String) (i : Fin (strs.length + 1)) :
    Best (strs.take i) fun p => (tables strs m n).at (i, p) := by
  induction i using Fin.induction with
  | zero =>
    rw [funext (tables_at strs).2]
    exact best_nil
  | succ i ih =>
    have hupdated : ∀ p, (tables strs m n).at (i.succ, p) =
        updated (count (strs.get i)) (tables strs m n)[i.castSucc] p := by
      intro p
      rw [(tables_at strs).1, choose, updated, max_comm, Nat.add_comm 1]
      rfl
    have htake : strs.take (i + 1) = strs.take i ++ [strs.get i] := List.take_succ_eq_append_getElem i.isLt
    have habove : Best (strs.take i) ((tables strs m n)[i.castSucc]).get := ih
    rw [funext hupdated, Fin.val_succ, htake]
    exact habove.concat (strs.get i)

/-- All zeros and all ones of the strings. -/
def total (c : Char) (strs : List String) : ℕ := (strs.flatMap String.toList).count c

/-- The sizes of the sub-collections that the numbers of zeros and ones allow. -/
def sizes (strs : List String) (m n : ℕ) : Set ℕ :=
  {k | ∃ ts : List String, ts.Sublist strs ∧ total '0' ts ≤ m ∧ total '1' ts ≤ n ∧ ts.length = k}

theorem sum_count (ts : List String) : (ts.map count).sum = (total '0' ts, total '1' ts) := by
  induction ts with
  | nil => rfl
  | cons s ts ih => rw [List.map_cons, List.sum_cons, ih]; simp [total, count, List.count]

theorem isBest_iff {strs : List String} {v : ℕ} :
    IsBest (fun _ => True) count (fun _ => 1) strs (m, n) v ↔ IsGreatest (sizes strs m n) v := by
  have hset : {x | ∃ ts : List String, ts.Sublist strs ∧ Packs (fun _ => True) count ts.reverse (m, n) ∧
      (ts.map fun _ => 1).sum = x} = sizes strs m n := by
    refine Set.ext fun x => exists_congr fun ts => and_congr_right fun _ => ?_
    rw [packs_true_iff, List.map_reverse, List.sum_reverse, sum_count, Prod.mk_le_mk, and_assoc, List.map_const',
      List.sum_replicate_nat, Nat.mul_one]
  rw [IsBest, hset]

/-- The three functions give the same number, and it is the greatest size of a sub-collection. -/
theorem findMaxForm_agree (strs : List String) (m n : ℕ) : IsGreatest (sizes strs m n) (findMaxForm strs m n) ∧
    findMaxForm1 strs m n = findMaxForm strs m n ∧ findMaxForm3 strs m n = findMaxForm strs m n := by
  have h : IsGreatest (sizes strs m n) (findMaxForm strs m n) := by
    rw [findMaxForm, List.foldl_map]
    exact isBest_iff.1 (best_foldl update_get strs (Fin.last m, Fin.last n))
  refine ⟨h, IsGreatest.unique ?_ h, ?_⟩
  · have hlast := best_tables (m := m) (n := n) strs (Fin.last strs.length) (Fin.last m, Fin.last n)
    rw [Fin.val_last, List.take_length] at hlast
    exact isBest_iff.1 hlast
  · refine IsGreatest.unique ?_ h
    rw [findMaxForm3]
    split_ifs with hstrs
    · rw [List.eq_nil_of_length_eq_zero hstrs]
      exact isBest_iff.1 isBest_nil
    · exact isBest_iff.1 (best_foldl update3_get strs (Fin.last m, Fin.last n))

end GoodGoodStudy.LeetCode.FindMaxForm
