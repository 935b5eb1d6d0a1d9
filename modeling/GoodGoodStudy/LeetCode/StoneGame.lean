/-
The exercise 877, the stone game. `dp[i][j]` is to be the lead of the player who moves when the piles from `i` to `j`
are left. The case of one pile stands in the loop, but the loop starts at `i + 1`: on the diagonal the table stays at
zero, as if the pile that is taken last counted nothing.
-/
import Mathlib.Data.List.GetD
import GoodGoodStudy.Lib.Ends
import GoodGoodStudy.Lib.Loop
import GoodGoodStudy.Lib.Sequence
import GoodGoodStudy.Lib.Table

namespace GoodGoodStudy.LeetCode.StoneGame

open GoodGoodStudy.Lib

/-! ## The code -/

variable {n : ℕ}

/-- A round of the inner loop. -/
def fill (piles : List ℤ) (dp : Grid n n ℤ) (i j : ℕ) : Option (Grid n n ℤ) := do
  if i = j then dp.setItem? i j (← item? piles i)
  else
    let front := (← item? piles i) - (← dp.item? (i + 1) j)
    let back := (← item? piles j) - (← dp.item? i (j - 1))
    dp.setItem? i j (max front back)

def stoneGame (piles : List ℤ) : Option Bool := do
  let length := piles.length
  let dp := Grid.replicate length length 0
  let dp ← (List.range length).reverse.foldlM
    (fun dp i => (List.range' (i + 1) (length - (i + 1))).foldlM (fun dp j => fill piles dp i j) dp) dp
  some ((← dp.item? 0 (length - 1)) > 0)

example : stoneGame [2, 8, 3, 5] = some true := by decide

/-! ## The table -/

/-- The lead in the game in which the last pile counts nothing. -/
def value (p : ℕ → ℤ) (q : Cell n n) : ℤ :=
  if q.1 ≤ q.2 then lead (fun _ => 0) p q.1 (q.2 - q.1) else 0

variable {piles : List ℤ} {p : ℕ → ℤ} {dp : Grid n n ℤ} {q : Cell n n} {D D' : Cell n n → Prop}

/-- The lower half of the table is not written. -/
theorem get_eq_value (h : FilledAt D (value p) (fun _ => 0) dp.get) (hq : q.1 < q.2 → D q) : dp.get q = value p q := by
  by_cases hD : D q
  · exact h.new q hD
  · rw [h.old q hD, value]
    split_ifs with hle
    · have heq : q.1 = q.2 := le_antisymm hle (not_lt.1 fun hlt => hD (hq hlt))
      rw [heq, Nat.sub_self]
      rfl
    · rfl

/-- A round reads the cell below and the cell to the left. -/
theorem fill_filled (h : FilledAt D (value p) (fun _ => 0) dp.get) (hD : ∀ x, D' x ↔ D x ∨ x = q)
    (hp : ∀ i < n, item? piles i = some (p i)) (hlt : q.1 < q.2)
    (hbelow : ∀ x : Cell n n, (x.1 : ℕ) = q.1 + 1 → x.2 = q.2 → x.1 < x.2 → D x)
    (hleft : ∀ x : Cell n n, x.1 = q.1 → (x.2 : ℕ) + 1 = q.2 → x.1 < x.2 → D x) :
    ∃ dp', fill piles dp q.1 q.2 = some dp' ∧ FilledAt D' (value p) (fun _ => 0) dp'.get := by
  obtain ⟨⟨i, hi⟩, ⟨j, hj⟩⟩ := q
  obtain ⟨k, rfl⟩ : ∃ k, j = i + (k + 1) := ⟨j - i - 1, by have := Fin.lt_def.1 hlt; simp only at this; omega⟩
  let below : Cell n n := (⟨i + 1, by omega⟩, ⟨i + (k + 1), hj⟩)
  let left : Cell n n := (⟨i, hi⟩, ⟨i + k, by omega⟩)
  have hb : dp.get below = lead (fun _ => 0) p (i + 1) k := by
    rw [get_eq_value h (hbelow below rfl rfl), value, if_pos (Fin.le_def.2 (by simp only [below]; omega))]
    congr 1
    simp only [below]
    omega
  have hl : dp.get left = lead (fun _ => 0) p i k := by
    rw [get_eq_value h (hleft left rfl rfl), value, if_pos (Fin.le_def.2 (by simp only [left]; omega))]
    congr 1
    simp only [left]
    omega
  have hfill : fill piles dp i (i + (k + 1)) = some (dp.set (⟨i, hi⟩, ⟨i + (k + 1), hj⟩)
      (lead (fun _ => 0) p i (k + 1))) := by
    have hreadBelow : dp.item? (i + 1) (i + (k + 1) : ℕ) = some (dp.get below) :=
      Grid.item?_eq (p := below) (by simp only [below]; omega) rfl dp
    have hreadLeft : dp.item? i ((i + (k + 1) : ℕ) - 1) = some (dp.get left) :=
      Grid.item?_eq (p := left) rfl (by simp only [left]; omega) dp
    rw [fill, if_neg (by omega), hp i hi, hp _ hj, hreadBelow, hreadLeft, hb, hl]
    exact Grid.setItem?_eq (p := (⟨i, hi⟩, ⟨i + (k + 1), hj⟩)) rfl rfl dp _
  -- the cell that is written, and no other
  refine ⟨_, hfill, h.write (fun x => ?_) hD⟩
  have hvalue : value p (⟨i, hi⟩, ⟨i + (k + 1), hj⟩) = lead (fun _ => 0) p i (k + 1) := by
    rw [value, if_pos hlt.le]
    congr 1
    simp only
    omega
  rw [dp.get_set, hvalue]

/-- A round of the outer loop. -/
theorem row_filled {i : ℕ} (hi : i < n) (hp : ∀ i < n, item? piles i = some (p i))
    (h : FilledAt (fun q : Cell n n => i + 1 ≤ q.1 ∧ q.1 < q.2) (value p) (fun _ => 0) dp.get) :
    ∃ dp', (List.range' (i + 1) (n - (i + 1))).foldlM (fun dp j => fill piles dp i j) dp = some dp' ∧
      FilledAt (fun q : Cell n n => i ≤ q.1 ∧ q.1 < q.2) (value p) (fun _ => 0) dp'.get := by
  -- the rows below are filled, and this one from the diagonal up to `j`
  have hstart : FilledAt (fun q : Cell n n => i + 1 ≤ q.1 ∧ q.1 < q.2 ∨ (q.1 : ℕ) = i ∧ q.1 < q.2 ∧ (q.2 : ℕ) < i + 1)
      (value p) (fun _ => 0) dp.get := h.congr fun q => by omega
  obtain ⟨dp', hfold, hdp'⟩ := exists_foldlM_range' (f := fun dp j => fill piles dp i j)
    (P := fun j (dp : Grid n n ℤ) => FilledAt (fun q : Cell n n => i + 1 ≤ q.1 ∧ q.1 < q.2 ∨
      (q.1 : ℕ) = i ∧ q.1 < q.2 ∧ (q.2 : ℕ) < j) (value p) (fun _ => 0) dp.get)
    (n - (i + 1)) (i + 1) (fun j hij hj dp hdp => by
      refine fill_filled (q := (⟨i, hi⟩, ⟨j, by omega⟩)) hdp (fun x => ?_) hp (Fin.lt_def.2 hij) ?_ ?_
      · simp only [cell_eq_iff]
        omega
      · exact fun x hx _ hlt => Or.inl ⟨hx.ge, hlt⟩
      · exact fun x hx hxj hlt => Or.inr ⟨congrArg Fin.val hx, hlt, Nat.lt_of_succ_le hxj.le⟩) hstart
  refine ⟨dp', hfold, hdp'.congr fun q => ?_⟩
  have hlt := q.2.isLt
  omega

theorem stoneGame_eq (hp : ∀ i < piles.length, item? piles i = some (p i)) (hne : piles ≠ []) :
    stoneGame piles = some (decide (0 < lead (fun _ => 0) p 0 (piles.length - 1))) := by
  have hstart : FilledAt (fun q : Cell piles.length piles.length => piles.length ≤ q.1 ∧ q.1 < q.2) (value p)
      (fun _ => 0) (Grid.replicate piles.length piles.length (0 : ℤ)).get := by
    refine ⟨fun q hq => ?_, fun q _ => Grid.get_replicate 0 q⟩
    have hlt := q.1.isLt
    omega
  obtain ⟨dp, hfold, hdp⟩ := exists_foldlM_down
    (P := fun i (dp : Grid piles.length piles.length ℤ) =>
      FilledAt (fun q : Cell piles.length piles.length => i ≤ q.1 ∧ q.1 < q.2) (value p) (fun _ => 0) dp.get)
    piles.length (fun i hi dp hdp => row_filled hi hp hdp) hstart
  obtain ⟨n, hn⟩ : ∃ n, piles.length = n + 1 := ⟨piles.length - 1, by have := List.length_pos_iff.2 hne; omega⟩
  let q : Cell piles.length piles.length := (⟨0, by omega⟩, ⟨n, by omega⟩)
  have hget : dp.get q = lead (fun _ => 0) p 0 n := by
    rw [get_eq_value hdp fun hlt => ⟨Nat.zero_le _, hlt⟩, value, if_pos (Fin.le_def.2 (Nat.zero_le _))]
    rfl
  have hread : dp.item? 0 (piles.length - 1) = some (dp.get q) :=
    Grid.item?_eq (p := q) rfl (by simp only [q]; omega) dp
  rw [stoneGame]
  simp only [hfold, hread, hget, Option.bind_eq_bind, Option.bind_some]
  rw [hn, Nat.add_sub_cancel]

/-! ## The game -/

end GoodGoodStudy.LeetCode.StoneGame
