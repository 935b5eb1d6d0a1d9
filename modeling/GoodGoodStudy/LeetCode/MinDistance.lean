/-
The exercise 72, the edit distance of two words: a table with a row for every prefix of the first word and a column for
every prefix of the second one.
-/
import GoodGoodStudy.Lib.Edits
import GoodGoodStudy.Lib.Loop
import GoodGoodStudy.Lib.Sequence

namespace GoodGoodStudy.LeetCode.MinDistance

open GoodGoodStudy.Lib

variable {α : Type} [DecidableEq α] {r c : ℕ}

/-! ## The code -/

/-- A round of the inner loop. -/
def fill (word1 word2 : List α) (dp : Grid r c ℕ) (x y : ℕ) : Option (Grid r c ℕ) := do
  if (← item? word1 (x - 1)) = (← item? word2 (y - 1)) then
    dp.setItem? x y (← dp.item? (x - 1) (y - 1))
  else
    let above ← dp.item? (x - 1) y
    let before ← dp.item? x (y - 1)
    let diagonal ← dp.item? (x - 1) (y - 1)
    dp.setItem? x y (min (min (above + 1) (before + 1)) (diagonal + 1))

def minDistance (word1 word2 : List α) : Option ℕ :=
  if word1.length = 0 then some word2.length
  else if word2.length = 0 then some word1.length
  else do
    let first := word1.length
    let second := word2.length
    let dp := Grid.replicate (first + 1) (second + 1) 0
    let dp ← (List.range (first + 1)).foldlM (fun dp i => dp.setItem? i 0 i) dp
    let dp ← (List.range (second + 1)).foldlM (fun dp j => dp.setItem? 0 j j) dp
    let dp ← (List.range' 1 first).foldlM
      (fun dp x => (List.range' 1 second).foldlM (fun dp y => fill word1 word2 dp x y) dp) dp
    dp.item? first second

example : minDistance "horse".toList "ros".toList = some 3 := by decide

/-! ## The table -/

variable {word1 word2 : List α} {m n : ℕ} {dp : Grid (m + 1) (n + 1) ℕ} {p : Cell (m + 1) (n + 1)}

/-- The least number of edits that make one word the other one. -/
def Distance (word1 word2 : List α) (d : ℕ) : Prop := IsLeast {k | Edits k word1 word2} d

/-- The cell has the distance of the prefixes that it stands for. -/
def Right (word1 word2 : List α) (dp : Grid (m + 1) (n + 1) ℕ) (p : Cell (m + 1) (n + 1)) : Prop :=
  Distance (word1.take p.1) (word2.take p.2) (dp.get p)

omit [DecidableEq α] in
/-- The cells of the first column and the first row are not computed from others. -/
theorem right_border (hp : (p.1 : ℕ) = 0 ∨ (p.2 : ℕ) = 0) (hm : m = word1.length) (hn : n = word2.length)
    (hget : dp.get p = p.1 + p.2) : Right word1 word2 dp p := by
  have hp₁ := p.1.isLt
  have hp₂ := p.2.isLt
  unfold Right Distance
  rcases hp with hzero | hzero
  · have h := isLeast_edits_nil_left (word2.take p.2)
    rw [hget, hzero, List.take_zero, Nat.zero_add]
    rwa [List.length_take, min_eq_left (by omega)] at h
  · have h := isLeast_edits_nil_right (word1.take p.1)
    rw [hget, hzero, List.take_zero, Nat.add_zero p.1.val]
    rwa [List.length_take, min_eq_left (by omega)] at h

/-- The other cells, from the cell above, the cell before and the cell between them. -/
theorem exists_fill {a b d : Cell (m + 1) (n + 1)} {x y : ℕ} (hm : m = word1.length) (hn : n = word2.length)
    (hp : (p.1 : ℕ) = x + 1 ∧ (p.2 : ℕ) = y + 1) (ha : (a.1 : ℕ) = x ∧ (a.2 : ℕ) = y + 1)
    (hb : (b.1 : ℕ) = x + 1 ∧ (b.2 : ℕ) = y) (hd : (d.1 : ℕ) = x ∧ (d.2 : ℕ) = y) (hra : Right word1 word2 dp a)
    (hrb : Right word1 word2 dp b) (hrd : Right word1 word2 dp d) :
    ∃ dp', fill word1 word2 dp (x + 1) (y + 1) = some dp' ∧ Right word1 word2 dp' p ∧
      ∀ q, q ≠ p → dp'.get q = dp.get q := by
  have hx : x < word1.length := by
    have hp₁ := p.1.isLt
    omega
  have hy : y < word2.length := by
    have hp₂ := p.2.isLt
    omega
  unfold Right Distance at hra hrb hrd
  rw [ha.1, ha.2, List.take_succ_eq_append_getElem hy] at hra
  rw [hb.1, hb.2, List.take_succ_eq_append_getElem hx] at hrb
  rw [hd.1, hd.2] at hrd
  have hleast := isLeast_edits_concat word1[x] word2[y] hra hrb hrd
  refine ⟨dp.set p (if word1[x] = word2[y] then dp.get d else min (min (dp.get a + 1) (dp.get b + 1)) (dp.get d + 1)),
    ?_, ?_, fun q hq => ?_⟩
  · have hx₁ : ((x + 1 : ℕ) : ℤ) - 1 = x := by omega
    have hy₁ : ((y + 1 : ℕ) : ℤ) - 1 = y := by omega
    have hgeta : dp.item? x (y + 1 : ℕ) = some (dp.get a) := Grid.item?_eq (by omega) (by omega) dp
    have hgetb : dp.item? (x + 1 : ℕ) y = some (dp.get b) := Grid.item?_eq (by omega) (by omega) dp
    have hgetd : dp.item? x y = some (dp.get d) := Grid.item?_eq (by omega) (by omega) dp
    have hset : ∀ v, dp.setItem? (x + 1 : ℕ) (y + 1 : ℕ) v = some (dp.set p v) :=
      Grid.setItem?_eq (by omega) (by omega) dp
    unfold fill
    simp only [hx₁, hy₁, item?_natCast hx, item?_natCast hy, hgeta, hgetb, hgetd, hset, Option.bind_eq_bind,
      Option.bind_some]
    split_ifs <;> rfl
  · unfold Right Distance
    rw [hp.1, hp.2, List.take_succ_eq_append_getElem hx, List.take_succ_eq_append_getElem hy, dp.get_set, if_pos rfl]
    exact hleast
  · rw [dp.get_set, if_neg hq]

/-! ## The loops -/

theorem exists_cell {x y : ℕ} (hx : x ≤ m) (hy : y ≤ n) :
    ∃ p : Cell (m + 1) (n + 1), (p.1 : ℕ) = x ∧ (p.2 : ℕ) = y :=
  ⟨(⟨x, Nat.lt_succ_of_le hx⟩, ⟨y, Nat.lt_succ_of_le hy⟩), rfl, rfl⟩

/-- Before the two nested loops. -/
theorem exists_border (m n : ℕ) : ∃ dp₁ dp₂ : Grid (m + 1) (n + 1) ℕ,
    (List.range (m + 1)).foldlM (fun dp i => dp.setItem? i 0 i) (Grid.replicate (m + 1) (n + 1) 0) = some dp₁ ∧
      (List.range (n + 1)).foldlM (fun dp j => dp.setItem? 0 j j) dp₁ = some dp₂ ∧
        ∀ p, (p.1 : ℕ) = 0 ∨ (p.2 : ℕ) = 0 → dp₂.get p = p.1 + p.2 := by
  obtain ⟨dp₁, hfold₁, hdp₁⟩ := exists_foldlM_range (f := fun (dp : Grid (m + 1) (n + 1) ℕ) i => dp.setItem? i 0 i)
    (P := fun i (dp : Grid (m + 1) (n + 1) ℕ) => ∀ p, (p.2 : ℕ) = 0 → (p.1 : ℕ) < i → dp.get p = p.1) (m + 1)
    (fun i hi dp hdp => by
      refine ⟨_, Grid.setItem?_eq (p := (⟨i, hi⟩, 0)) rfl rfl dp i, fun p hp₂ hp₁ => ?_⟩
      rw [dp.get_set]
      split_ifs with heq
      · rw [heq]
      · rw [cell_eq_iff] at heq
        exact hdp p hp₂ (by simp only [Fin.val_zero] at heq; omega))
    (s := Grid.replicate (m + 1) (n + 1) 0) fun p _ hlt => absurd hlt (Nat.not_lt_zero _)
  obtain ⟨dp₂, hfold₂, hdp₂⟩ := exists_foldlM_range (f := fun (dp : Grid (m + 1) (n + 1) ℕ) j => dp.setItem? 0 j j)
    (P := fun j (dp : Grid (m + 1) (n + 1) ℕ) => (∀ p, (p.2 : ℕ) = 0 → dp.get p = p.1) ∧
      ∀ p, (p.1 : ℕ) = 0 → (p.2 : ℕ) < j → dp.get p = p.2) (n + 1)
    (fun j hj dp hdp => by
      refine ⟨_, Grid.setItem?_eq (p := (0, ⟨j, hj⟩)) rfl rfl dp j, fun p hp₂ => ?_, fun p hp₁ hp₂ => ?_⟩
      · rw [dp.get_set]
        split_ifs with heq
        · -- the corner, where both loops write 0
          rw [cell_eq_iff] at heq
          simp only [Fin.val_zero] at heq
          omega
        · exact hdp.1 p hp₂
      · rw [dp.get_set]
        split_ifs with heq
        · rw [heq]
        · rw [cell_eq_iff] at heq
          exact hdp.2 p hp₁ (by simp only [Fin.val_zero] at heq; omega))
    (s := dp₁) ⟨fun p hp => hdp₁ p hp p.1.isLt, fun p _ hlt => absurd hlt (Nat.not_lt_zero _)⟩
  refine ⟨dp₁, dp₂, hfold₁, hfold₂, fun p hp => ?_⟩
  rcases hp with hp | hp
  · rw [hdp₂.2 p hp p.2.isLt, hp, Nat.zero_add]
  · rw [hdp₂.1 p hp, hp, Nat.add_zero p.1.val]

/-- The cells of the border, and those that the nested loops have passed. -/
def Passed (x y : ℕ) (p : Cell (m + 1) (n + 1)) : Prop :=
  (p.1 : ℕ) = 0 ∨ (p.2 : ℕ) = 0 ∨ (p.1 : ℕ) < x ∨ (p.1 : ℕ) = x ∧ (p.2 : ℕ) < y

theorem exists_row {x : ℕ} (hm : m = word1.length) (hn : n = word2.length) (hx : x < m)
    (hdp : ∀ p, Passed (x + 1) 1 p → Right word1 word2 dp p) :
    ∃ dp', (List.range' 1 n).foldlM (fun dp y => fill word1 word2 dp (x + 1) y) dp = some dp' ∧
      ∀ p, Passed (x + 1) (1 + n) p → Right word1 word2 dp' p :=
  exists_foldlM_range' (f := fun (dp : Grid (m + 1) (n + 1) ℕ) y => fill word1 word2 dp (x + 1) y)
    (P := fun y (dp : Grid (m + 1) (n + 1) ℕ) => ∀ p, Passed (x + 1) y p → Right word1 word2 dp p) n 1
    (fun y hy hyn dp hdp => by
      obtain ⟨y, rfl⟩ := Nat.exists_eq_add_of_le' hy
      -- the cell, and the three cells from which it is computed
      obtain ⟨p, hp⟩ := exists_cell (m := m) (n := n) (x := x + 1) (y := y + 1) (by omega) (by omega)
      obtain ⟨a, ha⟩ := exists_cell (m := m) (n := n) (x := x) (y := y + 1) (by omega) (by omega)
      obtain ⟨b, hb⟩ := exists_cell (m := m) (n := n) (x := x + 1) (y := y) (by omega) (by omega)
      obtain ⟨d, hd⟩ := exists_cell (m := m) (n := n) (x := x) (y := y) (by omega) (by omega)
      obtain ⟨dp', hfill, hright, hsame⟩ := exists_fill hm hn hp ha hb hd (hdp a (by unfold Passed; omega))
        (hdp b (by unfold Passed; omega)) (hdp d (by unfold Passed; omega))
      refine ⟨dp', hfill, fun q hq => ?_⟩
      by_cases hqp : q = p
      · exact hqp ▸ hright
      · have hold : Right word1 word2 dp q := hdp q (by
          rw [cell_eq_iff] at hqp
          unfold Passed at hq ⊢
          omega)
        unfold Right at hold ⊢
        rwa [hsame q hqp]) hdp

theorem minDistance_eq (word1 word2 : List α) : ∃ d, minDistance word1 word2 = some d ∧ Distance word1 word2 d := by
  unfold minDistance
  split_ifs with h₁ h₂
  · rw [List.length_eq_zero_iff] at h₁
    exact ⟨_, rfl, h₁ ▸ isLeast_edits_nil_left word2⟩
  · rw [List.length_eq_zero_iff] at h₂
    exact ⟨_, rfl, h₂ ▸ isLeast_edits_nil_right word1⟩
  · obtain ⟨dp₁, dp₂, hfold₁, hfold₂, hborder⟩ := exists_border word1.length word2.length
    obtain ⟨dp₃, hfold₃, hdp₃⟩ := exists_foldlM_range'
      (f := fun (dp : Grid (word1.length + 1) (word2.length + 1) ℕ) x =>
        (List.range' 1 word2.length).foldlM (fun dp y => fill word1 word2 dp x y) dp)
      (P := fun x (dp : Grid (word1.length + 1) (word2.length + 1) ℕ) =>
        ∀ p, Passed x 1 p → Right word1 word2 dp p) word1.length 1
      (fun x hx hxn dp hdp => by
        obtain ⟨x, rfl⟩ := Nat.exists_eq_add_of_le' hx
        obtain ⟨dp', hfold, hdp'⟩ := exists_row rfl rfl (by omega) hdp
        refine ⟨dp', hfold, fun p hp => hdp' p ?_⟩
        have hp₂ := p.2.isLt
        unfold Passed at hp ⊢
        omega)
      (s := dp₂) fun p hp => by
        have hzero : (p.1 : ℕ) = 0 ∨ (p.2 : ℕ) = 0 := by
          unfold Passed at hp
          omega
        exact right_border hzero rfl rfl (hborder p hzero)
    have hlast := hdp₃ (Fin.last _, Fin.last _) (by
      unfold Passed
      simp only [Fin.val_last]
      omega)
    refine ⟨dp₃.get (Fin.last _, Fin.last _), ?_, ?_⟩
    · simp only [hfold₁, hfold₂, hfold₃, Option.bind_eq_bind, Option.bind_some]
      exact Grid.item?_eq (p := (Fin.last _, Fin.last _)) rfl rfl dp₃
    · unfold Right at hlast
      simp only [Fin.val_last, List.take_length] at hlast
      exact hlast

end GoodGoodStudy.LeetCode.MinDistance
