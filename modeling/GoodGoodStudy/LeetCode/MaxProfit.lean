/-
The exercises on the best time to buy and sell a stock. They fill tables that hold for every day what is made with the
stock sold (`[0]`) and with the stock bought (`[1]`): for at most `k` trades (188, and 123 with two of them), for one
trade (121), for any number of trades (122, which has two more functions that add up the rises of the price), with a fee
for every purchase (714), and with a day between a sale and the next purchase (309).
-/
import GoodGoodStudy.Lib.Grid
import GoodGoodStudy.Lib.Table
import GoodGoodStudy.Lib.Trades

namespace GoodGoodStudy.LeetCode.MaxProfit

open GoodGoodStudy.Lib

/-- `dp[i]` or `dp[i][j]`, a list of two numbers. -/
abbrev Day := ℤ × ℤ

/-- `prices[i]`; no index is out of range. -/
def price (prices : List ℤ) (i : ℕ) : ℤ := prices.getD i 0

/-- `max(dp[i - 1][0], dp[i - 1][1] + prices[i])` -/
def sold (before : Day) (p : ℤ) : ℤ := max before.1 (before.2 + p)

variable {n k : ℕ}

/-! ## At most `k` trades -/

/-- What is computed for the day `i` and at most `j + 1` trades. -/
def best (prices : List ℤ) (dp : Grid (n + 1) (k + 1) Day) : Cell (n + 1) k → Day
  | (⟨0, _⟩, _) => (0, -price prices 0)
  | (⟨i + 1, hi⟩, j) =>
    let before := dp.get (⟨i, Nat.lt_of_succ_lt hi⟩, j.succ)
    let less := dp.get (⟨i, Nat.lt_of_succ_lt hi⟩, j.castSucc)
    (sold before (price prices (i + 1)), max before.2 (less.1 - price prices (i + 1)))

/-- The loop over `j` goes down from `k` to 1. -/
def table (prices : List ℤ) (n k : ℕ) : Grid (n + 1) (k + 1) Day :=
  (List.finRange (n + 1) ×ˢ (List.finRange k).reverse).foldl
    (fun dp p => dp.set (p.1, p.2.succ) (best prices dp p)) (Grid.replicate (n + 1) (k + 1) (0, 0))

def atMost (k : ℕ) : List ℤ → ℤ
  | [] => 0
  | p :: ps => ((table (p :: ps) ps.length k).get (Fin.last ps.length, Fin.last k)).1

/-- 188 -/
def IV.maxProfit (k : ℕ) (prices : List ℤ) : ℤ := atMost k prices

/-- 123 -/
def III.maxProfit (prices : List ℤ) : ℤ := atMost 2 prices

/-! ## One row -/

/-- A loop over some days. -/
def fill {κ : Type} (day : κ → Fin n) (next : Vector Day n → κ → Day) (dp : Vector Day n) (l : List κ) : Vector Day n :=
  l.foldl (fun dp k => dp.set (day k) (next dp k)) dp

/-- 121 -/
def I.next (prices : List ℤ) (dp : Vector Day (n + 1)) : Fin (n + 1) → Day
  | ⟨0, _⟩ => (0, -price prices 0)
  | ⟨i + 1, hi⟩ =>
    let before := dp.get ⟨i, Nat.lt_of_succ_lt hi⟩
    (sold before (price prices (i + 1)), max before.2 (-price prices (i + 1)))

def I.row (prices : List ℤ) (n : ℕ) : Vector Day (n + 1) :=
  fill id (next prices) (Vector.replicate (n + 1) (0, 0)) (List.finRange (n + 1))

def I.maxProfit : List ℤ → ℤ
  | [] => 0
  | p :: ps => ((row (p :: ps) ps.length).get (Fin.last ps.length)).1

/-- 122 -/
def II.next (prices : List ℤ) (dp : Vector Day (n + 1)) (i : Fin n) : Day :=
  let before := dp.get i.castSucc
  (sold before (price prices (i + 1)), max (before.1 - price prices (i + 1)) before.2)

def II.row (prices : List ℤ) (n : ℕ) : Vector Day (n + 1) :=
  fill Fin.succ (next prices) ((Vector.replicate (n + 1) (0, 0)).set 0 (0, -price prices 0)) (List.finRange n)

def II.maxProfit : List ℤ → ℤ
  | p :: q :: ps => ((row (p :: q :: ps) (ps.length + 1)).get (Fin.last (ps.length + 1))).1
  | _ => 0

def II.greedy (prices : List ℤ) : ℤ :=
  if prices.length < 2 then 0
  else
    (List.range' 1 (prices.length - 1)).foldl
      (fun res i =>
        if price prices i - price prices (i - 1) > 0 then res + (price prices i - price prices (i - 1)) else res) 0

def II.maxProfit2 (prices : List ℤ) : ℤ :=
  if prices.length < 2 then 0
  else ((List.range (prices.length - 1)).map fun i => max (price prices (i + 1) - price prices i) 0).sum

/-- 714 -/
def Fee.next (prices : List ℤ) (fee : ℤ) (dp : Vector Day (n + 1)) (i : Fin n) : Day :=
  let before := dp.get i.castSucc
  (sold before (price prices (i + 1)), max before.2 (before.1 - price prices (i + 1) - fee))

def Fee.row (prices : List ℤ) (fee : ℤ) (n : ℕ) : Vector Day (n + 1) :=
  fill Fin.succ (next prices fee) ((Vector.replicate (n + 1) (0, 0)).set 0 (0, -price prices 0 - fee)) (List.finRange n)

def Fee.maxProfit (prices : List ℤ) (fee : ℤ) : ℤ :=
  match prices with
  | [] => 0
  | p :: ps => ((row (p :: ps) fee ps.length).get (Fin.last ps.length)).1

/-- 309 -/
def Cooldown.next (prices : List ℤ) (dp : Vector Day (n + 2)) (i : Fin n) : Day :=
  let before := dp.get i.succ.castSucc
  (sold before (price prices (i + 2)), max before.2 ((dp.get i.castSucc.castSucc).1 - price prices (i + 2)))

/-- The first two days. -/
def Cooldown.start (prices : List ℤ) (n : ℕ) : Vector Day (n + 2) :=
  let dp := (Vector.replicate (n + 2) (0, 0)).set 0 (0, -price prices 0)
  dp.set 1 (sold (dp.get 0) (price prices 1), max (dp.get 0).2 (-price prices 1))

def Cooldown.row (prices : List ℤ) (n : ℕ) : Vector Day (n + 2) :=
  fill (fun i => i.succ.succ) (next prices) (start prices n) (List.finRange n)

/-- There is no first day in an empty list. -/
def Cooldown.maxProfit : List ℤ → Option ℤ
  | [] => none
  | [_] => some 0
  | p :: q :: ps => some ((row (p :: q :: ps) ps.length).get (Fin.last (ps.length + 1))).1

/-! ## What the tables hold -/

section Fill

variable {κ : Type} {l : List κ}

/-- A row that is filled from the first day to the last, from days that are filled already. -/
theorem fill_get {day : κ → Fin n} (hday : Function.Injective day) (hl : l.Pairwise fun k k' => day k < day k')
    (next : Vector Day n → κ → Day)
    (hnext : ∀ k dp dp', (∀ i < day k, dp.get i = dp'.get i) → next dp k = next dp' k) (dp : Vector Day n) :
    (∀ k ∈ l, (fill day next dp l).get (day k) = next (fill day next dp l) k) ∧
      ∀ i, (∀ k ∈ l, i ≠ day k) → (fill day next dp l).get i = dp.get i := by
  have hw : Writes Vector.get (fun dp k => dp.set (day k) (next dp k)) day next :=
    fun dp k i => vector_get_set dp (day k) i _
  refine hw.foldl_new (r := (· < ·)) hday hl (fun k _ dp dp' heq => hnext k dp dp' fun i hi => ?_) dp
  exact heq i hi.ne hi.asymm

end Fill

theorem table_get (prices : List ℤ) :
    (∀ i j, (table prices n k).get (i, j.succ) = best prices (table prices n k) (i, j)) ∧
      ∀ i, (table prices n k).get (i, 0) = (0, 0) := by
  have hw : Writes Grid.get (fun dp p => dp.set (p.1, p.2.succ) (best prices dp p))
      (fun p : Cell (n + 1) k => ((p.1, p.2.succ) : Cell (n + 1) (k + 1))) (best prices) :=
    fun dp p q => Grid.get_set dp _ q _
  have hcell : Function.Injective fun p : Cell (n + 1) k => ((p.1, p.2.succ) : Cell (n + 1) (k + 1)) := by
    intro p q h
    obtain ⟨hi, hj⟩ := Prod.mk.inj h
    exact Prod.ext hi (Fin.succ_inj.1 hj)
  have hl := pairwise_product_le (List.pairwise_lt_finRange (n + 1)) (List.finRange k).reverse
  obtain ⟨hnew, hout⟩ := hw.foldl_rows hcell hl (fun p _ dp dp' heq => by
    obtain ⟨⟨i, hi⟩, j⟩ := p
    cases i with
    | zero => rfl
    | succ i =>
      have habove : ∀ j, dp.get (⟨i, Nat.lt_of_succ_lt hi⟩, j) = dp'.get (⟨i, Nat.lt_of_succ_lt hi⟩, j) :=
        fun j => heq _ (Fin.lt_def.2 i.lt_succ_self)
      simp only [best, habove]) (Grid.replicate (n + 1) (k + 1) (0, 0))
  constructor
  · exact fun i j => hnew (i, j) (List.mem_product.2 ⟨List.mem_finRange i, List.mem_reverse.2 (List.mem_finRange j)⟩)
  · exact fun i => (hout (i, 0) fun p _ h => Fin.succ_ne_zero p.2 (Prod.mk.inj h).2.symm).trans (Grid.get_replicate _ _)

/-- What is made with at most `j` trades, and what is made with the stock bought for the trade `j + 1`. -/
theorem isDay_table (prices : List ℤ) {gap : ℕ} (hgap : gap ≤ 1) : ∀ (i : ℕ) (hi : i < n + 1),
    (∀ j : Fin (k + 1), IsCash (price prices) 0 gap (i + 1) (j : ℕ) ((table prices n k).get (⟨i, hi⟩, j)).1) ∧
      ∀ j : Fin k, IsStock (price prices) 0 gap (i + 1) (j : ℕ) ((table prices n k).get (⟨i, hi⟩, j.succ)).2
  | 0, hi => by
    constructor
    · intro j
      cases j using Fin.cases with
      | zero =>
        rw [(table_get prices).2]
        exact isCash_of_le_one le_rfl
      | succ j =>
        rw [(table_get prices).1]
        exact isCash_of_le_one le_rfl
    · intro j
      rw [(table_get prices).1, best, show -price prices 0 = 0 - price prices 0 - 0 by omega]
      exact isStock_one
  | i + 1, hi => by
    obtain ⟨hcash, hstock⟩ := isDay_table prices hgap i (Nat.lt_of_succ_lt hi)
    constructor
    · intro j
      cases j using Fin.cases with
      | zero =>
        rw [(table_get prices).2]
        exact isCash_zero
      | succ j =>
        have hsold := hcash j.succ
        rw [Fin.val_succ, Nat.cast_add_one] at hsold ⊢
        rw [(table_get prices).1]
        exact hsold.succ (hstock j)
    · intro j
      have hbought := (hstock j).succ_of_gap_le hgap le_rfl (hcash j.castSucc)
      rw [sub_zero] at hbought
      rw [(table_get prices).1]
      exact hbought

theorem atMost_isCash {gap : ℕ} (hgap : gap ≤ 1) (k : ℕ) (prices : List ℤ) :
    IsCash (price prices) 0 gap prices.length k (atMost k prices) := by
  cases prices with
  | nil => exact isCash_of_le_one (Nat.zero_le 1)
  | cons p ps => exact (isDay_table (p :: ps) hgap ps.length ps.length.lt_succ_self).1 (Fin.last k)

/-- A row whose days are computed from the day before. -/
theorem isDay_row {price : ℕ → ℤ} {fee : ℤ} {gap : ℕ} {limit : ℕ∞} {row : Fin (n + 1) → Day} (hgap : gap ≤ 1)
    (hfee : 0 ≤ fee) (hfirst : row 0 = (0, -price 0 - fee))
    (hnext : ∀ i : Fin n, IsDay price fee gap (i + 1) limit (row i.castSucc) →
      ∃ c, IsCash price fee gap (i + 1) limit c ∧ row i.succ =
        (sold (row i.castSucc) (price (i + 1)), max (row i.castSucc).2 (c - price (i + 1) - fee))) (i : Fin (n + 1)) :
    IsDay price fee gap (i + 1) limit (row i) := by
  induction i using Fin.induction with
  | zero =>
    rw [hfirst, ← zero_sub (price 0)]
    exact isDay_one
  | succ i ih =>
    obtain ⟨c, hc, hrow⟩ := hnext i ih
    rw [hrow]
    exact ih.succ hgap hfee hc

theorem I.isDay (prices : List ℤ) {gap : ℕ} (hgap : gap ≤ 1) (i : Fin (n + 1)) :
    IsDay (price prices) 0 gap (i + 1) 0 ((row prices n).get i) := by
  obtain ⟨hrow, -⟩ := fill_get Function.injective_id (List.pairwise_lt_finRange (n + 1)) (next prices)
    (fun i dp dp' heq => by
      obtain ⟨i, hi⟩ := i
      cases i with
      | zero => rfl
      | succ i => simp only [next, heq ⟨i, Nat.lt_of_succ_lt hi⟩ (Fin.lt_def.2 i.lt_succ_self)])
    (Vector.replicate (n + 1) (0, 0))
  refine isDay_row hgap le_rfl ?_ (fun i _ => ⟨0, isCash_zero, ?_⟩) i
  · rw [sub_zero]
    exact hrow 0 (List.mem_finRange 0)
  · rw [sub_zero, zero_sub]
    exact hrow i.succ (List.mem_finRange i.succ)

theorem Fee.isDay (prices : List ℤ) {fee : ℤ} {gap : ℕ} (hgap : gap ≤ 1) (hfee : 0 ≤ fee) (i : Fin (n + 1)) :
    IsDay (price prices) fee gap (i + 1) ⊤ ((row prices fee n).get i) := by
  obtain ⟨hrow, hfirst⟩ := fill_get (Fin.succ_injective n)
    ((List.pairwise_lt_finRange n).imp Fin.succ_lt_succ_iff.2) (next prices fee)
    (fun i dp dp' heq => by simp only [next, heq i.castSucc Fin.castSucc_lt_succ])
    ((Vector.replicate (n + 1) (0, 0)).set 0 (0, -price prices 0 - fee))
  refine isDay_row hgap hfee ?_ (fun i h => ⟨_, h.cash, hrow i (List.mem_finRange i)⟩) i
  exact (hfirst 0 fun i _ => (Fin.succ_ne_zero i).symm).trans ((vector_get_set _ 0 0 _).trans (if_pos rfl))

/-- 122 is 714 without a fee. -/
theorem II.maxProfit_eq (prices : List ℤ) : maxProfit prices = Fee.maxProfit prices 0 := by
  have hnext : ∀ {n : ℕ} (prices : List ℤ), next (n := n) prices = Fee.next prices 0 := by
    intro n prices
    funext dp i
    simp only [next, Fee.next, sub_zero, max_comm]
  match prices with
  | [] => rfl
  | [p] => rfl
  | p :: q :: ps =>
    rw [maxProfit, Fee.maxProfit, row, Fee.row, hnext, sub_zero]
    rfl

/-! ## The rises of the price -/

/-- The rises up to the day `m`. -/
def rises (price : ℕ → ℤ) (m : ℕ) : ℤ := ((List.range m).map fun i => max (price (i + 1) - price i) 0).sum

theorem rises_succ (price : ℕ → ℤ) (m : ℕ) :
    rises price (m + 1) = rises price m + max (price (m + 1) - price m) 0 := by
  rw [rises, List.range_succ, List.map_append, List.sum_append, List.map_singleton, List.sum_singleton]
  rfl

theorem isDay_rises (price : ℕ → ℤ) {gap : ℕ} (hgap : gap ≤ 1) (m : ℕ) :
    IsDay price 0 gap (m + 1) ⊤ (rises price m, rises price m - price m) := by
  induction m with
  | zero =>
    have hday : IsDay price 0 gap 1 ⊤ (0, 0 - price 0 - 0) := isDay_one
    rwa [sub_zero] at hday
  | succ m ih =>
    rw [rises_succ]
    exact ih.succ_rise hgap

theorem foldl_rises (price : ℕ → ℤ) (m : ℕ) : (List.range' 1 m).foldl
    (fun res i => if price i - price (i - 1) > 0 then res + (price i - price (i - 1)) else res) 0 = rises price m := by
  induction m with
  | zero => rfl
  | succ m ih =>
    rw [List.range'_1_concat, List.foldl_append, ih, rises_succ, List.foldl_cons, List.foldl_nil, Nat.add_comm 1 m,
      Nat.add_sub_cancel]
    split_ifs with hrise
    · rw [max_eq_left hrise.le]
    · rw [max_eq_right (not_lt.1 hrise), add_zero]

theorem II.greedy_eq (prices : List ℤ) : greedy prices = maxProfit2 prices := by
  unfold greedy maxProfit2
  rw [foldl_rises]
  rfl

theorem II.maxProfit2_isCash {gap : ℕ} (hgap : gap ≤ 1) (prices : List ℤ) :
    IsCash (price prices) 0 gap prices.length ⊤ (maxProfit2 prices) := by
  unfold maxProfit2
  split_ifs with hlen
  · exact isCash_of_le_one (Nat.le_of_lt_succ hlen)
  · have hday := (isDay_rises (price prices) hgap (prices.length - 1)).cash
    rwa [Nat.sub_add_cancel (by omega)] at hday

/-! ## The greatest profits -/

theorem Fee.maxProfit_isCash {fee : ℤ} {gap : ℕ} (hgap : gap ≤ 1) (hfee : 0 ≤ fee) (prices : List ℤ) :
    IsCash (price prices) fee gap prices.length ⊤ (maxProfit prices fee) := by
  cases prices with
  | nil => exact isCash_of_le_one (Nat.zero_le 1)
  | cons p ps => exact (isDay (p :: ps) hgap hfee (Fin.last ps.length)).cash

theorem I.maxProfit_isCash {gap : ℕ} (hgap : gap ≤ 1) (prices : List ℤ) :
    IsCash (price prices) 0 gap prices.length 1 (maxProfit prices) := by
  cases prices with
  | nil => exact isCash_of_le_one (Nat.zero_le 1)
  | cons p ps => exact (isDay (p :: ps) hgap (Fin.last ps.length)).cash

/-- A row whose days are computed from the two days before, for a day between a sale and the next purchase. -/
theorem isDay_row_rest {price : ℕ → ℤ} {row : Fin (n + 2) → Day} (hfirst : row 0 = (0, -price 0))
    (hsecond : row 1 = (sold (row 0) (price 1), max (row 0).2 (-price 1)))
    (hnext : ∀ i : Fin n, row i.succ.succ = (sold (row i.succ.castSucc) (price (i + 2)),
      max (row i.succ.castSucc).2 ((row i.castSucc.castSucc).1 - price (i + 2)))) :
    ∀ (i : ℕ) (hi : i < n + 2), IsDay price 0 2 (i + 1) ⊤ (row ⟨i, hi⟩)
  | 0, _ => by
    have hday : IsDay price 0 2 1 ⊤ (0, 0 - price 0 - 0) := isDay_one
    rw [sub_zero, zero_sub] at hday
    exact hfirst ▸ hday
  | 1, _ => by
    have hday := isDay_row_rest hfirst hsecond hnext 0 (Nat.succ_pos _)
    have hstock := hday.stock.succ (isCash_of_le_one (Nat.zero_le 1))
    rw [sub_zero, zero_sub] at hstock
    exact hsecond ▸ ⟨hday.cash.succ hday.stock, hstock⟩
  | i + 2, hi => by
    have hbefore := isDay_row_rest hfirst hsecond hnext i (by omega)
    have hday := isDay_row_rest hfirst hsecond hnext (i + 1) (by omega)
    have hstock := hday.stock.succ hbefore.cash
    rw [sub_zero] at hstock
    exact hnext ⟨i, by omega⟩ ▸ ⟨hday.cash.succ hday.stock, hstock⟩

theorem Cooldown.isDay (prices : List ℤ) (i : ℕ) (hi : i < n + 2) :
    IsDay (price prices) 0 2 (i + 1) ⊤ ((row prices n).get ⟨i, hi⟩) := by
  obtain ⟨hrow, hout⟩ := fill_get ((Fin.succ_injective (n + 1)).comp (Fin.succ_injective n))
    ((List.pairwise_lt_finRange n).imp fun h => Fin.succ_lt_succ_iff.2 (Fin.succ_lt_succ_iff.2 h)) (next prices)
    (fun i dp dp' heq => by
      have hbefore : i.succ.castSucc < i.succ.succ := Fin.castSucc_lt_succ
      have htwo : i.castSucc.castSucc < i.succ.succ :=
        (Fin.castSucc_lt_castSucc_iff.2 Fin.castSucc_lt_succ).trans hbefore
      simp only [next, heq _ hbefore, heq _ htwo]) (start prices n)
  have hzero : ((Vector.replicate (n + 2) ((0, 0) : Day)).set 0 (0, -price prices 0)).get 0 = (0, -price prices 0) :=
    (vector_get_set _ 0 0 _).trans (if_pos rfl)
  have hfirst : (row prices n).get 0 = (0, -price prices 0) := by
    refine (hout 0 fun i _ => (Fin.succ_ne_zero i.succ).symm).trans ?_
    exact (vector_get_set _ 1 0 _).trans ((if_neg Fin.zero_ne_one).trans hzero)
  have hsecond : (row prices n).get 1 = (sold ((row prices n).get 0) (price prices 1),
      max ((row prices n).get 0).2 (-price prices 1)) := by
    have hne : ∀ i : Fin n, (1 : Fin (n + 2)) ≠ i.succ.succ := fun i h =>
      Fin.succ_ne_zero i (Fin.succ_injective _ (h.symm.trans Fin.succ_zero_eq_one.symm))
    refine (hout 1 fun i _ => hne i).trans ?_
    refine (vector_get_set _ 1 1 _).trans ((if_pos rfl).trans ?_)
    rw [hfirst, hzero]
  exact isDay_row_rest hfirst hsecond (fun i => hrow i (List.mem_finRange i)) i hi

theorem Cooldown.maxProfit_isCash {prices : List ℤ} (hprices : prices ≠ []) :
    ∃ v, maxProfit prices = some v ∧ IsCash (price prices) 0 2 prices.length ⊤ v := by
  match prices with
  | [] => exact absurd rfl hprices
  | [p] => exact ⟨0, rfl, isCash_of_le_one le_rfl⟩
  | p :: q :: ps => exact ⟨_, rfl, (isDay (p :: q :: ps) (ps.length + 1) (Nat.lt_succ_self _)).cash⟩

/-- At most `k` trades, the next of which may begin on the day of a sale (0) or on the day after it (1); for one trade
and for two trades the other functions give the same. -/
theorem maxProfit_atMost (k : ℕ) (prices : List ℤ) :
    IsCash (price prices) 0 1 prices.length k (IV.maxProfit k prices) ∧
      IsCash (price prices) 0 0 prices.length k (IV.maxProfit k prices) ∧
      I.maxProfit prices = IV.maxProfit 1 prices ∧ III.maxProfit prices = IV.maxProfit 2 prices := by
  refine ⟨atMost_isCash le_rfl k prices, atMost_isCash (Nat.zero_le 1) k prices, ?_, rfl⟩
  have hone := atMost_isCash le_rfl 1 prices
  rw [Nat.cast_one] at hone
  exact (I.maxProfit_isCash le_rfl prices).unique hone

/-- Any number of trades. Without a fee the three functions give the same. -/
theorem maxProfit_unlimited (prices : List ℤ) (fee : ℤ) (hprices : prices ≠ []) (hfee : 0 ≤ fee) :
    (∀ gap ≤ 1, IsCash (price prices) 0 gap prices.length ⊤ (II.maxProfit prices) ∧
      IsCash (price prices) fee gap prices.length ⊤ (Fee.maxProfit prices fee)) ∧
    II.greedy prices = II.maxProfit prices ∧ II.maxProfit2 prices = II.maxProfit prices ∧
    ∃ v, Cooldown.maxProfit prices = some v ∧ IsCash (price prices) 0 2 prices.length ⊤ v := by
  have hsum : II.maxProfit2 prices = II.maxProfit prices := by
    rw [II.maxProfit_eq]
    exact (II.maxProfit2_isCash le_rfl prices).unique (Fee.maxProfit_isCash le_rfl le_rfl prices)
  refine ⟨fun gap hgap => ?_, (II.greedy_eq prices).trans hsum, hsum, Cooldown.maxProfit_isCash hprices⟩
  rw [II.maxProfit_eq]
  exact ⟨Fee.maxProfit_isCash hgap le_rfl prices, Fee.maxProfit_isCash hgap hfee prices⟩

theorem maxProfit_unlimited_three : II.greedy [1, 4, 2] = 3 ∧ II.maxProfit [1, 4, 2] = 3 ∧
    IsCash (price [1, 4, 2]) 1 1 3 ⊤ 2 := by
  obtain ⟨hbest, hgreedy, -, -⟩ := maxProfit_unlimited [1, 4, 2] 1 (by decide) (by decide)
  exact ⟨by decide, hgreedy.symm.trans (by decide), (hbest 1 le_rfl).2⟩

end GoodGoodStudy.LeetCode.MaxProfit
