/-
Trades of one good: it is bought on a day and sold on a later one, and it is not bought again before some days (`gap`)
have passed since it was sold. What can be made of it at the most on the first days is computed day by day, with the good
sold and with the good in stock.
-/
import Mathlib.Algebra.BigOperators.Group.List.Basic
import Mathlib.Algebra.Order.Group.MinMax
import Mathlib.Data.ENat.Basic
import Mathlib.Order.Bounds.Basic
import Mathlib.Tactic.Abel

namespace GoodGoodStudy.Lib

/-- The days of the purchases and of the sales, in their order. -/
structure IsTrades (gap n : ℕ) (ts : List (ℕ × ℕ)) : Prop where
  days : ∀ t ∈ ts, t.1 < t.2 ∧ t.2 < n
  apart : ts.Pairwise fun t t' => t.2 + gap ≤ t'.1

variable {gap n : ℕ} {ts : List (ℕ × ℕ)} {k : ℕ∞}

theorem isTrades_nil : IsTrades gap n [] := ⟨fun _ ht => absurd ht List.not_mem_nil, List.Pairwise.nil⟩

theorem IsTrades.mono {m : ℕ} (h : IsTrades gap n ts) (hnm : n ≤ m) : IsTrades gap m ts :=
  ⟨fun t ht => ⟨(h.days t ht).1, (h.days t ht).2.trans_le hnm⟩, h.apart⟩

/-- The last trade, and those before it. -/
theorem isTrades_concat_iff {b s : ℕ} :
    IsTrades gap n (ts ++ [(b, s)]) ↔ b < s ∧ s < n ∧ IsTrades gap (b + 1 - gap) ts := by
  constructor
  · rintro ⟨hdays, hapart⟩
    obtain ⟨hts, -, hlast⟩ := List.pairwise_append.1 hapart
    obtain ⟨hb, hs⟩ := hdays (b, s) (List.mem_append_right ts (List.mem_singleton_self _))
    refine ⟨hb, hs, ⟨fun t ht => ⟨(hdays t (List.mem_append_left _ ht)).1, ?_⟩, hts⟩⟩
    have hgap := hlast t ht (b, s) (List.mem_singleton_self _)
    omega
  · rintro ⟨hb, hs, hdays, hts⟩
    refine ⟨fun t ht => ?_, List.pairwise_append.2 ⟨hts, List.pairwise_singleton _ _, fun t ht t' ht' => ?_⟩⟩
    · rcases List.mem_append.1 ht with ht | ht
      · have hday := hdays t ht
        omega
      · rw [List.mem_singleton.1 ht]
        exact ⟨hb, hs⟩
    · rw [List.mem_singleton.1 ht']
      have hday := hdays t ht
      omega

/-- On the last day nothing is sold, or the last trade ends. -/
theorem isTrades_succ_iff : IsTrades gap (n + 1) ts ↔
    IsTrades gap n ts ∨ ∃ us b, ts = us ++ [(b, n)] ∧ b < n ∧ IsTrades gap (b + 1 - gap) us := by
  constructor
  · intro h
    rcases List.eq_nil_or_concat ts with rfl | ⟨us, ⟨b, s⟩, rfl⟩
    · exact Or.inl isTrades_nil
    · rw [List.concat_eq_append] at h ⊢
      obtain ⟨hb, hs, hus⟩ := isTrades_concat_iff.1 h
      rcases Nat.lt_succ_iff_lt_or_eq.1 hs with hs | rfl
      · exact Or.inl (isTrades_concat_iff.2 ⟨hb, hs, hus⟩)
      · exact Or.inr ⟨us, b, rfl, hb, hus⟩
  · rintro (h | ⟨us, b, rfl, hb, hus⟩)
    · exact h.mono n.le_succ
    · exact isTrades_concat_iff.2 ⟨hb, Nat.lt_succ_self n, hus⟩

theorem eq_nil_of_isTrades (h : IsTrades gap n ts) (hn : n ≤ 1) : ts = [] := by
  refine List.eq_nil_iff_forall_not_mem.2 fun t ht => ?_
  have hday := h.days t ht
  omega

theorem length_concat_le_iff {t : ℕ × ℕ} : ((ts ++ [t]).length : ℕ∞) ≤ k + 1 ↔ (ts.length : ℕ∞) ≤ k := by
  rw [List.length_append, List.length_singleton, Nat.cast_add, Nat.cast_one]
  exact ENat.add_le_add_iff_right ENat.one_ne_top

/-! ## What can be made of it -/

section Profit

variable {V : Type*} [AddCommGroup V]

/-- Every trade costs a fee. -/
def profit (price : ℕ → V) (fee : V) (ts : List (ℕ × ℕ)) : V := (ts.map fun t => price t.2 - price t.1 - fee).sum

theorem profit_concat {price : ℕ → V} {fee : V} {b s : ℕ} :
    profit price fee (ts ++ [(b, s)]) = profit price fee ts - price b - fee + price s := by
  rw [profit, List.map_append, List.sum_append, List.map_singleton, List.sum_singleton]
  show profit price fee ts + _ = _
  abel

/-- The greatest profit of at most `k` trades on the first `n` days. -/
def IsCash [LE V] (price : ℕ → V) (fee : V) (gap n : ℕ) (k : ℕ∞) : V → Prop :=
  IsGreatest {x | ∃ ts, IsTrades gap n ts ∧ (ts.length : ℕ∞) ≤ k ∧ profit price fee ts = x}

/-- The greatest profit of at most `k` trades and one more purchase on the first `n` days. -/
def IsStock [LE V] (price : ℕ → V) (fee : V) (gap n : ℕ) (k : ℕ∞) : V → Prop :=
  IsGreatest {x | ∃ ts b, b < n ∧ IsTrades gap (b + 1 - gap) ts ∧ (ts.length : ℕ∞) ≤ k ∧
    profit price fee ts - price b - fee = x}

variable [LinearOrder V] {price : ℕ → V} {fee c v : V}

theorem isCash_of_le_one (hn : n ≤ 1) : IsCash price fee gap n k 0 := by
  refine ⟨⟨[], isTrades_nil, zero_le, rfl⟩, ?_⟩
  rintro x ⟨ts, hts, -, rfl⟩
  rw [eq_nil_of_isTrades hts hn]
  exact le_rfl

/-- Without trades. -/
theorem isCash_zero : IsCash price fee gap n 0 0 := by
  refine ⟨⟨[], isTrades_nil, zero_le, rfl⟩, ?_⟩
  rintro x ⟨ts, -, hlen, rfl⟩
  rw [List.length_eq_zero_iff.1 (Nat.cast_eq_zero.1 (nonpos_iff_eq_zero.1 hlen))]
  exact le_rfl

theorem isStock_one : IsStock price fee gap 1 k (0 - price 0 - fee) := by
  refine ⟨⟨[], 0, Nat.one_pos, isTrades_nil, zero_le, rfl⟩, ?_⟩
  rintro x ⟨ts, b, hb, hts, -, rfl⟩
  obtain rfl : b = 0 := by omega
  rw [eq_nil_of_isTrades hts (by omega)]
  exact le_rfl

/-- What can be made up to a day with the good sold, and with the good in stock. -/
structure IsDay (price : ℕ → V) (fee : V) (gap n : ℕ) (k : ℕ∞) (d : V × V) : Prop where
  cash : IsCash price fee gap n (k + 1) d.1
  stock : IsStock price fee gap n k d.2

theorem isDay_one : IsDay price fee gap 1 k (0, 0 - price 0 - fee) := ⟨isCash_of_le_one le_rfl, isStock_one⟩

variable [IsOrderedAddMonoid V]

/-- On one more day nothing is sold, or what is in stock is. -/
theorem IsCash.succ (hc : IsCash price fee gap n (k + 1) c) (hv : IsStock price fee gap n k v) :
    IsCash price fee gap (n + 1) (k + 1) (max c (v + price n)) := by
  obtain ⟨⟨ts, hts, hlen, hprofit⟩, hle⟩ := hc
  obtain ⟨⟨us, b, hb, hus, hlen', hprofit'⟩, hle'⟩ := hv
  constructor
  · rcases max_choice c (v + price n) with hmax | hmax
    · rw [hmax]
      exact ⟨ts, isTrades_succ_iff.2 (Or.inl hts), hlen, hprofit⟩
    · rw [hmax]
      exact ⟨us ++ [(b, n)], isTrades_succ_iff.2 (Or.inr ⟨us, b, rfl, hb, hus⟩), length_concat_le_iff.2 hlen',
        by rw [profit_concat, hprofit']⟩
  · rintro x ⟨ws, hws, hlen, rfl⟩
    rcases isTrades_succ_iff.1 hws with hws | ⟨us, b, rfl, hb, hus⟩
    · exact le_max_of_le_left (hle ⟨ws, hws, hlen, rfl⟩)
    · rw [profit_concat]
      exact le_max_of_le_right (add_le_add_left (hle' ⟨us, b, hb, hus, length_concat_le_iff.1 hlen, rfl⟩) _)

omit [IsOrderedAddMonoid V] in
/-- On one more day nothing is bought, or it is bought with `c`. -/
theorem IsStock.succ_of_bought (hv : IsStock price fee gap n k v)
    (hts : ∃ ts, IsTrades gap (n + 1 - gap) ts ∧ ts.length ≤ k ∧ profit price fee ts = c)
    (hle : ∀ ws, IsTrades gap (n + 1 - gap) ws → ws.length ≤ k →
      profit price fee ws - price n - fee ≤ max v (c - price n - fee)) :
    IsStock price fee gap (n + 1) k (max v (c - price n - fee)) := by
  obtain ⟨⟨us, b, hb, hus, hlen', hprofit'⟩, hle'⟩ := hv
  obtain ⟨ts, hts, hlen, hprofit⟩ := hts
  constructor
  · rcases max_choice v (c - price n - fee) with hmax | hmax
    · rw [hmax]
      exact ⟨us, b, Nat.lt_succ_of_lt hb, hus, hlen', hprofit'⟩
    · rw [hmax]
      exact ⟨ts, n, n.lt_succ_self, hts, hlen, by rw [hprofit]⟩
  · rintro x ⟨ws, b, hb, hws, hlen, rfl⟩
    rcases Nat.lt_succ_iff_lt_or_eq.1 hb with hb | rfl
    · exact le_max_of_le_left (hle' ⟨ws, b, hb, hws, hlen, rfl⟩)
    · exact hle ws hws hlen

/-- It is bought with what was made up to some days before. -/
theorem IsStock.succ (hv : IsStock price fee gap n k v) (hc : IsCash price fee gap (n + 1 - gap) k c) :
    IsStock price fee gap (n + 1) k (max v (c - price n - fee)) := by
  apply hv.succ_of_bought hc.1
  intro ws hws hlen
  exact le_max_of_le_right (sub_le_sub_right (sub_le_sub_right (hc.2 ⟨ws, hws, hlen, rfl⟩) _) _)

/-- To sell on a day and to buy again on it is not better than to keep what is in stock. -/
theorem IsStock.succ_of_gap_le (hgap : gap ≤ 1) (hfee : 0 ≤ fee) (hv : IsStock price fee gap n k v)
    (hc : IsCash price fee gap n k c) : IsStock price fee gap (n + 1) k (max v (c - price n - fee)) := by
  obtain ⟨⟨ts, hts, hlen, hprofit⟩, hle⟩ := hc
  apply hv.succ_of_bought ⟨ts, hts.mono (by omega), hlen, hprofit⟩
  intro ws hws hlen
  rcases isTrades_succ_iff.1 (hws.mono (Nat.sub_le _ _)) with hws | ⟨us, b', rfl, hb, hus⟩
  · exact le_max_of_le_right (sub_le_sub_right (sub_le_sub_right (hle ⟨ws, hws, hlen, rfl⟩) _) _)
  · have hlen'' : (us.length : ℕ∞) ≤ k := le_trans (Nat.cast_le.2 (by simp)) hlen
    have hkeep := hv.2 ⟨us, b', hb, hus, hlen'', rfl⟩
    rw [profit_concat, add_sub_cancel_right]
    exact le_max_of_le_left ((sub_le_self _ hfee).trans hkeep)

theorem IsDay.succ {d : V × V} (h : IsDay price fee gap n k d) (hgap : gap ≤ 1) (hfee : 0 ≤ fee)
    (hc : IsCash price fee gap n k c) :
    IsDay price fee gap (n + 1) k (max d.1 (d.2 + price n), max d.2 (c - price n - fee)) :=
  ⟨h.cash.succ h.stock, h.stock.succ_of_gap_le hgap hfee hc⟩

/-- Without a limit and a fee, every rise of the price from a day to the next is profit. -/
theorem IsDay.succ_rise (h : IsDay price 0 gap (n + 1) ⊤ (c, c - price n)) (hgap : gap ≤ 1) :
    IsDay price 0 gap (n + 2) ⊤ (c + max (price (n + 1) - price n) 0,
      c + max (price (n + 1) - price n) 0 - price (n + 1)) := by
  have hcash : max c (c - price n + price (n + 1)) = c + max (price (n + 1) - price n) 0 := by
    rw [← max_add_add_left, add_zero, max_comm, add_sub, sub_add_eq_add_sub]
  have hstock : max (c - price n) (c - price (n + 1) - 0) = c + max (price (n + 1) - price n) 0 - price (n + 1) := by
    rw [← hcash, sub_zero, ← max_sub_sub_right, add_sub_cancel_right, max_comm]
  have hday := h.succ hgap le_rfl h.cash
  rwa [hcash, hstock] at hday

end Profit

end GoodGoodStudy.Lib
