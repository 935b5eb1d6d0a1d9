/-
887. 鸡蛋掉落: the number of throws that are enough, in the worst case, to find the floor with `k` eggs and `n` floors.
The floor of the next throw is looked for by binary search, and the results are kept in `memo`.
-/
import Mathlib.Algebra.Order.Monoid.WithTop
import Mathlib.Data.Finset.Lattice.Fold
import Mathlib.Data.Fintype.Basic
import Mathlib.Data.Int.ConditionallyCompleteOrder
import Mathlib.Order.Lattice.Nat
import GoodGoodStudy.Lib.Crossing
import GoodGoodStudy.Lib.Dict
import GoodGoodStudy.Lib.Loop

namespace GoodGoodStudy.LeetCode.SuperEggDrop

open GoodGoodStudy.Lib

/-- Numbers, and `float('INF')`. -/
abbrev Throws := WithTop ℤ

instance : Min Throws := LinearOrder.toMin

instance : LT Throws := (WithTop.linearOrder : LinearOrder Throws).toLT

abbrev Memo := Dict (ℤ × ℤ) Throws

mutual

def dp : ℕ → Memo → ℤ → ℤ → Option (Throws × Memo)
  | 0, _, _, _ => none
  | fuel + 1, memo, K, N =>
    if K = 1 then some (N, memo)
    else if N = 0 then some (0, memo)
    else
      match memo.get? (K, N) with
      | some res => some (res, memo)
      | none => do
        let (res, memo) ← search fuel memo K N 1 N ⊤
        return (res, memo.set (K, N) res)

/-- The loop in `dp`. -/
def search : ℕ → Memo → ℤ → ℤ → ℤ → ℤ → Throws → Option (Throws × Memo)
  | 0, _, _, _, _, _, _ => none
  | fuel + 1, memo, K, N, lo, hi, res =>
    if lo ≤ hi then do
      let mid := (lo + hi) / 2
      let (broken, memo) ← dp fuel memo (K - 1) (mid - 1)
      let (not_broken, memo) ← dp fuel memo K (N - mid)
      if broken > not_broken then search fuel memo K N lo (mid - 1) (min res (broken + 1))
      else search fuel memo K N (mid + 1) hi (min res (not_broken + 1))
    else some (res, memo)

end

def superEggDrop (k n : ℤ) (fuel : ℕ) : Option Throws := do
  let (res, _) ← dp fuel Dict.empty k n
  return res

/-! ## The recurrence -/

/-- `f(k, 0) = 0`, `f(1, n) = n`, and `f(k, n)` is one more than the least of the values, over the floors `x` of the
first throw, that the worse of the two cases can have: the egg breaks, or it does not. -/
def eggs : ℕ → ℕ → ℕ
  | 0, _ => 0
  | 1, n => n
  | _ + 2, 0 => 0
  | k + 2, n + 1 => 1 + Finset.univ.inf' Finset.univ_nonempty fun x : Fin (n + 1) =>
      max (eggs (k + 1) x) (eggs (k + 2) (n - x))
termination_by k n => (k, n)

variable {k n : ℕ}

theorem eggs_zero (k : ℕ) : eggs k 0 = 0 := by
  match k with
  | 0 => rw [eggs]
  | 1 => rw [eggs]
  | k + 2 => rw [eggs]

theorem eggs_one (n : ℕ) : eggs 1 n = n := by rw [eggs]

theorem eggs_isLeast (hk : 2 ≤ k) (hn : 1 ≤ n) :
    IsLeast {y | ∃ x, 1 ≤ x ∧ x ≤ n ∧ y = 1 + max (eggs (k - 1) (x - 1)) (eggs k (n - x))} (eggs k n) := by
  obtain ⟨k, rfl⟩ := Nat.exists_eq_add_of_le' hk
  obtain ⟨n, rfl⟩ := Nat.exists_eq_add_of_le' hn
  rw [eggs]
  constructor
  · obtain ⟨x, -, hx⟩ := Finset.exists_mem_eq_inf' Finset.univ_nonempty fun x : Fin (n + 1) =>
      max (eggs (k + 1) x) (eggs (k + 2) (n - x))
    refine ⟨x + 1, by omega, by omega, ?_⟩
    rw [hx, Nat.add_sub_cancel, Nat.add_sub_add_right]
    rfl
  · rintro _ ⟨x, hx, hxn, rfl⟩
    have hle := Finset.inf'_le (fun x : Fin (n + 1) => max (eggs (k + 1) x) (eggs (k + 2) (n - x)))
      (Finset.mem_univ (⟨x - 1, by omega⟩ : Fin (n + 1)))
    have hsub : n - (x - 1) = n + 1 - x := by omega
    simp only [hsub] at hle
    exact Nat.add_le_add_left hle 1

/-- More floors do not need fewer throws: without the last floor, a first throw from it is made from the one below. -/
theorem eggs_le_succ (k n : ℕ) : eggs k n ≤ eggs k (n + 1) := by
  induction k using Nat.strong_induction_on generalizing n with
  | _ k ihk =>
    induction n using Nat.strong_induction_on with
    | _ n ihn =>
      by_cases hk : 2 ≤ k
      · cases n with
        | zero =>
          rw [eggs_zero]
          exact Nat.zero_le _
        | succ m =>
          obtain ⟨⟨x, hx, hxn, heq⟩, -⟩ := eggs_isLeast hk (by omega : 1 ≤ m + 1 + 1)
          have hle := (eggs_isLeast hk (by omega : 1 ≤ m + 1)).2
          rw [heq]
          by_cases hlast : x ≤ m + 1
          · refine (hle ⟨x, hx, hlast, rfl⟩).trans (Nat.add_le_add_left (max_le_max le_rfl ?_) 1)
            rw [Nat.sub_add_comm hlast]
            exact ihn (m + 1 - x) (by omega)
          · -- the first throw was from the last floor
            obtain rfl : x = m + 2 := by omega
            refine (hle ⟨m + 1, by omega, le_rfl, rfl⟩).trans (Nat.add_le_add_left (max_le_max ?_ ?_) 1)
            · exact ihk (k - 1) (by omega) m
            · rw [Nat.sub_self, eggs_zero]
              exact Nat.zero_le _
      · obtain rfl | rfl : k = 0 ∨ k = 1 := by omega
        · rw [eggs, eggs]
        · rw [eggs_one, eggs_one]
          exact Nat.le_succ n

theorem eggs_mono (k : ℕ) : Monotone (eggs k) := monotone_nat_of_le_succ (eggs_le_succ k)

/-! ## The search -/

def throws (m : ℕ) : Throws := ((m : ℤ) : WithTop ℤ)

theorem throws_le {a b : ℕ} : throws a ≤ throws b ↔ a ≤ b := by
  rw [throws, throws, WithTop.coe_le_coe, Int.ofNat_le]

theorem throws_succ (a : ℕ) : throws a + 1 = throws (a + 1) := rfl

/-- What `memo` holds is right. -/
def MemoOk (memo : Memo) : Prop :=
  ∀ (K N : ℕ) (v : Throws), 1 ≤ K → memo.get? ((K : ℤ), (N : ℤ)) = some v → v = throws (eggs K N)

theorem MemoOk.empty : MemoOk Dict.empty := fun K N v _ h => by cases h

theorem MemoOk.set {memo : Memo} (h : MemoOk memo) (K N : ℕ) :
    MemoOk (memo.set ((K : ℤ), (N : ℤ)) (throws (eggs K N))) := by
  intro K' N' v hK' hv
  rw [Dict.get?_set] at hv
  split_ifs at hv with heq
  · obtain ⟨hKK, hNN⟩ := Prod.mk.inj heq
    obtain rfl : K' = K := by omega
    obtain rfl : N' = N := by omega
    exact (Option.some.inj hv).symm
  · exact h K' N' v hK' hv

/-- The call returns the number of throws, and what it adds to `memo` is right. -/
def DpOk (K N : ℕ) : Prop :=
  ∀ memo, MemoOk memo → ∃ memo', Returns (fun fuel => dp fuel memo K N) (throws (eggs K N), memo') ∧ MemoOk memo'

/-- One more than the number of throws when the egg breaks on the floor `x`. -/
abbrev breaks (K x : ℕ) : Throws := throws (eggs (K - 1) (x - 1)) + 1

abbrev holds (K N x : ℕ) : Throws := throws (eggs K (N - x)) + 1

theorem breaks_mono (K N : ℕ) (x y : ℕ) (hxy : x ≤ y) (_ : y ≤ N) : breaks K x ≤ breaks K y := by
  simp only [breaks, throws_succ, throws_le]
  exact Nat.add_le_add_right (eggs_mono _ (by omega)) 1

theorem holds_anti (K N : ℕ) (x y : ℕ) (hxy : x ≤ y) (_ : y ≤ N) : holds K N y ≤ holds K N x := by
  simp only [holds, throws_succ, throws_le]
  exact Nat.add_le_add_right (eggs_mono _ (by omega)) 1

theorem max_breaks_holds (K N x : ℕ) :
    max (breaks K x) (holds K N x) = throws (1 + max (eggs (K - 1) (x - 1)) (eggs K (N - x))) := by
  have hmono : Monotone throws := fun a b hab => throws_le.2 hab
  rw [breaks, holds, throws_succ, throws_succ, ← hmono.map_max, Nat.add_comm 1, Nat.add_max_add_right]

theorem throws_isLeast {K N : ℕ} (hK : 2 ≤ K) (hN : 1 ≤ N) :
    IsLeast (Maxima (breaks K) (holds K N) N) (throws (eggs K N)) := by
  obtain ⟨⟨x, hx, hxn, heq⟩, hle⟩ := eggs_isLeast hK hN
  constructor
  · exact ⟨x, hx, hxn, by rw [max_breaks_holds, heq]⟩
  · rintro _ ⟨y, hy, hyn, rfl⟩
    rw [max_breaks_holds, throws_le]
    exact hle ⟨y, hy, hyn, rfl⟩

/-- A round of the loop, from what the two calls return. -/
theorem search_round {K N lo hi mid : ℕ} {res : Throws} {memo memo₁ memo₂ : Memo} {r : Throws × Memo} (hle : lo ≤ hi)
    (hlo : 1 ≤ lo) (hhi : hi ≤ N) (hK : 1 ≤ K) (hmid : (lo + hi) / 2 = mid)
    (hbreaks : Returns (fun fuel => dp fuel memo (K - 1 : ℕ) (mid - 1 : ℕ)) (throws (eggs (K - 1) (mid - 1)), memo₁))
    (hholds : Returns (fun fuel => dp fuel memo₁ K (N - mid : ℕ)) (throws (eggs K (N - mid)), memo₂))
    (hnext : Returns (fun fuel => if throws (eggs (K - 1) (mid - 1)) > throws (eggs K (N - mid))
      then search fuel memo₂ K N lo (mid - 1 : ℕ) (min res (breaks K mid))
      else search fuel memo₂ K N (mid + 1 : ℕ) hi (min res (holds K N mid))) r) :
    Returns (fun fuel => search fuel memo K N lo hi res) r := by
  have hcast : ((lo : ℤ) + hi) / 2 = mid := by omega
  have hK' : (K : ℤ) - 1 = (K - 1 : ℕ) := by omega
  have hmid' : (mid : ℤ) - 1 = (mid - 1 : ℕ) := by omega
  have hN' : (N : ℤ) - mid = (N - mid : ℕ) := by omega
  apply Returns.call (fun fuel => by rw [search, if_pos (by omega)])
  simp only [hcast, hK', hmid', hN']
  exact hbreaks.bind (hholds.bind hnext)

/-- If the calls are right, the loop returns the least of the values. -/
theorem search_returns {K N : ℕ} (hK : 2 ≤ K) (hN : 1 ≤ N) (hbreaks : ∀ x, 1 ≤ x → x ≤ N → DpOk (K - 1) (x - 1))
    (hholds : ∀ x, 1 ≤ x → x ≤ N → DpOk K (N - x)) {lo hi : ℕ} {res : Throws} {memo : Memo}
    (h : Narrowed (breaks K) (holds K N) N lo hi res) (hlo : 1 ≤ lo) (hhi : hi ≤ N) (hmemo : MemoOk memo) :
    ∃ memo', Returns (fun fuel => search fuel memo K N lo hi res) (throws (eggs K N), memo') ∧ MemoOk memo' := by
  induction hm : hi + 1 - lo using Nat.strong_induction_on generalizing lo hi res memo with
  | _ m ih =>
    by_cases hle : lo ≤ hi
    · generalize hmid : (lo + hi) / 2 = mid
      obtain ⟨memo₁, hreturns₁, hmemo₁⟩ := hbreaks mid (by omega) (by omega) memo hmemo
      obtain ⟨memo₂, hreturns₂, hmemo₂⟩ := hholds mid (by omega) (by omega) memo₁ hmemo₁
      by_cases hgt : throws (eggs (K - 1) (mid - 1)) > throws (eggs K (N - mid))
      · -- from the floor `mid` on it is worse if the egg breaks
        have hlt : holds K N mid < breaks K mid := by
          simp only [gt_iff_lt, breaks, holds, throws_succ, lt_iff_not_ge, throws_le] at hgt ⊢
          omega
        obtain ⟨memo', hreturns, hmemo'⟩ := ih _ (by omega)
          (h.before (breaks_mono K N) (by omega) (by omega) hlt) hlo (by omega) hmemo₂ rfl
        refine ⟨memo', search_round hle hlo hhi (by omega) hmid hreturns₁ hreturns₂ ?_, hmemo'⟩
        simp only [if_pos hgt]
        exact hreturns
      · -- up to the floor `mid` it is not better if it does not break
        have hle' : breaks K mid ≤ holds K N mid := by
          simp only [gt_iff_lt, not_lt, breaks, holds, throws_succ, throws_le] at hgt ⊢
          omega
        obtain ⟨memo', hreturns, hmemo'⟩ := ih _ (by omega)
          (h.behind (holds_anti K N) (by omega) (by omega) hle') (by omega) hhi hmemo₂ rfl
        refine ⟨memo', search_round hle hlo hhi (by omega) hmid hreturns₁ hreturns₂ ?_, hmemo'⟩
        simp only [if_neg hgt]
        exact hreturns
    · refine ⟨memo, Returns.call (fun fuel => by rw [search, if_neg (by omega)]) ?_, hmemo⟩
      rw [(throws_isLeast hK hN).unique (h.isLeast (by omega) hN)]
      exact Returns.pure _

theorem dp_ok (K N : ℕ) (hK : 1 ≤ K) : DpOk K N := by
  induction K using Nat.strong_induction_on generalizing N with
  | _ K ihK =>
    induction N using Nat.strong_induction_on with
    | _ N ihN =>
      intro memo hmemo
      by_cases hone : K = 1
      · subst hone
        refine ⟨memo, Returns.call (fun fuel => by rw [dp, if_pos (by omega)]) ?_, hmemo⟩
        rw [eggs_one]
        exact Returns.pure _
      by_cases hzero : N = 0
      · subst hzero
        refine ⟨memo, Returns.call (fun fuel => by rw [dp, if_neg (by omega), if_pos (by omega)]) ?_, hmemo⟩
        rw [eggs_zero]
        exact Returns.pure _
      have hdp : ∀ fuel, dp (fuel + 1) memo K N = match memo.get? ((K : ℤ), (N : ℤ)) with
          | some res => some (res, memo)
          | none => do
            let (res, memo) ← search fuel memo K N 1 N ⊤
            return (res, memo.set ((K : ℤ), (N : ℤ)) res) := fun fuel => by
        rw [dp, if_neg (by omega), if_neg (by omega)]
      cases hget : memo.get? ((K : ℤ), (N : ℤ)) with
      | some res =>
        obtain rfl := hmemo K N res hK hget
        simp only [hget] at hdp
        exact ⟨memo, Returns.call hdp (Returns.pure _), hmemo⟩
      | none =>
        simp only [hget] at hdp
        obtain ⟨memo', hreturns, hmemo'⟩ := search_returns (by omega : 2 ≤ K) (by omega : 1 ≤ N)
          (fun x _ _ => ihK (K - 1) (by omega) (x - 1) (by omega)) (fun x hx _ => ihN (N - x) (by omega))
          (Narrowed.init _ _ N) le_rfl le_rfl hmemo
        exact ⟨_, Returns.call hdp (hreturns.bind (Returns.pure _)), hmemo'.set K N⟩

theorem superEggDrop_returns (K N : ℕ) (hK : 1 ≤ K) : Returns (superEggDrop K N) (throws (eggs K N)) := by
  obtain ⟨memo, hreturns, -⟩ := dp_ok K N hK Dict.empty MemoOk.empty
  exact hreturns.bind (Returns.pure _)

theorem superEggDrop_two_six : Returns (superEggDrop (2 : ℕ) (6 : ℕ)) (throws (eggs 2 6)) :=
  superEggDrop_returns 2 6 (by decide)

end GoodGoodStudy.LeetCode.SuperEggDrop
