/-
The exercise 29, division without a division. The divisor is doubled and subtracted as long as this goes, and then
everything begins with the divisor itself again. What has been subtracted is the divisor as often as the result counts.
-/
import Mathlib.Algebra.Order.Group.Int
import Mathlib.Tactic.Ring
import GoodGoodStudy.Lib.Loop

namespace GoodGoodStudy.LeetCode.Divide

open GoodGoodStudy.Lib

/-! ## The code -/

/-- The variables of the inner loop. -/
structure Doubling where
  dividend : ℤ
  res : ℤ
  temp : ℤ
  i : ℤ

/-- A round of the inner loop. -/
def double (st : Doubling) : Round Doubling (ℤ × ℤ) :=
  if st.dividend ≥ st.temp then .again ⟨st.dividend - st.temp, st.res + st.i, st.temp <<< (1 : ℕ), st.i <<< (1 : ℕ)⟩
  else .leave (st.dividend, st.res)

/-- The outer loop, on `dividend` and `res`. -/
def subtract (divisor : ℤ) : ℕ → ℤ × ℤ → Option ℤ
  | 0, _ => none
  | fuel + 1, (dividend, res) =>
    if dividend ≥ divisor then do
      let st ← loop double fuel ⟨dividend, res, divisor, 1⟩
      subtract divisor fuel st
    else some res

def divide (dividend divisor : ℤ) (fuel : ℕ) : Option ℤ := do
  let positive := decide (dividend < 0) == decide (divisor < 0)
  let res ← subtract |divisor| fuel (|dividend|, 0)
  let res := if !positive then -res else res
  some (min (max (-2147483648) res) 2147483647)

example : divide 100 3 10 = some 33 := by decide

/-! ## The loops -/

variable {total divisor : ℤ} {st : Doubling}

/-- What is left of the dividend, and how often the divisor has been subtracted. -/
structure Left (total divisor dividend res : ℤ) : Prop where
  sum_eq : dividend + divisor * res = total
  nonneg : 0 ≤ dividend

/-- The variable `temp` is the divisor times `i`. -/
structure Doubled (total divisor : ℤ) (st : Doubling) : Prop extends Left total divisor st.dividend st.res where
  temp_eq : st.temp = divisor * st.i
  pos : 0 < st.temp

theorem Doubled.double (h : Doubled total divisor st) (hle : st.temp ≤ st.dividend) :
    Doubled total divisor ⟨st.dividend - st.temp, st.res + st.i, st.temp <<< (1 : ℕ), st.i <<< (1 : ℕ)⟩ where
  sum_eq := by
    rw [← h.sum_eq, h.temp_eq]
    ring
  nonneg := Int.sub_nonneg_of_le hle
  temp_eq := by
    rw [Int.shiftLeft_eq, Int.shiftLeft_eq, h.temp_eq, Int.mul_assoc]
  pos := by
    have hpos := h.pos
    show 0 < st.temp <<< (1 : ℕ)
    rw [Int.shiftLeft_eq]
    omega

theorem double_returns (h : Doubled total divisor st) : ∃ r : ℤ × ℤ, Returns (fun fuel => loop double fuel st) r ∧
    Left total divisor r.1 r.2 ∧ r.1 ≤ st.dividend := by
  have hround : ∀ st', Doubled total divisor st' ∧ st'.dividend ≤ st.dividend →
      (∃ st'', double st' = .again st'' ∧ (Doubled total divisor st'' ∧ st''.dividend ≤ st.dividend) ∧
        st''.dividend.toNat < st'.dividend.toNat) ∨
        ∃ r, double st' = .leave r ∧ Left total divisor r.1 r.2 ∧ r.1 ≤ st.dividend := by
    rintro st' ⟨h', hle⟩
    unfold Divide.double
    split_ifs with hge
    · have hpos := h'.pos
      refine Or.inl ⟨_, rfl, ⟨h'.double hge, ?_⟩, ?_⟩
      · dsimp only
        omega
      · dsimp only
        omega
    · exact Or.inr ⟨_, rfl, h'.toLeft, hle⟩
  exact Returns.loop_of_measure (fun st => st.dividend.toNat) hround ⟨h, le_rfl⟩

/-- The outer loop ends, since the inner one subtracts the divisor at least once. -/
theorem subtract_returns (hpos : 0 < divisor) (dividend res : ℤ) (h : Left total divisor dividend res) :
    Returns (fun fuel => subtract divisor fuel (dividend, res)) (total / divisor) := by
  induction hn : dividend.toNat using Nat.strong_induction_on generalizing dividend res with
  | _ n ih =>
    by_cases hge : dividend ≥ divisor
    · have hstart : Doubled total divisor ⟨dividend, res, divisor, 1⟩ := ⟨h, (Int.mul_one divisor).symm, hpos⟩
      obtain ⟨⟨dividend', res'⟩, hreturns, hleft, hle⟩ := double_returns (hstart.double hge)
      -- the first round of the inner loop subtracts the divisor itself
      have hloop : Returns (fun fuel => loop double fuel ⟨dividend, res, divisor, 1⟩) (dividend', res') :=
        Returns.again (if_pos hge) hreturns
      have hless : dividend' ≤ dividend - divisor := hle
      have hrec := ih dividend'.toNat (by omega) dividend' res' hleft rfl
      exact Returns.call (fun _ => if_pos hge) (hloop.bind (g := fun st fuel => subtract divisor fuel st) hrec)
    · have hres : total / divisor = res := by
        refine ((Int.ediv_emod_unique hpos).2 ⟨h.sum_eq, h.nonneg, not_le.1 hge⟩).1
      rw [hres]
      exact Returns.call (fun _ => if_neg hge) (Returns.pure res)

/-! ## The result -/

theorem tdiv_eq (dividend divisor : ℤ) : dividend.tdiv divisor =
    if !(decide (dividend < 0) == decide (divisor < 0)) then -(|dividend| / |divisor|) else |dividend| / |divisor| := by
  have habs : |dividend| / |divisor| = |dividend|.tdiv |divisor| := (Int.tdiv_eq_ediv_of_nonneg (abs_nonneg _)).symm
  rw [habs]
  rcases lt_or_ge dividend 0 with h | h <;> rcases lt_or_ge divisor 0 with h' | h'
  · simp [h, h', abs_of_neg]
  · simp [h, h', abs_of_neg, abs_of_nonneg, not_lt.2]
  · simp [h, h', abs_of_neg, abs_of_nonneg, not_lt.2]
  · simp [h, h', abs_of_nonneg, not_lt.2]

/-- The quotient is rounded towards zero, and kept in the range of 32 bits. -/
theorem divide_returns (dividend divisor : ℤ) (h : divisor ≠ 0) :
    Returns (divide dividend divisor) (min (max (-2 ^ 31) (dividend.tdiv divisor)) (2 ^ 31 - 1)) := by
  have hstart : Left |dividend| |divisor| |dividend| 0 := ⟨by rw [Int.mul_zero, Int.add_zero], abs_nonneg dividend⟩
  have hreturns := subtract_returns (abs_pos.2 h) |dividend| 0 hstart
  rw [tdiv_eq]
  exact hreturns.bind (g := fun res _ => some (min (max (-2147483648)
    (if !(decide (dividend < 0) == decide (divisor < 0)) then -res else res)) 2147483647)) (Returns.pure _)

theorem divide_returns_overflow : Returns (divide (-2147483648) (-1))
    (min (max (-2 ^ 31) ((-2147483648 : ℤ).tdiv (-1))) (2 ^ 31 - 1)) :=
  divide_returns (-2147483648) (-1) (by decide)

end GoodGoodStudy.LeetCode.Divide
