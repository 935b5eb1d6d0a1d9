/-
JavaScript's numbers as operands of the bit operators: what is behind the point is dropped, and of the rest the last 32
bits are taken, with a sign. Every result of such an operator is a number of this kind, so that what a bit operator
computes from it again is computed without a loss.
-/
import Mathlib.Algebra.Order.Field.Rat
import Mathlib.Algebra.Order.Ring.Cast

namespace GoodGoodStudy.Js

/-- A double: the finite ones by their values. -/
inductive Number
  | finite (q : ℚ)
  | infinity
  | negInfinity
  | nan
  deriving DecidableEq

namespace Number

/-- The integer without what is behind the point. -/
def truncate (q : ℚ) : ℤ := q.num.tdiv q.den

def toInt32 : Number → BitVec 32
  | finite q => BitVec.ofInt 32 (truncate q)
  | infinity => 0
  | negInfinity => 0
  | nan => 0

def ofInt32 (b : BitVec 32) : Number := finite b.toInt

/-- `a ^ b` -/
def xor (a b : Number) : Number := ofInt32 (a.toInt32 ^^^ b.toInt32)

def NonNeg : Number → Prop
  | finite q => 0 ≤ q
  | infinity => True
  | negInfinity => False
  | nan => False

instance : DecidablePred NonNeg
  | finite q => inferInstanceAs (Decidable (0 ≤ q))
  | infinity => inferInstanceAs (Decidable True)
  | negInfinity => inferInstanceAs (Decidable False)
  | nan => inferInstanceAs (Decidable False)

theorem truncate_intCast (n : ℤ) : truncate n = n := by
  unfold truncate
  rw [Rat.num_intCast, Rat.den_intCast]
  exact Int.tdiv_one n

theorem toInt32_intCast (n : ℤ) : (finite n).toInt32 = BitVec.ofInt 32 n :=
  congrArg (BitVec.ofInt 32) (truncate_intCast n)

theorem toInt32_ofInt32 (b : BitVec 32) : (ofInt32 b).toInt32 = b :=
  (toInt32_intCast b.toInt).trans BitVec.ofInt_toInt

theorem nonNeg_ofInt32 (b : BitVec 32) : (ofInt32 b).NonNeg ↔ 0 ≤ b.toInt := Int.cast_nonneg_iff

/-- To apply the operator twice with one operand leaves the 32 bits of the other one. -/
theorem xor_xor (a b : Number) : (a.xor b).xor b = ofInt32 a.toInt32 := by
  unfold xor
  rw [toInt32_ofInt32, BitVec.xor_assoc, BitVec.xor_self, BitVec.xor_zero]

/-- A number that is not negative is its 32 bits, exactly if it is an integer with 31 bits. -/
theorem ofInt32_toInt32_eq_iff {a : Number} (ha : a.NonNeg) :
    ofInt32 a.toInt32 = a ↔ ∃ n : ℕ, a = finite n ∧ n < 2 ^ 31 := by
  constructor
  · intro h
    have hlt := BitVec.toInt_lt (x := a.toInt32)
    rw [← h, nonNeg_ofInt32] at ha
    obtain ⟨n, hn⟩ := Int.eq_ofNat_of_zero_le ha
    refine ⟨n, ?_, by omega⟩
    rw [← h, ofInt32, hn]
    rfl
  · rintro ⟨n, rfl, hn⟩
    have hbits : (BitVec.ofInt 32 n).toInt = n := by
      rw [BitVec.toInt_ofInt]
      exact Int.bmod_eq_of_le (by omega) (by omega)
    have hcast := toInt32_intCast n
    rw [Int.cast_natCast] at hcast
    rw [hcast, ofInt32, hbits, Int.cast_natCast]

end Number

end GoodGoodStudy.Js
