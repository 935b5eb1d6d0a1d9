/-
Cursors that count from the high bit down. Read in the reversed order of their bits, the words that agree in their
lowest `m` bits are an interval, a block of the words behind each other. So an iteration over `2 ^ m` buckets that are
chosen by the lowest bits goes through the words from left to right, whatever `m` is at each of its steps.
-/
import Mathlib.Data.Nat.Basic
import Mathlib.Tactic.Linarith

namespace GoodGoodStudy.Lib.Cursor

variable {w : ℕ}

/-- The place of a word in the reversed order. -/
def pos (v : BitVec w) : ℕ := v.reverse.toNat

/-- The mask of the lowest `m` bits. -/
def low (w m : ℕ) : BitVec w := BitVec.ofNat w (2 ^ m - 1)

/-- The first word behind the block of a word, `0` behind the last block. -/
def next (m : ℕ) (v : BitVec w) : BitVec w := ((v ||| ~~~low w m).reverse + 1).reverse

theorem pos_lt (v : BitVec w) : pos v < 2 ^ w := v.reverse.isLt

@[simp] theorem pos_zero : pos (0 : BitVec w) = 0 := by
  have h : (0 : BitVec w).reverse = 0 := BitVec.reverse_eq_zero_iff.2 rfl
  rw [pos, h]
  rfl

theorem pos_eq_zero {v : BitVec w} : pos v = 0 ↔ v = 0 := by
  have h : v.reverse.toNat = (0 : BitVec w).toNat ↔ v.reverse = 0 := BitVec.toNat_inj
  exact h.trans BitVec.reverse_eq_zero_iff

theorem testBit_pos {v : BitVec w} {i : ℕ} (h : i < w) : (pos v).testBit i = v.getLsbD (w - 1 - i) := by
  rw [pos, BitVec.testBit_toNat, BitVec.getLsbD_reverse, BitVec.getMsbD_eq_getLsbD, decide_eq_true h, Bool.true_and]

theorem testBit_pos_ge {v : BitVec w} {i : ℕ} (h : w ≤ i) : (pos v).testBit i = false :=
  Nat.testBit_lt_two_pow (lt_of_lt_of_le (pos_lt v) (Nat.pow_le_pow_right Nat.two_pos h))

theorem getLsbD_low {m i : ℕ} (h : i < w) : (low w m).getLsbD i = decide (i < m) := by
  rw [low, BitVec.getLsbD_ofNat, Nat.testBit_two_pow_sub_one, decide_eq_true h, Bool.true_and]

/-- The block of a word consists of the words with the same lowest bits. -/
theorem and_low_eq_iff {m : ℕ} (hm : m ≤ w) {v v' : BitVec w} :
    v &&& low w m = v' &&& low w m ↔ pos v / 2 ^ (w - m) = pos v' / 2 ^ (w - m) := by
  constructor
  · intro h
    apply Nat.eq_of_testBit_eq
    intro i
    rw [Nat.testBit_div_two_pow, Nat.testBit_div_two_pow]
    rcases Nat.lt_or_ge (i + (w - m)) w with hi | hi
    · have hbit := congrArg (fun u => u.getLsbD (w - 1 - (i + (w - m)))) h
      simp only [BitVec.getLsbD_and] at hbit
      rwa [getLsbD_low (by omega), decide_eq_true (by omega), Bool.and_true, Bool.and_true, ← testBit_pos hi,
        ← testBit_pos hi] at hbit
    · rw [testBit_pos_ge hi, testBit_pos_ge hi]
  · intro h
    apply BitVec.eq_of_getLsbD_eq
    intro i hi
    rw [BitVec.getLsbD_and, BitVec.getLsbD_and, getLsbD_low hi]
    rcases Nat.lt_or_ge i m with him | him
    · have hbit := congrArg (fun n => n.testBit (m - 1 - i)) h
      simp only [Nat.testBit_div_two_pow] at hbit
      have hidx : w - 1 - (m - 1 - i + (w - m)) = i := by omega
      rw [testBit_pos (by omega), testBit_pos (by omega), hidx] at hbit
      rw [hbit]
    · rw [decide_eq_false (Nat.not_lt.2 him), Bool.and_false, Bool.and_false]

/-- The last word of the block. -/
theorem pos_or_not_low {m : ℕ} (hm : m ≤ w) (v : BitVec w) :
    pos (v ||| ~~~low w m) = pos v / 2 ^ (w - m) * 2 ^ (w - m) + (2 ^ (w - m) - 1) := by
  have hpos : 0 < 2 ^ (w - m) := Nat.two_pow_pos _
  apply Nat.eq_of_testBit_eq
  intro i
  rw [Nat.mul_comm, Nat.testBit_two_pow_mul_add _ (by omega), Nat.testBit_two_pow_sub_one]
  rcases Nat.lt_or_ge i w with hi | hi
  · rw [testBit_pos hi, BitVec.getLsbD_or, BitVec.getLsbD_not, getLsbD_low (by omega), decide_eq_true (by omega : w - 1 - i < w),
      Bool.true_and]
    split_ifs with him
    · rw [decide_eq_false (by omega), decide_eq_true him, Bool.not_false, Bool.or_true]
    · rw [decide_eq_true (by omega), Bool.not_true, Bool.or_false, Nat.testBit_div_two_pow, Nat.sub_add_cancel (by omega),
        testBit_pos hi]
  · rw [testBit_pos_ge hi]
    split_ifs with him
    · omega
    · rw [Nat.testBit_div_two_pow, testBit_pos_ge (by omega)]

/-- The cursor goes to the beginning of the next block, and from the last block to `0`. -/
theorem pos_next {m : ℕ} (hm : m ≤ w) (v : BitVec w) :
    pos (next m v) = (pos v / 2 ^ (w - m) + 1) * 2 ^ (w - m) % 2 ^ w := by
  have hlast := pos_or_not_low hm v
  have hpos : 0 < 2 ^ (w - m) := Nat.two_pow_pos _
  rw [pos] at hlast
  rw [pos, next, BitVec.reverse_reverse_eq, BitVec.toNat_add, hlast, Nat.add_mul, Nat.one_mul]
  rcases Nat.eq_zero_or_pos w with rfl | hw
  · rw [Nat.pow_zero, Nat.mod_one, Nat.mod_one]
  · have hone : (1 : BitVec w).toNat = 1 := by
      exact Nat.mod_eq_of_lt (Nat.one_lt_two_pow (Nat.pos_iff_ne_zero.1 hw))
    rw [hone, Nat.add_assoc, Nat.sub_add_cancel hpos]

/-- The places up to the next cursor; behind the last block is the end. -/
def limit (v : BitVec w) : ℕ := if v = 0 then 2 ^ w else pos v

theorem limit_next {m : ℕ} (hm : m ≤ w) (v : BitVec w) :
    limit (next m v) = (pos v / 2 ^ (w - m) + 1) * 2 ^ (w - m) := by
  have hnext := pos_next hm v
  have hdiv : pos v / 2 ^ (w - m) < 2 ^ m := by
    rw [Nat.div_lt_iff_lt_mul (Nat.two_pow_pos _), ← Nat.pow_add, Nat.add_sub_cancel' hm]
    exact pos_lt v
  have hle : (pos v / 2 ^ (w - m) + 1) * 2 ^ (w - m) ≤ 2 ^ w := by
    calc (pos v / 2 ^ (w - m) + 1) * 2 ^ (w - m) ≤ 2 ^ m * 2 ^ (w - m) := Nat.mul_le_mul_right _ hdiv
      _ = 2 ^ w := by rw [← Nat.pow_add, Nat.add_sub_cancel' hm]
  rw [limit]
  split_ifs with hz
  · rw [hz, pos_zero] at hnext
    rcases Nat.lt_or_eq_of_le hle with hlt | heq
    · rw [Nat.mod_eq_of_lt hlt] at hnext
      exact absurd hnext.symm (Nat.mul_ne_zero (Nat.succ_ne_zero _) (Nat.two_pow_pos _).ne')
    · exact heq.symm
  · rcases Nat.lt_or_eq_of_le hle with hlt | heq
    · rw [hnext, Nat.mod_eq_of_lt hlt]
    · rw [heq, Nat.mod_self, pos_eq_zero] at hnext
      exact absurd hnext hz

theorem pos_lt_limit_next {m : ℕ} (hm : m ≤ w) (v : BitVec w) : pos v < limit (next m v) := by
  rw [limit_next hm]
  have h := Nat.lt_div_mul_add (Nat.two_pow_pos (w - m)) (a := pos v)
  rwa [Nat.add_mul, Nat.one_mul]

/-- What is between a cursor and the next one is in the block of the cursor. -/
theorem and_low_eq_of_lt_limit {m : ℕ} (hm : m ≤ w) {v u : BitVec w} (h : pos v ≤ pos u)
    (hlt : pos u < limit (next m v)) : u &&& low w m = v &&& low w m := by
  rw [limit_next hm] at hlt
  rw [and_low_eq_iff hm]
  apply Nat.le_antisymm
  · exact Nat.lt_succ_iff.1 ((Nat.div_lt_iff_lt_mul (Nat.two_pow_pos _)).2 hlt)
  · exact Nat.div_le_div_right h

/-- Whether a cursor of the finer blocks begins a coarser block is seen in the bits between the two masks. -/
theorem and_xor_low_eq_zero_iff {m m' : ℕ} (hm : m ≤ m') (hm' : m' ≤ w) {v : BitVec w} :
    v &&& (low w m ^^^ low w m') = 0 ↔ pos v / 2 ^ (w - m') % 2 ^ (m' - m) = 0 := by
  constructor
  · intro h
    apply Nat.eq_of_testBit_eq
    intro i
    rw [Nat.testBit_mod_two_pow, Nat.zero_testBit, Nat.testBit_div_two_pow]
    rcases Nat.lt_or_ge i (m' - m) with hi | hi
    · have hbit := congrArg (fun u => u.getLsbD (w - 1 - (i + (w - m')))) h
      simp only [BitVec.getLsbD_and, BitVec.getLsbD_xor, BitVec.ofNat_eq_ofNat, BitVec.getLsbD_zero] at hbit
      rw [getLsbD_low (by omega), getLsbD_low (by omega), decide_eq_false (by omega), decide_eq_true (by omega),
        Bool.false_xor, Bool.and_true, ← testBit_pos (by omega)] at hbit
      rw [hbit, Bool.and_false]
    · rw [decide_eq_false (by omega), Bool.false_and]
  · intro h
    apply BitVec.eq_of_getLsbD_eq
    intro i hi
    rw [BitVec.getLsbD_and, BitVec.getLsbD_xor, getLsbD_low hi, getLsbD_low hi, BitVec.ofNat_eq_ofNat, BitVec.getLsbD_zero]
    rcases Nat.lt_or_ge i m with him | him
    · rw [decide_eq_true him, decide_eq_true (by omega), Bool.xor_self, Bool.and_false]
    rcases Nat.lt_or_ge i m' with him' | him'
    · have hbit := congrArg (fun n => n.testBit (m' - 1 - i)) h
      simp only [Nat.testBit_mod_two_pow, Nat.testBit_div_two_pow, Nat.zero_testBit] at hbit
      have hidx : w - 1 - (m' - 1 - i + (w - m')) = i := by omega
      rw [decide_eq_true (by omega), Bool.true_and, testBit_pos (by omega), hidx] at hbit
      rw [hbit, Bool.false_and]
    · rw [decide_eq_false (by omega), decide_eq_false (by omega), Bool.xor_self, Bool.and_false]

theorem pos_injective : Function.Injective (pos : BitVec w → ℕ) := by
  intro v v' h
  have h' := congrArg BitVec.reverse (BitVec.eq_of_toNat_eq h)
  rwa [BitVec.reverse_reverse_eq, BitVec.reverse_reverse_eq] at h'

theorem limit_le (v : BitVec w) : limit v ≤ 2 ^ w := by
  rw [limit]
  split_ifs
  · exact le_rfl
  · exact (pos_lt v).le

theorem limit_of_ne_zero {v : BitVec w} (h : v ≠ 0) : limit v = pos v := if_neg h

/-! ## The finer blocks of a block -/

section Fine

variable {m m' : ℕ}

theorem block_split (hm : m ≤ m') (hm' : m' ≤ w) : 2 ^ (w - m) = 2 ^ (w - m') * 2 ^ (m' - m) := by
  rw [← Nat.pow_add]
  congr 1
  omega

theorem pos_div_block (hm : m ≤ m') (hm' : m' ≤ w) (v : BitVec w) :
    pos v / 2 ^ (w - m) = pos v / 2 ^ (w - m') / 2 ^ (m' - m) := by
  rw [block_split hm hm', Nat.div_div_eq_div_mul]

/-- The number of the fine block of the next fine cursor. -/
theorem pos_next_div (hm' : m' ≤ w) (v : BitVec w) :
    pos (next m' v) / 2 ^ (w - m') = (pos v / 2 ^ (w - m') + 1) % 2 ^ m' := by
  have hw : 2 ^ w = 2 ^ m' * 2 ^ (w - m') := by rw [← Nat.pow_add, Nat.add_sub_cancel' hm']
  rw [pos_next hm', hw, Nat.mul_mod_mul_right, Nat.mul_div_cancel _ (Nat.two_pow_pos _)]

/-- The last fine block ends where the block ends. -/
theorem next_eq_of_done (hm : m ≤ m') (hm' : m' ≤ w) {v : BitVec w}
    (h : next m' v &&& (low w m ^^^ low w m') = 0) : next m' v = next m v := by
  rw [and_xor_low_eq_zero_iff hm hm', pos_next_div hm', Nat.mod_mod_of_dvd _ (Nat.pow_dvd_pow 2 (Nat.sub_le _ _))] at h
  apply pos_injective
  rw [pos_next hm', pos_next (hm.trans hm'), pos_div_block hm hm', block_split hm hm']
  have hdvd := Nat.dvd_of_mod_eq_zero h
  rw [← Nat.succ_div_of_dvd hdvd, Nat.mul_left_comm, Nat.div_mul_cancel hdvd, Nat.mul_comm]

/-- Before it, the next fine block is one of the same block. -/
theorem next_next_of_more (hm : m ≤ m') (hm' : m' ≤ w) {v : BitVec w}
    (h : next m' v &&& (low w m ^^^ low w m') ≠ 0) :
    next m (next m' v) = next m v ∧
      pos (next m' v) / 2 ^ (w - m') % 2 ^ (m' - m) = pos v / 2 ^ (w - m') % 2 ^ (m' - m) + 1 := by
  have hw : 2 ^ w = 2 ^ m' * 2 ^ (w - m') := by rw [← Nat.pow_add, Nat.add_sub_cancel' hm']
  have hlt : pos v / 2 ^ (w - m') < 2 ^ m' := Nat.div_lt_of_lt_mul (by rw [Nat.mul_comm, ← hw]; exact pos_lt v)
  rw [Ne, and_xor_low_eq_zero_iff hm hm', pos_next_div hm',
    Nat.mod_mod_of_dvd _ (Nat.pow_dvd_pow 2 (Nat.sub_le _ _))] at h
  have hnd : ¬ 2 ^ (m' - m) ∣ pos v / 2 ^ (w - m') + 1 := fun hd => h (Nat.mod_eq_zero_of_dvd hd)
  -- the fine blocks do not end inside of a block
  have hlast : pos v / 2 ^ (w - m') + 1 < 2 ^ m' :=
    lt_of_le_of_ne hlt fun heq => hnd (heq ▸ Nat.pow_dvd_pow 2 (Nat.sub_le _ _))
  have hnext : pos (next m' v) / 2 ^ (w - m') = pos v / 2 ^ (w - m') + 1 := by
    rw [pos_next_div hm', Nat.mod_eq_of_lt hlast]
  have hdiv : (pos v / 2 ^ (w - m') + 1) / 2 ^ (m' - m) = pos v / 2 ^ (w - m') / 2 ^ (m' - m) :=
    Nat.succ_div_of_not_dvd hnd
  constructor
  · apply pos_injective
    rw [pos_next (hm.trans hm'), pos_next (hm.trans hm'), pos_div_block hm hm', pos_div_block hm hm', hnext, hdiv]
  · have h₁ := Nat.div_add_mod (pos v / 2 ^ (w - m')) (2 ^ (m' - m))
    have h₂ := Nat.div_add_mod (pos v / 2 ^ (w - m') + 1) (2 ^ (m' - m))
    rw [hdiv] at h₂
    rw [hnext]
    omega

end Fine

end GoodGoodStudy.Lib.Cursor
