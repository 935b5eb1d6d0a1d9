/-
The two functions of the exercise 134, gas station. The first one looks for the least of the sums up to the stations,
and returns the station behind it. Its minimum starts at 999: if no sum is below this, the first sum is taken for the
least one, whether it is or not. The second one starts anew whenever the tank would be below zero, and is right for
all lists.
-/
import Mathlib.Algebra.Order.Group.Int
import Mathlib.Algebra.Ring.Int.Defs
import GoodGoodStudy.Lib.Circuit
import GoodGoodStudy.Lib.Loop
import GoodGoodStudy.Lib.Sequence

namespace GoodGoodStudy.LeetCode.CanCompleteCircuit

open GoodGoodStudy.Lib

/-! ## The code -/

/-- `gas[i] - cost[i]` -/
def left? (gas cost : List ℤ) (i : ℕ) : Option ℤ := do some ((← item? gas i) - (← item? cost i))

/-- The variables of the first function. -/
structure Scan where
  sumValue : ℤ := 0
  minValue : ℤ := 999
  minIndex : ℕ := 0
  deriving DecidableEq, Repr

/-- A round of its loop. -/
def scan (st : Scan) (p : ℤ × ℕ) : Scan :=
  let (l, j) := p
  let sumValue := st.sumValue + l
  if sumValue < st.minValue then ⟨sumValue, sumValue, j⟩ else { st with sumValue }

/-- `none` is an exception: an `IndexError`, or a division by the length 0. -/
def canCompleteCircuit (gas cost : List ℤ) : Option ℤ := do
  let left ← (List.range gas.length).mapM (left? gas cost)
  let st := left.zipIdx.foldl scan {}
  if st.sumValue < 0 then some (-1)
  else if gas.length = 0 then none
  else some ((st.minIndex + 1) % gas.length : ℕ)

/-- A round of the second function, on `cur_sum` and `start`. -/
def drive (gas cost : List ℤ) (st : ℤ × ℕ) (i : ℕ) : Option (ℤ × ℕ) := do
  let curSum := st.1 + (← left? gas cost i)
  some (if curSum < 0 then (0, i + 1) else (curSum, st.2))

def canCompleteCircuit2 (gas cost : List ℤ) : Option ℤ :=
  if cost.sum > gas.sum then some (-1)
  else do
    let (_, start) ← (List.range gas.length).foldlM (drive gas cost) (0, 0)
    some start

example : canCompleteCircuit2 [3, 1, 1] [1, 2, 2] = some 0 := by decide

/-- What the stations add to the tank. -/
def differences (gas cost : List ℤ) : List ℤ := List.zipWith (· - ·) gas cost

/-- -1 if the circuit succeeds from no station, and otherwise a station from which it does. -/
def Right (gas cost : List ℤ) (r : Option ℤ) : Prop :=
  (r = some (-1) ∧ ∀ s < gas.length, ¬ Succeeds (differences gas cost) s) ∨
    ∃ s < gas.length, r = some (s : ℤ) ∧ Succeeds (differences gas cost) s

instance (gas cost : List ℤ) (r : Option ℤ) : Decidable (Right gas cost r) := inferInstanceAs (Decidable (_ ∨ _))

/-- Some sum is below the constant, or the first one is the least. -/
def Near (gas cost : List ℤ) : Prop :=
  (∃ j, 0 < j ∧ j ≤ gas.length ∧ upTo (differences gas cost) j < 999) ∨
    ∀ j, 0 < j → j ≤ gas.length → upTo (differences gas cost) 1 ≤ upTo (differences gas cost) j

variable {gas cost d : List ℤ} {i : ℕ}

/-! ## The sums -/

theorem length_differences (h : gas.length = cost.length) : (differences gas cost).length = gas.length := by
  rw [differences, List.length_zipWith, ← h, Nat.min_self]

theorem left?_eq (h : gas.length = cost.length) (hi : i < gas.length) :
    left? gas cost i = (differences gas cost)[i]? := by
  have hc : i < cost.length := h ▸ hi
  rw [left?, item?_natCast hi, item?_natCast hc, differences, List.getElem?_zipWith, List.getElem?_eq_getElem hi,
    List.getElem?_eq_getElem hc]
  rfl

theorem mapM_left? (h : gas.length = cost.length) :
    (List.range gas.length).mapM (left? gas cost) = some (differences gas cost) := by
  have hlength := length_differences h
  rw [← hlength]
  exact mapM_range fun i hi => left?_eq h (hlength ▸ hi)

theorem sum_differences (h : gas.length = cost.length) : (differences gas cost).sum = gas.sum - cost.sum := by
  unfold differences
  induction gas generalizing cost with
  | nil =>
    obtain rfl := List.length_eq_zero_iff.1 h.symm
    rfl
  | cons g gas ih =>
    obtain ⟨c, cost, rfl⟩ := List.exists_cons_of_length_eq_add_one h.symm
    rw [List.zipWith_cons_cons, List.sum_cons, List.sum_cons, List.sum_cons, ih (Nat.succ.inj h)]
    omega

/-- Without enough gas no start succeeds. -/
theorem right_of_loss (hsum : (differences gas cost).sum < 0) : Right gas cost (some (-1)) :=
  Or.inl ⟨rfl, fun _ _ h => absurd h.sum_nonneg (not_le.2 hsum)⟩

theorem right_iff_succeeds {s : ℕ} (hs : s < gas.length) :
    Right gas cost (some (s : ℤ)) ↔ Succeeds (differences gas cost) s := by
  constructor
  · rintro (⟨heq, -⟩ | ⟨s', -, heq, h⟩)
    · exact absurd (Option.some.inj heq) (by omega)
    · obtain rfl : s = s' := Int.ofNat_inj.1 (Option.some.inj heq)
      exact h
  · exact fun h => Or.inr ⟨s, hs, rfl, h⟩

/-! ## The first function -/

/-- The variables after `k` stations. -/
structure Scanned (d : List ℤ) (k : ℕ) (st : Scan) : Prop where
  sum : st.sumValue = upTo d k
  le : ∀ j, 0 < j → j ≤ k → st.minValue ≤ upTo d j
  found : st.minValue = 999 ∧ st.minIndex = 0 ∨
    st.minIndex < k ∧ st.minValue = upTo d (st.minIndex + 1) ∧ st.minValue < 999

theorem Scanned.scan {k : ℕ} {st : Scan} {l : ℤ} (h : Scanned d k st) (hk : d[k]? = some l) :
    Scanned d (k + 1) (scan st (l, k)) := by
  have hsum : st.sumValue + l = upTo d (k + 1) := by rw [upTo_succ hk, h.sum]
  have hmin : st.minValue ≤ 999 := by
    rcases h.found with ⟨hmin, -⟩ | ⟨-, -, hlt⟩
    · exact hmin.le
    · exact hlt.le
  unfold CanCompleteCircuit.scan
  simp only [hsum]
  split_ifs with hlt
  · refine ⟨rfl, fun j hpos hj => ?_, Or.inr ⟨Nat.lt_succ_self k, rfl, hlt.trans_le hmin⟩⟩
    rcases Nat.le_succ_iff.1 hj with hj | rfl
    · exact hlt.le.trans (h.le j hpos hj)
    · exact le_rfl
  · refine ⟨rfl, fun j hpos hj => ?_, h.found.imp_right fun hfound => ⟨Nat.lt_succ_of_lt hfound.1, hfound.2⟩⟩
    rcases Nat.le_succ_iff.1 hj with hj | rfl
    · exact h.le j hpos hj
    · exact not_lt.1 hlt

theorem scanned_end (d : List ℤ) : Scanned d d.length (d.zipIdx.foldl scan {}) := by
  have hstart : Scanned d 0 {} := ⟨rfl, fun j hpos hj => absurd hpos (Nat.not_lt.2 hj), Or.inl ⟨rfl, rfl⟩⟩
  have hstep : ∀ pre p rest st, pre ++ p :: rest = d.zipIdx → Scanned d pre.length st →
      Scanned d (pre ++ [p]).length (scan st p) := fun pre p rest st hall hst => by
    have hget : d.zipIdx[pre.length]? = some p := by simp [← hall]
    rw [List.getElem?_zipIdx, Option.map_eq_some_iff] at hget
    obtain ⟨l, hl, rfl⟩ := hget
    rw [List.length_append, List.length_singleton, Nat.zero_add]
    exact hst.scan hl
  have hend := foldl_split (P := fun pre st => Scanned d pre.length st) hstep d.zipIdx [] rfl hstart
  rwa [List.length_zipIdx] at hend

theorem canCompleteCircuit_right_iff (hlen : gas.length = cost.length) (hne : gas ≠ []) :
    Right gas cost (canCompleteCircuit gas cost) ↔ Near gas cost := by
  have hpos := List.length_pos_iff.2 hne
  have hlength := length_differences hlen
  have hscanned := scanned_end (differences gas cost)
  have hcall : canCompleteCircuit gas cost = if (differences gas cost).sum < 0 then some (-1) else
      some (((((differences gas cost).zipIdx.foldl scan {}).minIndex + 1) % gas.length : ℕ) : ℤ) := by
    rw [canCompleteCircuit, mapM_left? hlen, Option.bind_eq_bind, Option.bind_some]
    simp only [hscanned.sum, upTo_length, if_neg hpos.ne']
  rw [hcall]
  generalize (differences gas cost).zipIdx.foldl scan {} = st at hscanned
  unfold Near
  rw [← hlength] at hpos ⊢
  split_ifs with hsum
  · refine iff_of_true (right_of_loss hsum) (Or.inl ⟨_, hpos, le_rfl, ?_⟩)
    rw [upTo_length]
    omega
  · rw [not_lt] at hsum
    rw [right_iff_succeeds (by rw [← hlength]; exact Nat.mod_lt _ hpos), succeeds_mod]
    rcases hscanned.found with ⟨hmin, hindex⟩ | ⟨hindex, hmin, hlt⟩
    · -- no sum is below the constant
      have hfar : ¬ ∃ j, 0 < j ∧ j ≤ (differences gas cost).length ∧ upTo (differences gas cost) j < 999 := by
        rintro ⟨j, hj, hle, hlt⟩
        exact absurd (hscanned.le j hj hle) (not_le.2 (hmin ▸ hlt))
      rw [hindex, or_iff_right hfar]
      exact succeeds_one_iff hsum hpos
    · refine iff_of_true (succeeds_of_least hsum hindex fun j hj hle => ?_)
        (Or.inl ⟨_, Nat.succ_pos _, hindex, hmin ▸ hlt⟩)
      rw [← hmin]
      exact hscanned.le j hj hle

/-! ## The second function -/

/-- The start has the least of the sums so far. -/
structure Driven (d : List ℤ) (i : ℕ) (st : ℤ × ℕ) : Prop where
  sum : st.1 = upTo d i - upTo d st.2
  start_le : st.2 ≤ i
  le : ∀ j ≤ i, upTo d st.2 ≤ upTo d j
  neg : st.2 ≠ 0 → upTo d st.2 < 0

theorem Driven.drive {st : ℤ × ℕ} (h : Driven (differences gas cost) i st) (hlen : gas.length = cost.length)
    (hi : i < gas.length) :
    ∃ st', drive gas cost st i = some st' ∧ Driven (differences gas cost) (i + 1) st' := by
  have hlt : i < (differences gas cost).length := (length_differences hlen).symm ▸ hi
  have hget : (differences gas cost)[i]? = some (differences gas cost)[i] := List.getElem?_eq_getElem hlt
  have hsum : st.1 + (differences gas cost)[i] =
      upTo (differences gas cost) (i + 1) - upTo (differences gas cost) st.2 := by
    rw [upTo_succ hget, h.sum]
    omega
  refine ⟨_, by rw [CanCompleteCircuit.drive, left?_eq hlen hi, hget]; rfl, ?_⟩
  rw [hsum]
  have hzero := h.le 0 (Nat.zero_le i)
  rw [upTo_zero] at hzero
  split_ifs with hneg
  · -- the new start has a smaller sum than all before it
    have hless : upTo (differences gas cost) (i + 1) < upTo (differences gas cost) st.2 := sub_neg.1 hneg
    refine ⟨(sub_self _).symm, le_rfl, fun j hj => ?_, fun _ => hless.trans_le hzero⟩
    rcases Nat.le_succ_iff.1 hj with hj | rfl
    · exact hless.le.trans (h.le j hj)
    · exact le_rfl
  · refine ⟨rfl, Nat.le_succ_of_le h.start_le, fun j hj => ?_, h.neg⟩
    rcases Nat.le_succ_iff.1 hj with hj | rfl
    · exact h.le j hj
    · exact sub_nonneg.1 (not_lt.1 hneg)

theorem canCompleteCircuit2_right (hlen : gas.length = cost.length) (hne : gas ≠ []) :
    Right gas cost (canCompleteCircuit2 gas cost) := by
  have hlength := length_differences hlen
  have htotal := sum_differences hlen
  unfold canCompleteCircuit2
  split_ifs with hloss
  · exact right_of_loss (by omega)
  · have hsum : 0 ≤ (differences gas cost).sum := by omega
    have hstart : Driven (differences gas cost) 0 (0, 0) :=
      ⟨(sub_self _).symm, le_rfl, fun j hj => (Nat.le_zero.1 hj).symm ▸ le_rfl, fun hne => absurd rfl hne⟩
    obtain ⟨⟨curSum, start⟩, hloop, hdriven⟩ := exists_foldlM_range gas.length
      (fun i hi st hst => hst.drive hlen hi) hstart
    have hlt : start < gas.length := by
      refine lt_of_le_of_ne hdriven.start_le fun heq => ?_
      have hneg := hdriven.neg (heq ▸ (List.length_pos_iff.2 hne).ne')
      simp only [heq, ← hlength, upTo_length] at hneg
      omega
    simp only [hloop, Option.bind_eq_bind, Option.bind_some]
    refine (right_iff_succeeds hlt).2 (succeeds_of_least hsum (hlength ▸ hlt.le) fun j _ hj => ?_)
    exact hdriven.le j (hlength ▸ hj)

/-! ## The results -/

/-- For stations that exist, the functions are right exactly if the constant does not hide the least sum. -/
theorem canCompleteCircuit_iff (gas cost : List ℤ) (hlen : gas.length = cost.length) (hne : gas ≠ []) :
    (Right gas cost (canCompleteCircuit gas cost) ∧ Right gas cost (canCompleteCircuit2 gas cost)) ↔ Near gas cost :=
  (and_iff_left (canCompleteCircuit2_right hlen hne)).trans (canCompleteCircuit_right_iff hlen hne)

theorem canCompleteCircuit_iff_two :
    (Right [1, 5] [3, 2] (canCompleteCircuit [1, 5] [3, 2]) ∧ Right [1, 5] [3, 2] (canCompleteCircuit2 [1, 5] [3, 2])) ↔
      Near [1, 5] [3, 2] :=
  canCompleteCircuit_iff [1, 5] [3, 2] rfl (by decide)

/-- The sums are 1000 and 999. -/
theorem canCompleteCircuit_far : canCompleteCircuit [1000, 0] [0, 1] = some 1 ∧
    ¬ (Right [1000, 0] [0, 1] (canCompleteCircuit [1000, 0] [0, 1]) ∧
      Right [1000, 0] [0, 1] (canCompleteCircuit2 [1000, 0] [0, 1])) := by decide

end GoodGoodStudy.LeetCode.CanCompleteCircuit
