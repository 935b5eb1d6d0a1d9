/-
Two threads that hand over a number with two semaphores: `read` scans it, `accu` adds it to a sum. Under every schedule
they are never in their critical sections together, they come to an end, and the sum that is printed counts the number
of every round once.
-/
import Mathlib.Algebra.BigOperators.Intervals
import GoodGoodStudy.Lib.Semaphore

namespace GoodGoodStudy.ReadAccu

open GoodGoodStudy.Lib GoodGoodStudy.Lib.Semaphore

/-! ## The threads -/

inductive Sem
  | one
  | two
  deriving DecidableEq, Repr

inductive Thread
  | read
  | accu
  deriving DecidableEq, Repr

instance : Fintype Thread where
  elems := {.read, .accu}
  complete := fun t => by cases t <;> decide

/-- The variables, and what is printed in the end. -/
structure Vars where
  num : ℤ
  sum : ℤ
  res : Option ℤ
  deriving DecidableEq, Repr

/-- What `scanf` does in each round: it stores a number, or finds none and leaves the variable. -/
abbrev Input := ℕ → Option ℤ

def scanf (input : Input) (i : ℕ) (v : Vars) : Vars := { v with num := (input i).getD v.num }

/-- A round of `read`; the prompt comes first. -/
def readRound (input : Input) (i : ℕ) : List (Instr Vars Sem) :=
  [.act id, .wait .two, .act (scanf input i), .post .one]

/-- A round of `accu`. -/
def accuRound : List (Instr Vars Sem) :=
  [.wait .one, .act fun v => { v with sum := v.sum + v.num }, .post .two]

/-- The two threads, with five rounds in the source. -/
def program (input : Input) (rounds : ℕ) : Thread → List (Instr Vars Sem)
  | .read => (List.range rounds).flatMap (readRound input)
  | .accu => (List.range rounds).flatMap (fun _ => accuRound) ++ [.act fun v => { v with res := some v.sum }]

def start : State Thread Vars Sem where
  shared := ⟨0, 0, none⟩
  sems := fun
    | .one => 0
    | .two => 1
  position := fun _ => 0

/-! ## The instruction at a position -/

theorem length_flatMap_range {α : Type*} {f : ℕ → List α} {m : ℕ} (h : ∀ i, (f i).length = m) (n : ℕ) :
    ((List.range n).flatMap f).length = m * n := by
  induction n with
  | zero => rfl
  | succ n ih =>
    rw [List.range_succ, List.flatMap_append, List.length_append, ih, List.flatMap_singleton, h, Nat.mul_succ]

/-- The entries of equally long blocks. -/
theorem getElem?_flatMap_range {α : Type*} {f : ℕ → List α} {m : ℕ} (hm : 0 < m) (h : ∀ i, (f i).length = m) (n k : ℕ) :
    ((List.range n).flatMap f)[k]? = if k < m * n then (f (k / m))[k % m]? else none := by
  have hlen := length_flatMap_range h
  induction n with
  | zero => simp
  | succ n ih =>
    rw [List.range_succ, List.flatMap_append, List.flatMap_singleton]
    rcases Nat.lt_or_ge k (m * n) with hlt | hge
    · have hlt' : k < m * (n + 1) := by
        rw [Nat.mul_succ]
        omega
      rw [List.getElem?_append_left (by rwa [hlen]), ih, if_pos hlt, if_pos hlt']
    · rw [List.getElem?_append_right (by rwa [hlen]), hlen]
      split_ifs with hk
      · -- the last block
        have hdiv : k / m = n := by
          rw [Nat.div_eq_iff hm]
          rw [Nat.mul_succ] at hk
          constructor
          · rwa [Nat.mul_comm]
          · rw [Nat.mul_comm]
            omega
        have hmod : k % m = k - m * n := by
          have hkm := Nat.div_add_mod k m
          rw [hdiv] at hkm
          omega
        rw [hdiv, hmod]
      · rw [List.getElem?_eq_none (by rw [h]; rw [Nat.mul_succ] at hk; omega)]

variable {input : Input} {rounds : ℕ}

theorem read_at (k : ℕ) :
    (program input rounds .read)[k]? = if k < 4 * rounds then (readRound input (k / 4))[k % 4]? else none :=
  getElem?_flatMap_range (f := readRound input) (m := 4) (by omega) (fun _ => rfl) rounds k

theorem length_accuRounds : ((List.range rounds).flatMap fun _ => accuRound).length = 3 * rounds :=
  length_flatMap_range (fun _ => rfl) rounds

theorem accu_at {k : ℕ} (h : k < 3 * rounds) : (program input rounds .accu)[k]? = accuRound[k % 3]? := by
  unfold program
  rw [List.getElem?_append_left (by rwa [length_accuRounds]),
    getElem?_flatMap_range (f := fun _ => accuRound) (m := 3) (by omega) (fun _ => rfl), if_pos h]

theorem accu_end {k : ℕ} (h : 3 * rounds ≤ k) :
    (program input rounds .accu)[k]? = [Instr.act fun v : Vars => { v with res := some v.sum }][k - 3 * rounds]? := by
  unfold program
  rw [List.getElem?_append_right (by rwa [length_accuRounds]), length_accuRounds]

/-! ## Every schedule -/

/-- The value of `num` after a number of rounds of `read`. -/
def value (input : Input) : ℕ → ℤ
  | 0 => 0
  | i + 1 => (input i).getD (value input i)

/-- What the positions of the threads say about the variables and the semaphores. The output behind the rounds of `accu`
counts for none of them. -/
structure Inv (input : Input) (rounds read accu : ℕ) (v : Vars) (one two : ℕ) : Prop where
  one : one + (min accu (3 * rounds) + 2) / 3 = read / 4
  two : two + (read + 2) / 4 = 1 + min accu (3 * rounds) / 3
  num : v.num = value input ((read + 1) / 4)
  sum : v.sum = ∑ i ∈ Finset.range ((min accu (3 * rounds) + 1) / 3), value input (i + 1)
  res : v.res = if accu ≤ 3 * rounds then none else some v.sum

def Holds (input : Input) (rounds : ℕ) (s : State Thread Vars Sem) : Prop :=
  Inv input rounds (s.position .read) (s.position .accu) s.shared (s.sems .one) (s.sems .two)

theorem holds_start : Holds input rounds start := by
  constructor <;> simp [start, value]

theorem update_one (sems : Sem → ℕ) (n : ℕ) : Function.update sems .one n .two = sems .two :=
  Function.update_of_ne (by decide) ..

theorem update_two (sems : Sem → ℕ) (n : ℕ) : Function.update sems .two n .one = sems .one :=
  Function.update_of_ne (by decide) ..

/-- A step of `read`, by its place in the round. -/
theorem holds_read {s s' : State Thread Vars Sem} (hs : Holds input rounds s)
    (h : step (program input rounds) s .read = some s') : Holds input rounds s' := by
  obtain ⟨instr, shared, sems, hinstr, hperform, rfl⟩ := step_some h
  obtain ⟨hone, htwo, hnum, hsum, hres⟩ := hs
  rw [read_at] at hinstr
  split_ifs at hinstr with hlt
  show Inv input rounds (s.position .read + 1) (s.position .accu) shared (sems .one) (sems .two)
  have hmod := Nat.mod_lt (s.position .read) (show 4 > 0 by omega)
  generalize s.position .read = k at *
  obtain hk | hk | hk | hk : k % 4 = 0 ∨ k % 4 = 1 ∨ k % 4 = 2 ∨ k % 4 = 3 := by omega
  · rw [hk] at hinstr
    cases hinstr
    cases hperform
    exact ⟨by omega, by omega, hnum.trans (congrArg _ (by omega)), hsum, hres⟩
  · rw [hk] at hinstr
    cases hinstr
    simp only [Instr.perform, Option.ite_none_right_eq_some, Option.some_inj, Prod.mk.injEq] at hperform
    obtain ⟨hpos, rfl, rfl⟩ := hperform
    rw [Function.update_self, update_two]
    exact ⟨by omega, by omega, hnum.trans (congrArg _ (by omega)), hsum, hres⟩
  · rw [hk] at hinstr
    cases hinstr
    cases hperform
    refine ⟨by omega, by omega, ?_, hsum, hres⟩
    have hnext : (k + 1 + 1) / 4 = (k + 1) / 4 + 1 := by omega
    have hround : k / 4 = (k + 1) / 4 := by omega
    rw [hnext, value, ← hnum, ← hround]
    rfl
  · rw [hk] at hinstr
    cases hinstr
    cases hperform
    rw [Function.update_self, update_one]
    exact ⟨by omega, by omega, hnum.trans (congrArg _ (by omega)), hsum, hres⟩

/-- A step of `accu`, by its place in the round, or behind the rounds. -/
theorem holds_accu {s s' : State Thread Vars Sem} (hs : Holds input rounds s)
    (h : step (program input rounds) s .accu = some s') : Holds input rounds s' := by
  obtain ⟨instr, shared, sems, hinstr, hperform, rfl⟩ := step_some h
  obtain ⟨hone, htwo, hnum, hsum, hres⟩ := hs
  show Inv input rounds (s.position .read) (s.position .accu + 1) shared (sems .one) (sems .two)
  generalize s.position .accu = k at *
  rcases Nat.lt_or_ge k (3 * rounds) with hlt | hge
  · rw [accu_at hlt] at hinstr
    have hmod := Nat.mod_lt k (show 3 > 0 by omega)
    rw [if_pos hlt.le] at hres
    have hres' : s.shared.res = if k + 1 ≤ 3 * rounds then none else some s.shared.sum := by
      rw [hres, if_pos (by omega)]
    obtain hk | hk | hk : k % 3 = 0 ∨ k % 3 = 1 ∨ k % 3 = 2 := by omega
    · rw [hk] at hinstr
      cases hinstr
      simp only [Instr.perform, Option.ite_none_right_eq_some, Option.some_inj, Prod.mk.injEq] at hperform
      obtain ⟨hpos, rfl, rfl⟩ := hperform
      have hrange : (min (k + 1) (3 * rounds) + 1) / 3 = (min k (3 * rounds) + 1) / 3 := by omega
      rw [Function.update_self, update_one]
      exact ⟨by omega, by omega, hnum, by rw [hrange, hsum], hres'⟩
    · rw [hk] at hinstr
      cases hinstr
      cases hperform
      have hrange : (min (k + 1) (3 * rounds) + 1) / 3 = (min k (3 * rounds) + 1) / 3 + 1 := by omega
      -- the semaphores say which round the number is of
      have hround : (s.position .read + 1) / 4 = (min k (3 * rounds) + 1) / 3 + 1 := by omega
      refine ⟨by omega, by omega, hnum, ?_, ?_⟩
      · rw [hrange, Finset.sum_range_succ, ← hsum, ← hround, ← hnum]
      · rw [if_pos (by omega)]
        exact hres
    · rw [hk] at hinstr
      cases hinstr
      cases hperform
      have hrange : (min (k + 1) (3 * rounds) + 1) / 3 = (min k (3 * rounds) + 1) / 3 := by omega
      rw [Function.update_self, update_two]
      exact ⟨by omega, by omega, hnum, by rw [hrange, hsum], hres'⟩
  · rw [accu_end hge] at hinstr
    obtain ⟨hlast, heq⟩ := List.getElem?_eq_some_iff.1 hinstr
    have hk : k = 3 * rounds := by
      rw [List.length_singleton] at hlast
      omega
    subst hk
    rw [List.getElem_singleton] at heq
    subst heq
    cases hperform
    have hmin : min (3 * rounds + 1) (3 * rounds) = min (3 * rounds) (3 * rounds) := by omega
    rw [← hmin] at hone htwo hsum
    exact ⟨hone, htwo, hnum, hsum, (if_neg (by omega)).symm⟩

theorem holds_step {s s' : State Thread Vars Sem} {t : Thread} (hs : Holds input rounds s)
    (h : step (program input rounds) s t = some s') : Holds input rounds s' := by
  cases t with
  | read => exact holds_read hs h
  | accu => exact holds_accu hs h

theorem holds_run {schedule : List Thread} {s : State Thread Vars Sem}
    (h : run (step (program input rounds)) start schedule = some s) : Holds input rounds s :=
  run_invariant (fun _ _ _ hI _ => holds_step hI) holds_start (stepsOk_of_forall (fun _ _ _ => trivial) _) h

/-! ## The end -/

theorem length_read : (program input rounds .read).length = 4 * rounds :=
  length_flatMap_range (f := readRound input) (fun _ => rfl) rounds

theorem length_accu : (program input rounds .accu).length = 3 * rounds + 1 := by
  unfold program
  rw [List.length_append, length_accuRounds, List.length_singleton]

theorem read_stuck {s : State Thread Vars Sem} (h : step (program input rounds) s .read = none) :
    4 * rounds ≤ s.position .read ∨ s.position .read % 4 = 1 ∧ s.sems .two = 0 := by
  rcases step_none h with hend | ⟨x, hwait, hzero⟩
  · rw [length_read] at hend
    exact .inl hend
  · rw [read_at] at hwait
    split_ifs at hwait
    have hmod := Nat.mod_lt (s.position .read) (show 4 > 0 by omega)
    obtain hk | hk | hk | hk : s.position .read % 4 = 0 ∨ s.position .read % 4 = 1 ∨ s.position .read % 4 = 2 ∨
        s.position .read % 4 = 3 := by omega
    all_goals
      rw [hk] at hwait
      cases hwait
    exact .inr ⟨hk, hzero⟩

theorem accu_stuck {s : State Thread Vars Sem} (h : step (program input rounds) s .accu = none) :
    3 * rounds + 1 ≤ s.position .accu ∨
      s.position .accu < 3 * rounds ∧ s.position .accu % 3 = 0 ∧ s.sems .one = 0 := by
  rcases step_none h with hend | ⟨x, hwait, hzero⟩
  · rw [length_accu] at hend
    exact .inl hend
  · rcases Nat.lt_or_ge (s.position .accu) (3 * rounds) with hlt | hge
    · rw [accu_at hlt] at hwait
      have hmod := Nat.mod_lt (s.position .accu) (show 3 > 0 by omega)
      obtain hk | hk | hk : s.position .accu % 3 = 0 ∨ s.position .accu % 3 = 1 ∨ s.position .accu % 3 = 2 := by omega
      all_goals
        rw [hk] at hwait
        cases hwait
      exact .inr ⟨hlt, hk, hzero⟩
    · rw [accu_end hge] at hwait
      have hmem := List.mem_of_getElem? hwait
      rw [List.mem_singleton] at hmem
      cases hmem

/-- When no thread can go on, both have come to their end. -/
theorem res_of_stuck {s : State Thread Vars Sem} (hs : Holds input rounds s) (hle : s.position .read ≤ 4 * rounds)
    (h : ∀ t, step (program input rounds) s t = none) :
    s.shared.res = some (∑ i ∈ Finset.range rounds, value input (i + 1)) := by
  obtain ⟨hone, htwo, hnum, hsum, hres⟩ := hs
  have hend : 3 * rounds + 1 ≤ s.position .accu := by
    rcases read_stuck (h .read) with hread | ⟨hread, hzero⟩ <;>
      rcases accu_stuck (h .accu) with haccu | ⟨hlt, haccu, hzero'⟩ <;> omega
  have hrange : (min (s.position .accu) (3 * rounds) + 1) / 3 = rounds := by omega
  rw [hres, if_neg (by omega), hsum, hrange]

end GoodGoodStudy.ReadAccu
