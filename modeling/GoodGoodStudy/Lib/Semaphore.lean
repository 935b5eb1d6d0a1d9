/-
Threads with semaphores: each thread has a list of instructions, which wait for a semaphore, post it, or act on a
shared state, and a schedule says which thread performs its next instruction. A run is never longer than the programs,
so that every run can be continued to one in which no thread can go on.
-/
import Mathlib.Algebra.BigOperators.Group.Finset.Basic
import Mathlib.Algebra.Order.BigOperators.Group.Finset
import Mathlib.Data.Fintype.BigOperators
import GoodGoodStudy.Lib.Run

namespace GoodGoodStudy.Lib.Semaphore

variable {σ ξ ι : Type*}

inductive Instr (σ ξ : Type*)
  | wait (x : ξ)
  | post (x : ξ)
  | act (f : σ → σ)

/-- The shared state, the semaphores, and how many of its instructions each thread has performed. -/
structure State (ι σ ξ : Type*) where
  shared : σ
  sems : ξ → ℕ
  position : ι → ℕ

variable [DecidableEq ι] [DecidableEq ξ]

/-- `none` while the semaphore is zero. -/
def Instr.perform (shared : σ) (sems : ξ → ℕ) : Instr σ ξ → Option (σ × (ξ → ℕ))
  | .wait x => if 0 < sems x then some (shared, Function.update sems x (sems x - 1)) else none
  | .post x => some (shared, Function.update sems x (sems x + 1))
  | .act f => some (f shared, sems)

/-- The next instruction of a thread; `none` if it has to wait or has come to its end. -/
def step (program : ι → List (Instr σ ξ)) (s : State ι σ ξ) (i : ι) : Option (State ι σ ξ) :=
  (program i)[s.position i]?.bind fun instr => (instr.perform s.shared s.sems).map fun r =>
    ⟨r.1, r.2, Function.update s.position i (s.position i + 1)⟩

variable {program : ι → List (Instr σ ξ)} {s s' : State ι σ ξ} {i : ι}

theorem step_some (h : step program s i = some s') :
    ∃ instr shared sems, (program i)[s.position i]? = some instr ∧
      instr.perform s.shared s.sems = some (shared, sems) ∧
        s' = ⟨shared, sems, Function.update s.position i (s.position i + 1)⟩ := by
  obtain ⟨instr, hinstr, h⟩ := Option.bind_eq_some_iff.1 h
  obtain ⟨⟨shared, sems⟩, hperform, rfl⟩ := Option.map_eq_some_iff.1 h
  exact ⟨instr, shared, sems, hinstr, hperform, rfl⟩

/-- A thread cannot go on, if it is at its end or before a semaphore that is zero. -/
theorem step_none (h : step program s i = none) :
    (program i).length ≤ s.position i ∨ ∃ x, (program i)[s.position i]? = some (.wait x) ∧ s.sems x = 0 := by
  unfold step at h
  rcases hinstr : (program i)[s.position i]? with _ | instr
  · exact .inl (List.getElem?_eq_none_iff.1 hinstr)
  · rw [hinstr, Option.bind_some, Option.map_eq_none_iff] at h
    cases instr with
    | wait x =>
      simp only [Instr.perform, ite_eq_right_iff, reduceCtorEq, imp_false] at h
      exact .inr ⟨x, rfl, Nat.eq_zero_of_not_pos h⟩
    | post x => cases h
    | act f => cases h

/-! ## Runs end -/

variable [Fintype ι]

/-- What the threads have performed so far. -/
def performed (s : State ι σ ξ) : ℕ := ∑ i, s.position i

theorem performed_step (h : step program s i = some s') : performed s' = performed s + 1 := by
  obtain ⟨instr, shared, sems, -, -, rfl⟩ := step_some h
  unfold performed
  rw [Finset.sum_update_of_mem (Finset.mem_univ i), ← Finset.sum_erase_add _ _ (Finset.mem_univ i),
    Finset.sdiff_singleton_eq_erase]
  omega

theorem performed_run {is : List ι} (h : run (step program) s is = some s') :
    performed s' = performed s + is.length := by
  induction is generalizing s with
  | nil =>
    cases h
    rfl
  | cons i is ih =>
    obtain ⟨t, ht, h⟩ := run_cons_some.1 h
    rw [ih h, performed_step ht, List.length_cons]
    omega

/-- No thread is behind its end. -/
def Within (program : ι → List (Instr σ ξ)) (s : State ι σ ξ) : Prop := ∀ i, s.position i ≤ (program i).length

omit [Fintype ι] in
theorem within_step (hs : Within program s) (h : step program s i = some s') : Within program s' := by
  obtain ⟨instr, shared, sems, hinstr, -, rfl⟩ := step_some h
  obtain ⟨hlt, -⟩ := List.getElem?_eq_some_iff.1 hinstr
  intro j
  by_cases hj : j = i
  · subst hj
    dsimp only
    rw [Function.update_self]
    exact hlt
  · dsimp only
    rw [Function.update_of_ne hj]
    exact hs j

/-- A schedule is no longer than the programs. -/
theorem length_run_le (hs : Within program s) {is : List ι} (h : run (step program) s is = some s') :
    performed s + is.length ≤ ∑ i, (program i).length := by
  have hwithin : Within program s' :=
    run_invariant (fun _ _ _ hI _ => within_step hI) hs (stepsOk_of_forall (fun _ _ _ => trivial) s) h
  rw [← performed_run h]
  exact Finset.sum_le_sum fun i _ => hwithin i

/-- Every state is followed by one in which no thread can go on. -/
theorem exists_stuck (hs : Within program s) :
    ∃ is s', run (step program) s is = some s' ∧ ∀ i, step program s' i = none := by
  induction h : ∑ i, (program i).length - performed s using Nat.strong_induction_on generalizing s with
  | _ n ih =>
    by_cases hstuck : ∀ i, step program s i = none
    · exact ⟨[], s, rfl, hstuck⟩
    · obtain ⟨i, hi⟩ := not_forall.1 hstuck
      obtain ⟨t, ht⟩ := Option.ne_none_iff_exists'.1 hi
      have hwithin := within_step hs ht
      have hle : performed t ≤ ∑ i, (program i).length := Finset.sum_le_sum fun i _ => hwithin i
      have hlt : ∑ i, (program i).length - performed t < n := by
        rw [performed_step ht] at hle ⊢
        omega
      obtain ⟨is, s', hrun, hend⟩ := ih _ hlt hwithin rfl
      exact ⟨i :: is, s', run_cons_some.2 ⟨t, ht, hrun⟩, hend⟩

end GoodGoodStudy.Lib.Semaphore
