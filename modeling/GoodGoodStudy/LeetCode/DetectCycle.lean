/-
Cycles in linked lists: the two solutions of the exercise 142, which return the node where the cycle begins, and the
exercise 141, which asks whether there is one. The nodes are a finite type and `next` is any function on it. All three
functions end: a set of visited nodes finds the first node that comes twice, and so do two walkers, the second one at
twice the speed, if a third one starts at the head when they meet.
-/
import Mathlib.Data.Finset.Option
import Mathlib.Data.Finset.Union
import Mathlib.Data.Fintype.Option
import GoodGoodStudy.Lib.Loop
import GoodGoodStudy.Lib.Orbit

namespace GoodGoodStudy.LeetCode.DetectCycle

open GoodGoodStudy.Lib

variable {ν : Type} [DecidableEq ν] (next : ν → Option ν)

/-- `None` has no attributes. -/
inductive Exc
  | attributeError
  deriving DecidableEq, Repr

/-- `p.next` -/
def nextOf : Option ν → Except Exc (Option ν)
  | none => .error .attributeError
  | some p => .ok (next p)

/-! ## A set of visited nodes -/

namespace Solution1

/-- A round of `while p`, with the node `p` and the set `a`. -/
def round : Option ν × Finset ν → Round (Option ν × Finset ν) (Option ν)
  | (none, _) => .leave none
  | (some p, a) => if p ∉ a then .again (next p, insert p a) else .leave (some p)

def detectCycle (head : Option ν) (fuel : ℕ) : Option (Option ν) :=
  match head with
  | none => some none
  | some p => if next p = none then some none else loop (round next) fuel (head, ∅)

end Solution1

/-! ## Two walkers -/

/-- A round of `while fast and fast.next`, with `fast` and `slow`. The loop ends with `ended fast`, and with `met fast`
where the walkers meet. -/
def chase {ρ : Type} (ended met : Option ν → ρ) :
    Option ν × Option ν → Except Exc (Round (Option ν × Option ν) ρ)
  | (none, _) => .ok (.leave (ended none))
  | (some p, slow) =>
    match next p with
    | none => .ok (.leave (ended (some p)))
    | some q => do
      let slow ← nextOf next slow
      let fast := next q
      if slow = fast then return .leave (met fast) else return .again (fast, slow)

namespace Solution2

/-- A round of `while slow != fast`. -/
def round : Option ν × Option ν → Except Exc (Round (Option ν × Option ν) (Option ν))
  | (fast, slow) =>
    if slow ≠ fast then do
      let fast ← nextOf next fast
      let slow ← nextOf next slow
      return .again (fast, slow)
    else return .leave slow

def detectCycle (head : Option ν) (fuel : ℕ) : Option (Except Exc (Option ν)) :=
  match head with
  | none => some (.ok none)
  | some p =>
    if next p = none then some (.ok none)
    else
      (loop (attempt (chase next id id)) fuel (head, head)).bind fun
        | .error e => some (.error e)
        | .ok none => some (.ok none)
        | .ok (some q) =>
          if next q = none then some (.ok none) else loop (attempt (round next)) fuel (some q, head)

end Solution2

/-- The exercise 141. -/
def hasCycle (head : Option ν) (fuel : ℕ) : Option (Except Exc Bool) :=
  loop (attempt (chase next (fun _ => false) fun _ => true)) fuel (head, head)

/-! ## The first node that comes twice -/

/-- Going on from the head, `y` is the first node that was there before. -/
def FirstTwice (head : Option ν) (y : ν) : Prop :=
  ∃ j, (follow next)^[j] head = some y ∧ (∃ i < j, (follow next)^[i] head = some y) ∧
    ∀ i k, i < k → k < j → (follow next)^[i] head ≠ (follow next)^[k] head

variable {next} {head : Option ν} {tail period : ℕ}

omit [DecidableEq ν] in
theorem firstTwice (h : Rho (follow next) head tail period) {y : ν} (hy : (follow next)^[tail] head = some y) :
    FirstTwice next head y :=
  ⟨tail + period, h.returns.trans hy, ⟨tail, Nat.lt_add_of_pos_right h.pos, hy⟩, fun _ _ => h.injective_before⟩

/-! ## The set holds the nodes that were passed -/

namespace Solution1

/-- The nodes of the first `t` rounds. -/
def seen (next : ν → Option ν) (head : Option ν) (t : ℕ) : Finset ν :=
  (Finset.range t).biUnion fun i => ((follow next)^[i] head).toFinset

theorem mem_seen {t : ℕ} {p : ν} : p ∈ seen next head t ↔ ∃ i < t, (follow next)^[i] head = some p := by
  simp only [seen, Finset.mem_biUnion, Finset.mem_range, Option.mem_toFinset, Option.mem_def]

theorem seen_succ {t : ℕ} {p : ν} (h : (follow next)^[t] head = some p) :
    seen next head (t + 1) = insert p (seen next head t) := by
  rw [seen, Finset.range_add_one, Finset.biUnion_insert, h]
  rfl

theorem round_again (h : Rho (follow next) head tail period) {t : ℕ} (ht : t < tail + period)
    (hsome : (follow next)^[t] head ≠ none) :
    round next ((follow next)^[t] head, seen next head t) =
      .again ((follow next)^[t + 1] head, seen next head (t + 1)) := by
  obtain ⟨p, hp⟩ := Option.ne_none_iff_exists'.1 hsome
  have hnew : p ∉ seen next head t := by
    rw [mem_seen]
    rintro ⟨i, hi, hpi⟩
    exact h.injective_before hi ht (hpi.trans hp.symm)
  rw [follow_succ hp, seen_succ hp, hp, round, if_pos hnew]

/-- Where the cycle begins. -/
theorem loop_cycle (h : Rho (follow next) head tail period) {y : ν} (hy : (follow next)^[tail] head = some y) :
    Returns (fun fuel => loop (round next) fuel (head, ∅)) (some y) := by
  refine Returns.loop_run (fun t => ((follow next)^[t] head, seen next head t)) (tail + period)
    (fun t ht => round_again h ht (h.ne_none (by simp [hy]) t)) ?_
  have hold : y ∈ seen next head (tail + period) := mem_seen.2 ⟨tail, Nat.lt_add_of_pos_right h.pos, hy⟩
  rw [h.returns, hy, round, if_neg (not_not.2 hold)]

theorem loop_end (h : Rho (follow next) head tail period) (hend : (follow next)^[tail] head = none) :
    Returns (fun fuel => loop (round next) fuel (head, ∅)) none := by
  refine Returns.loop_run (fun t => ((follow next)^[t] head, seen next head t)) tail
    (fun t ht => round_again h (ht.trans_le (Nat.le_add_right tail period)) ?_) ?_
  · rw [Ne, h.none_iff hend]
    exact Nat.not_le.2 ht
  · rw [hend, round]

theorem detectCycle_of_none {p : ν} (hfirst : next p = none) : detectCycle next (some p) = fun _ => some none :=
  funext fun _ => if_pos hfirst

theorem detectCycle_of_next {p : ν} (hfirst : next p ≠ none) :
    detectCycle next (some p) = fun fuel => loop (round next) fuel (some p, ∅) :=
  funext fun _ => if_neg hfirst

theorem detectCycle_cycle (h : Rho (follow next) head tail period) {y : ν} (hy : (follow next)^[tail] head = some y) :
    Returns (detectCycle next head) (some y) := by
  have hsome := h.ne_none (by simp [hy])
  obtain ⟨p, rfl⟩ := Option.ne_none_iff_exists'.1 (hsome 0)
  rw [detectCycle_of_next (hsome 1)]
  exact loop_cycle h hy

theorem detectCycle_end (h : Rho (follow next) head tail period) (hend : (follow next)^[tail] head = none) :
    Returns (detectCycle next head) none := by
  cases head with
  | none => exact Returns.pure _
  | some p =>
    by_cases hfirst : next p = none
    · rw [detectCycle_of_none hfirst]
      exact Returns.pure _
    · rw [detectCycle_of_next hfirst]
      exact loop_end h hend

end Solution1

/-! ## The walkers meet on the cycle -/

section Chase

variable {ρ : Type} (ended met : Option ν → ρ)

/-- A round that both walkers make. -/
theorem chase_walk {t : ℕ} (hsome : (follow next)^[2 * t + 1] head ≠ none) :
    chase next ended met ((follow next)^[2 * t] head, (follow next)^[t] head) =
      if (follow next)^[t + 1] head = (follow next)^[2 * (t + 1)] head then
        .ok (.leave (met ((follow next)^[2 * (t + 1)] head)))
      else .ok (.again ((follow next)^[2 * (t + 1)] head, (follow next)^[t + 1] head)) := by
  have hsome' : ∀ i ≤ 2 * t + 1, ∃ p, (follow next)^[i] head = some p := fun i hi =>
    Option.ne_none_iff_exists'.1 fun hnone => hsome (follow_none_of_le hi hnone)
  obtain ⟨p, hp⟩ := hsome' (2 * t) (by omega)
  obtain ⟨q, hq⟩ := hsome' (2 * t + 1) le_rfl
  obtain ⟨r, hr⟩ := hsome' t (by omega)
  have hpq : next p = some q := (follow_succ hp).symm.trans hq
  rw [show 2 * (t + 1) = 2 * t + 1 + 1 by omega, follow_succ hq, follow_succ hr, hp, hr]
  simp only [chase, hpq, nextOf]
  rfl

/-- On a list that ends the walkers do not meet. -/
theorem chase_end (h : Rho (follow next) head tail period) (hend : (follow next)^[tail] head = none) :
    Returns (fun fuel => loop (attempt (chase next ended met)) fuel (head, head))
      (.ok (ended ((follow next)^[2 * (tail / 2)] head))) := by
  refine Returns.loop_run (fun t => ((follow next)^[2 * t] head, (follow next)^[t] head)) (tail / 2)
    (fun t ht => attempt_again ?_) (attempt_leave ?_)
  · have hapart : ¬ (follow next)^[t + 1] head = (follow next)^[2 * (t + 1)] head := by
      rw [h.meet_iff (Nat.succ_pos t)]
      omega
    have hsome : (follow next)^[2 * t + 1] head ≠ none := by
      rw [Ne, h.none_iff hend]
      omega
    rw [chase_walk ended met hsome, if_neg hapart]
  · have hlast : (follow next)^[2 * (tail / 2) + 1] head = none := (h.none_iff hend).2 (by omega)
    cases hp : (follow next)^[2 * (tail / 2)] head with
    | none => rfl
    | some p => simp only [chase, (follow_succ hp).symm.trans hlast]

/-- On a cycle they meet after a number of rounds that the period divides. -/
theorem chase_cycle (h : Rho (follow next) head tail period) (hcycle : (follow next)^[tail] head ≠ none) :
    ∃ t, 0 < t ∧ period ∣ t ∧ Returns (fun fuel => loop (attempt (chase next ended met)) fuel (head, head))
      (.ok (met ((follow next)^[2 * t] head))) := by
  have hmeet : ∃ t, tail ≤ t + 1 ∧ period ∣ t + 1 := by
    refine ⟨period * (tail + 1) - 1, ?_⟩
    have hle := Nat.le_mul_of_pos_left (tail + 1) h.pos
    rw [Nat.sub_add_cancel (by omega)]
    exact ⟨by omega, Nat.dvd_mul_right period _⟩
  obtain ⟨htail, hdvd⟩ := Nat.find_spec hmeet
  refine ⟨Nat.find hmeet + 1, Nat.succ_pos _, hdvd, ?_⟩
  refine Returns.loop_run (fun t => ((follow next)^[2 * t] head, (follow next)^[t] head)) (Nat.find hmeet)
    (fun t ht => attempt_again ?_) (attempt_leave ?_)
  · rw [chase_walk ended met (h.ne_none hcycle _), if_neg]
    rw [h.meet_iff (Nat.succ_pos t)]
    exact Nat.find_min hmeet ht
  · rw [chase_walk ended met (h.ne_none hcycle _), if_pos]
    exact (h.meet_iff (Nat.succ_pos _)).2 ⟨htail, hdvd⟩

end Chase

namespace Solution2

/-- From where the walkers met and from the head it is the same number of steps to the cycle. -/
theorem loop_cycle (h : Rho (follow next) head tail period) {y : ν} (hy : (follow next)^[tail] head = some y)
    {ahead : ℕ} (hahead : 0 < ahead) (hdvd : period ∣ ahead) :
    Returns (fun fuel => loop (attempt (round next)) fuel ((follow next)^[ahead] head, head)) (.ok (some y)) := by
  have hcycle : (follow next)^[tail] head ≠ none := by simp [hy]
  refine Returns.loop_run (fun s => ((follow next)^[ahead + s] head, (follow next)^[s] head)) tail
    (fun s hs => attempt_again ?_) (attempt_leave ?_)
  · obtain ⟨p, hp⟩ := Option.ne_none_iff_exists'.1 (h.ne_none hcycle (ahead + s))
    obtain ⟨q, hq⟩ := Option.ne_none_iff_exists'.1 (h.ne_none hcycle s)
    have hapart : (follow next)^[s] head ≠ (follow next)^[ahead + s] head := by
      rw [Ne, h.catch_iff hahead hdvd]
      exact Nat.not_le.2 hs
    rw [round, if_pos hapart, ← Nat.add_assoc, follow_succ hp, follow_succ hq, hp, hq]
    rfl
  · have htogether := (h.catch_iff hahead hdvd).2 (le_refl tail)
    rw [round, if_neg (not_not.2 htogether), hy]
    rfl

theorem detectCycle_of_none {p : ν} (hfirst : next p = none) :
    detectCycle next (some p) = fun _ => some (.ok none) :=
  funext fun _ => if_pos hfirst

theorem detectCycle_of_next {p : ν} (hfirst : next p ≠ none) :
    detectCycle next (some p) = fun fuel => (loop (attempt (chase next id id)) fuel (some p, some p)).bind fun
      | .error e => some (.error e)
      | .ok none => some (.ok none)
      | .ok (some q) =>
        if next q = none then some (.ok none) else loop (attempt (round next)) fuel (some q, some p) :=
  funext fun _ => if_neg hfirst

theorem detectCycle_cycle (h : Rho (follow next) head tail period) {y : ν} (hy : (follow next)^[tail] head = some y) :
    Returns (detectCycle next head) (.ok (some y)) := by
  have hsome := h.ne_none (by simp [hy])
  obtain ⟨p, rfl⟩ := Option.ne_none_iff_exists'.1 (hsome 0)
  obtain ⟨t, ht, hdvd, hchase⟩ := chase_cycle id id h (by simp [hy])
  have hloop := loop_cycle h hy (Nat.mul_pos Nat.two_pos ht) (hdvd.mul_left 2)
  obtain ⟨q, hq⟩ := Option.ne_none_iff_exists'.1 (hsome (2 * t))
  have hnext : next q ≠ none := by
    rw [← follow_succ hq]
    exact hsome _
  rw [detectCycle_of_next (hsome 1)]
  refine hchase.bind ?_
  rw [hq] at hloop ⊢
  simpa only [id, if_neg hnext] using hloop

theorem detectCycle_end (h : Rho (follow next) head tail period) (hend : (follow next)^[tail] head = none) :
    Returns (detectCycle next head) (.ok none) := by
  cases head with
  | none => exact Returns.pure _
  | some p =>
    by_cases hfirst : next p = none
    · rw [detectCycle_of_none hfirst]
      exact Returns.pure _
    · rw [detectCycle_of_next hfirst]
      refine (chase_end id id h hend).bind ?_
      have hlast : (follow next)^[2 * (tail / 2) + 1] (some p) = none := (h.none_iff hend).2 (by omega)
      cases hq : (follow next)^[2 * (tail / 2)] (some p) with
      | none => exact Returns.pure _
      | some q =>
        rw [follow_succ hq] at hlast
        simp only [id, hlast, if_true]
        exact Returns.pure _

end Solution2

/-- From every head the three functions return. If a node comes twice, both solutions return the first one that does,
and `hasCycle` is `True`; else the list ends, and they return `None` and `False`. -/
theorem detectCycle_exact [Fintype ν] (next : ν → Option ν) (head : Option ν) :
    (∃ y, FirstTwice next head y ∧ Returns (Solution1.detectCycle next head) (some y) ∧
      Returns (Solution2.detectCycle next head) (.ok (some y)) ∧ Returns (hasCycle next head) (.ok true)) ∨
    ((∃ n, (follow next)^[n] head = none) ∧ Returns (Solution1.detectCycle next head) none ∧
      Returns (Solution2.detectCycle next head) (.ok none) ∧ Returns (hasCycle next head) (.ok false)) := by
  obtain ⟨tail, period, h⟩ := exists_rho (follow next) head
  cases htail : (follow next)^[tail] head with
  | some y =>
    obtain ⟨t, -, -, hchase⟩ := chase_cycle (fun _ => false) (fun _ => true) h (by simp [htail])
    exact Or.inl ⟨y, firstTwice h htail, Solution1.detectCycle_cycle h htail, Solution2.detectCycle_cycle h htail,
      hchase⟩
  | none =>
    exact Or.inr ⟨⟨tail, htail⟩, Solution1.detectCycle_end h htail, Solution2.detectCycle_end h htail,
      chase_end _ _ h htail⟩

example : Solution2.detectCycle (fun i : Fin 3 => some (if i = 2 then 1 else i + 1)) (some 0) 4 =
    some (.ok (some 1)) := by
  decide

end GoodGoodStudy.LeetCode.DetectCycle
