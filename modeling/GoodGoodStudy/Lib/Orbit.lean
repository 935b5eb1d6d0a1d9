/-
The orbit of a point under a map of a finite type into itself: a tail and then a cycle, and no value comes twice but by
going round the cycle. Two walkers on it, the second one at twice the speed, meet at the multiples of the length of the
cycle that are not on the tail; from there on the steps that are left to the cycle are as many as those of the tail.
-/
import Mathlib.Data.Fintype.Option
import Mathlib.Data.Fintype.Pigeonhole
import Mathlib.Data.Nat.ModEq
import Mathlib.Data.Nat.Find
import Mathlib.Dynamics.PeriodicPts.Defs
import GoodGoodStudy.Lib.Loop

namespace GoodGoodStudy.Lib

variable {τ : Type*}

open Function

/-- After `tail` steps the orbit goes round a cycle of `period` points. -/
structure Rho (f : τ → τ) (x : τ) (tail period : ℕ) : Prop where
  pos : 0 < period
  eq_iff : ∀ {i j : ℕ}, f^[i] x = f^[j] x ↔ i = j ∨ tail ≤ i ∧ tail ≤ j ∧ i ≡ j [MOD period]

theorem iterate_eq_iff_modEq {f : τ → τ} {x : τ} (h : x ∈ periodicPts f) {i j : ℕ} :
    f^[i] x = f^[j] x ↔ i ≡ j [MOD minimalPeriod f x] := by
  have hpos := minimalPeriod_pos_of_mem_periodicPts h
  rw [← iterate_mod_minimalPeriod_eq (n := i), ← iterate_mod_minimalPeriod_eq (n := j)]
  exact iterate_eq_iterate_iff_of_lt_minimalPeriod (Nat.mod_lt i hpos) (Nat.mod_lt j hpos)

theorem mem_periodicPts_of_eq {f : τ → τ} {x : τ} {i j : ℕ} (hlt : i < j) (h : f^[i] x = f^[j] x) :
    f^[i] x ∈ periodicPts f := by
  refine mk_mem_periodicPts (Nat.sub_pos_of_lt hlt) ?_
  rw [IsPeriodicPt, IsFixedPt, ← iterate_add_apply, Nat.sub_add_cancel hlt.le, h]

theorem exists_rho [Finite τ] (f : τ → τ) (x : τ) : ∃ tail period, Rho f x tail period := by
  classical
  have hper : ∃ i, f^[i] x ∈ periodicPts f := by
    obtain ⟨i, j, hne, heq⟩ := Finite.exists_ne_map_eq_of_infinite fun n => f^[n] x
    rcases Nat.lt_or_gt_of_ne hne with hlt | hlt
    · exact ⟨i, mem_periodicPts_of_eq hlt heq⟩
    · exact ⟨j, mem_periodicPts_of_eq hlt heq.symm⟩
  have hcycle := Nat.find_spec hper
  refine ⟨Nat.find hper, minimalPeriod f (f^[Nat.find hper] x), minimalPeriod_pos_of_mem_periodicPts hcycle, ?_⟩
  -- behind the tail the points are those of the cycle
  have hbehind : ∀ {i j}, Nat.find hper ≤ i → Nat.find hper ≤ j →
      (f^[i] x = f^[j] x ↔ i ≡ j [MOD minimalPeriod f (f^[Nat.find hper] x)]) := by
    intro i j hi hj
    obtain ⟨a, rfl⟩ := Nat.exists_eq_add_of_le' hi
    obtain ⟨b, rfl⟩ := Nat.exists_eq_add_of_le' hj
    rw [iterate_add_apply, iterate_add_apply, iterate_eq_iff_modEq hcycle]
    exact ⟨fun h => h.add_right _, fun h => h.add_right_cancel' _⟩
  intro i j
  constructor
  · intro h
    rcases lt_trichotomy i j with hlt | rfl | hlt
    · have hi := Nat.find_min' hper (mem_periodicPts_of_eq hlt h)
      exact Or.inr ⟨hi, hi.trans hlt.le, (hbehind hi (hi.trans hlt.le)).1 h⟩
    · exact Or.inl rfl
    · have hj := Nat.find_min' hper (mem_periodicPts_of_eq hlt h.symm)
      exact Or.inr ⟨hj.trans hlt.le, hj, (hbehind (hj.trans hlt.le) hj).1 h⟩
  · rintro (rfl | ⟨hi, hj, h⟩)
    · rfl
    · exact (hbehind hi hj).2 h

namespace Rho

variable {f : τ → τ} {x : τ} {tail period : ℕ}

/-- The slow walker meets the fast one. -/
theorem meet_iff (h : Rho f x tail period) {t : ℕ} (ht : 0 < t) :
    f^[t] x = f^[2 * t] x ↔ tail ≤ t ∧ period ∣ t := by
  rw [h.eq_iff, Nat.modEq_iff_dvd' (by omega), show 2 * t - t = t by omega]
  constructor
  · rintro (heq | ⟨htail, -, hdvd⟩)
    · omega
    · exact ⟨htail, hdvd⟩
  · rintro ⟨htail, hdvd⟩
    exact Or.inr ⟨htail, by omega, hdvd⟩

/-- A walker that starts anew meets one that is a multiple of the period ahead where the cycle begins. -/
theorem catch_iff (h : Rho f x tail period) {ahead s : ℕ} (hahead : 0 < ahead) (hdvd : period ∣ ahead) :
    f^[s] x = f^[ahead + s] x ↔ tail ≤ s := by
  rw [h.eq_iff, Nat.modEq_iff_dvd' (by omega), show ahead + s - s = ahead by omega]
  constructor
  · rintro (heq | ⟨htail, -, -⟩)
    · omega
    · exact htail
  · exact fun htail => Or.inr ⟨htail, by omega, hdvd⟩

/-- What comes for the second time first is the first point of the cycle. -/
theorem injective_before (h : Rho f x tail period) {i j : ℕ} (hlt : i < j) (hj : j < tail + period) :
    f^[i] x ≠ f^[j] x := by
  rw [Ne, h.eq_iff, not_or]
  refine ⟨hlt.ne, ?_⟩
  rintro ⟨htail, -, hmod⟩
  have hle := Nat.le_of_dvd (by omega) ((Nat.modEq_iff_dvd' hlt.le).1 hmod)
  omega

theorem returns (h : Rho f x tail period) : f^[tail + period] x = f^[tail] x :=
  h.eq_iff.2 (Or.inr ⟨Nat.le_add_right tail period, le_rfl, Nat.add_modEq_right⟩)

end Rho

/-! ## Following pointers -/

section Follow

variable {ν : Type*} (next : ν → Option ν)

/-- One step along the pointers; from `none` there is none. -/
def follow (p : Option ν) : Option ν := p.bind next

variable {next}

theorem follow_none (n : ℕ) : (follow next)^[n] none = none := iterate_fixed rfl n

theorem follow_none_of_le {p : Option ν} {i j : ℕ} (hij : i ≤ j) (h : (follow next)^[i] p = none) :
    (follow next)^[j] p = none := by
  obtain ⟨k, rfl⟩ := Nat.exists_eq_add_of_le' hij
  rw [iterate_add_apply, h, follow_none]

theorem follow_succ {p : Option ν} {n : ℕ} {a : ν} (h : (follow next)^[n] p = some a) :
    (follow next)^[n + 1] p = next a := by
  rw [iterate_succ_apply', h]
  rfl

/-- A list that ends does so where the tail of its orbit ends. -/
theorem Rho.none_iff {p : Option ν} {tail period : ℕ} (h : Rho (follow next) p tail period)
    (hend : (follow next)^[tail] p = none) {i : ℕ} : (follow next)^[i] p = none ↔ tail ≤ i := by
  constructor
  · intro hi
    rcases h.eq_iff.1 (hi.trans (follow_none_of_le (Nat.le_succ i) hi).symm) with heq | ⟨htail, -, -⟩
    · omega
    · exact htail
  · exact fun hi => follow_none_of_le hi hend

/-- A list whose orbit goes round a cycle of nodes has no end. -/
theorem Rho.ne_none {p : Option ν} {tail period : ℕ} (h : Rho (follow next) p tail period)
    (hcycle : (follow next)^[tail] p ≠ none) (i : ℕ) : (follow next)^[i] p ≠ none := by
  intro hi
  have hmul : (follow next)^[tail + period * i] p = (follow next)^[tail] p :=
    h.eq_iff.2 (Or.inr ⟨Nat.le_add_right _ _, le_rfl, Nat.modEq_iff_dvd' (by omega) |>.2 (by simp) |>.symm⟩)
  have hle : i ≤ tail + period * i := (Nat.le_mul_of_pos_left i h.pos).trans (Nat.le_add_left _ _)
  exact hcycle (hmul.symm.trans (follow_none_of_le hle hi))

/-! ## Lists that end -/

/-- No node comes again behind itself. -/
def Acyclic (next : ν → Option ν) : Prop := ∀ p n, 0 < n → (follow next)^[n] (some p) ≠ some p

/-- The list has `len` nodes. -/
def Ends (next : ν → Option ν) (p : Option ν) (len : ℕ) : Prop := ∀ i, (follow next)^[i] p = none ↔ len ≤ i

theorem Acyclic.exists_ends [Finite ν] (h : Acyclic next) (p : Option ν) : ∃ len, Ends next p len := by
  obtain ⟨tail, period, hrho⟩ := exists_rho (follow next) p
  refine ⟨tail, fun i => hrho.none_iff ?_⟩
  cases htail : (follow next)^[tail] p with
  | none => rfl
  | some y =>
    refine absurd ?_ (h y period hrho.pos)
    rw [← htail, ← iterate_add_apply, Nat.add_comm period tail, hrho.returns]

namespace Ends

variable {p q : Option ν} {lenp lenq : ℕ}

/-- From a common node on the lists are the same. -/
theorem sub_eq (hp : Ends next p lenp) (hq : Ends next q lenq) {i j : ℕ} (hi : i ≤ lenp) (hj : j ≤ lenq)
    (h : (follow next)^[i] p = (follow next)^[j] q) : lenp - i = lenq - j := by
  have hshift : ∀ d, lenp ≤ d + i ↔ lenq ≤ d + j := fun d => by
    rw [← hp, ← hq, iterate_add_apply, iterate_add_apply, h]
  have hle := (hshift (lenp - i)).1 (by omega)
  have hge := (hshift (lenq - j)).2 (by omega)
  omega

/-- How many nodes the lists have in common, counted from their end. -/
theorem exists_common (hp : Ends next p lenp) (hq : Ends next q lenq) : ∃ common ≤ lenp, common ≤ lenq ∧
    ∀ i ≤ lenp, ∀ j ≤ lenq, (follow next)^[i] p = (follow next)^[j] q ↔ lenp - i = lenq - j ∧ lenp - i ≤ common := by
  classical
  let Same := fun d => (follow next)^[lenp - d] p = (follow next)^[lenq - d] q
  have hend : Same 0 := ((hp lenp).2 le_rfl).trans ((hq lenq).2 le_rfl).symm
  have hbound := Nat.findGreatest_le (P := Same) (min lenp lenq)
  have hsame := Nat.findGreatest_spec (P := Same) (Nat.zero_le (min lenp lenq)) hend
  have hmax := fun d => Nat.le_findGreatest (P := Same) (m := d) (n := min lenp lenq)
  generalize Nat.findGreatest Same (min lenp lenq) = common at hbound hsame hmax
  refine ⟨common, by omega, by omega, fun i hi j hj => ⟨fun h => ?_, ?_⟩⟩
  · have hsub := hp.sub_eq hq hi hj h
    refine ⟨hsub, hmax _ (by omega) ?_⟩
    show (follow next)^[lenp - (lenp - i)] p = (follow next)^[lenq - (lenp - i)] q
    rwa [Nat.sub_sub_self hi, hsub, Nat.sub_sub_self hj]
  · rintro ⟨hsub, hle⟩
    obtain ⟨d, rfl⟩ := Nat.exists_eq_add_of_le hle
    calc (follow next)^[i] p
        = (follow next)^[d + (lenp - (lenp - i + d))] p := by rw [show d + (lenp - (lenp - i + d)) = i by omega]
      _ = (follow next)^[d + (lenq - (lenp - i + d))] q := by
          rw [iterate_add_apply, hsame, ← iterate_add_apply]
      _ = (follow next)^[j] q := by rw [show d + (lenq - (lenp - i + d)) = j by omega]

end Ends

end Follow

/-! ## Until a point comes again -/

section Hunt

/-- After some rounds of such a loop: the points met before, none of which is the goal. -/
structure Met (f : τ → τ) (goal x : τ) (s : τ × Finset τ) : Prop where
  current : ∃ n, s.1 = f^[n] x ∧ ∀ y, y ∈ s.2 ↔ ∃ i < n, f^[i + 1] x = y
  goal : goal ∉ s.2

variable {f : τ → τ} {goal x : τ} {s : τ × Finset τ}

/-- If a point comes again, all points of the orbit were met. -/
theorem Met.closed (h : Met f goal x s) (hmem : f s.1 ∈ s.2) (k : ℕ) : f^[k + 1] x ∈ s.2 := by
  obtain ⟨n, hn, hseen⟩ := h.current
  induction k with
  | zero =>
    rcases Nat.eq_zero_or_pos n with rfl | hpos
    · rwa [hn] at hmem
    · exact (hseen _).2 ⟨0, hpos, rfl⟩
  | succ k ih =>
    obtain ⟨i, hi, heq⟩ := (hseen _).1 ih
    rw [iterate_succ_apply', ← heq, ← iterate_succ_apply' f]
    rcases Nat.lt_or_ge (i + 1) n with hlt | hge
    · exact (hseen _).2 ⟨i + 1, hlt, rfl⟩
    · obtain rfl : i + 1 = n := by omega
      rwa [hn, ← iterate_succ_apply' f] at hmem

variable [DecidableEq τ]

/-- A round of a loop that goes along an orbit until it meets the goal, or a point that it has met before. -/
def hunt (f : τ → τ) (goal : τ) (s : τ × Finset τ) : Round (τ × Finset τ) Bool :=
  if f s.1 = goal then .leave true
  else if f s.1 ∈ s.2 then .leave false
  else .again (f s.1, insert (f s.1) s.2)

theorem Met.next (h : Met f goal x s) (hne : f s.1 ≠ goal) : Met f goal x (f s.1, insert (f s.1) s.2) := by
  obtain ⟨n, hn, hmem⟩ := h.current
  have hstep : f^[n + 1] x = f s.1 := by rw [iterate_succ_apply', hn]
  refine ⟨⟨n + 1, hstep.symm, fun y => ?_⟩, fun hgoal => ?_⟩
  · rw [Finset.mem_insert, hmem, Nat.exists_lt_succ_right, or_comm, hstep, eq_comm (a := y)]
  · rcases Finset.mem_insert.1 hgoal with heq | hgoal
    · exact hne heq.symm
    · exact h.goal hgoal

/-- If the orbit stays in a finite set, the loop ends, and says whether the orbit meets the goal. -/
theorem hunt_returns (B : Finset τ) (hB : ∀ k, f^[k + 1] x ∈ B) :
    ∃ b, Returns (fun fuel => loop (hunt f goal) fuel (x, ∅)) b ∧ (b = true ↔ ∃ k, f^[k + 1] x = goal) := by
  refine Returns.loop_of_measure (I := Met f goal x) (fun s => B.card - s.2.card) (fun s hs => ?_)
    ⟨⟨0, rfl, fun y => by simp⟩, Finset.notMem_empty goal⟩
  obtain ⟨n, hn, -⟩ := hs.current
  unfold hunt
  split_ifs with hgoal hseen
  · refine Or.inr ⟨true, rfl, iff_of_true rfl ⟨n, ?_⟩⟩
    rw [iterate_succ_apply', ← hn, hgoal]
  · refine Or.inr ⟨false, rfl, iff_of_false Bool.false_ne_true ?_⟩
    rintro ⟨k, hk⟩
    exact hs.goal (hk ▸ hs.closed hseen k)
  · refine Or.inl ⟨_, rfl, hs.next hgoal, ?_⟩
    -- one more point of the finite set was met
    have hsub : insert (f s.1) s.2 ⊆ B := fun y hy => by
      obtain ⟨m, -, hmem⟩ := (hs.next hgoal).current
      obtain ⟨i, -, rfl⟩ := (hmem y).1 hy
      exact hB i
    have hcard := Finset.card_le_card hsub
    rw [Finset.card_insert_of_notMem hseen] at hcard ⊢
    omega

end Hunt

end GoodGoodStudy.Lib
