/-
The first common node of two linked lists, by two walkers that start again at a head when they have come to the end of a
list. In the exercise 52 of the second collection each of them goes on with the other list, so that they have the same
way to the common end. In the exercise 160 each of them starts its own list again; they still meet at the first common
node, when both lengths divide the way to the common end.
-/
import GoodGoodStudy.Lib.Loop
import GoodGoodStudy.Lib.Orbit

namespace GoodGoodStudy.LeetCode.Intersection

open GoodGoodStudy.Lib Function

variable {ν : Type} (next : ν → Option ν)

/-- `p.next if p else head` -/
def nextOr (head : Option ν) : Option ν → Option ν
  | none => head
  | some p => next p

/-- A round of the loop, where the two walkers start again at `headP` and at `headQ`. -/
def round [DecidableEq ν] (headP headQ : Option ν) : Option ν × Option ν → Round (Option ν × Option ν) (Option ν)
  | (p, q) => if p ≠ q then .again (nextOr next headP p, nextOr next headQ q) else .leave p

def Exercise160.getIntersectionNode [DecidableEq ν] (headA headB : Option ν) (fuel : ℕ) : Option (Option ν) :=
  loop (round next headB headA) fuel (headB, headA)

def Offer52.getIntersectionNode [DecidableEq ν] (headA headB : Option ν) (fuel : ℕ) : Option (Option ν) :=
  loop (round next headB headA) fuel (headA, headB)

/-! ## The first common node -/

/-- The nodes of the list that begins at the head. -/
def nodes (head : Option ν) : Set ν := {a | ∃ i, (follow next)^[i] head = some a}

/-- `y` is the first node of the one list that is a node of the other. -/
def FirstCommon (headA headB : Option ν) (y : ν) : Prop :=
  ∃ i, (follow next)^[i] headA = some y ∧ y ∈ nodes next headB ∧
    ∀ k < i, ∀ a, (follow next)^[k] headA = some a → a ∉ nodes next headB

variable {next} {headA headB : Option ν} {lenA lenB common : ℕ}

/-- The last `common` nodes of the two lists are the common ones. -/
structure Joined (next : ν → Option ν) (headA headB : Option ν) (lenA lenB common : ℕ) : Prop where
  endsA : Ends next headA lenA
  endsB : Ends next headB lenB
  common_le_lenA : common ≤ lenA
  common_le_lenB : common ≤ lenB
  eq_iff : ∀ i ≤ lenA, ∀ j ≤ lenB,
    (follow next)^[i] headA = (follow next)^[j] headB ↔ lenA - i = lenB - j ∧ lenA - i ≤ common

theorem exists_joined [Finite ν] (h : Acyclic next) (headA headB : Option ν) :
    ∃ lenA lenB common, Joined next headA headB lenA lenB common := by
  obtain ⟨lenA, hA⟩ := h.exists_ends headA
  obtain ⟨lenB, hB⟩ := h.exists_ends headB
  obtain ⟨common, hleA, hleB, heq⟩ := hA.exists_common hB
  exact ⟨lenA, lenB, common, hA, hB, hleA, hleB, heq⟩

namespace Joined

theorem symm (h : Joined next headA headB lenA lenB common) : Joined next headB headA lenB lenA common where
  endsA := h.endsB
  endsB := h.endsA
  common_le_lenA := h.common_le_lenB
  common_le_lenB := h.common_le_lenA
  eq_iff i hi j hj := by
    rw [eq_comm, h.eq_iff j hj i hi]
    omega

theorem mem_nodes_iff (h : Joined next headA headB lenA lenB common) {i : ℕ} {a : ν}
    (ha : (follow next)^[i] headA = some a) : a ∈ nodes next headB ↔ lenA - common ≤ i := by
  have hi : i < lenA := Nat.lt_of_not_le fun hle => by simp [(h.endsA i).2 hle] at ha
  have hle := h.common_le_lenB
  constructor
  · rintro ⟨j, hj⟩
    have hlt : j < lenB := Nat.lt_of_not_le fun hle => by simp [(h.endsB j).2 hle] at hj
    have heq := (h.eq_iff i hi.le j hlt.le).1 (ha.trans hj.symm)
    omega
  · intro hcommon
    refine ⟨lenB - (lenA - i), ?_⟩
    rw [← ha, eq_comm, h.eq_iff i hi.le _ (Nat.sub_le _ _)]
    omega

/-- What the two lists have first in common. -/
theorem firstCommon_or_disjoint (h : Joined next headA headB lenA lenB common) :
    (∃ y, (follow next)^[lenA - common] headA = some y ∧ FirstCommon next headA headB y) ∨
      (follow next)^[lenA - common] headA = none ∧ ∀ a ∈ nodes next headA, a ∉ nodes next headB := by
  cases hy : (follow next)^[lenA - common] headA with
  | some y =>
    refine Or.inl ⟨y, rfl, lenA - common, hy, (h.mem_nodes_iff hy).2 le_rfl, fun k hk a ha => ?_⟩
    rw [h.mem_nodes_iff ha]
    exact Nat.not_le.2 hk
  | none =>
    refine Or.inr ⟨rfl, ?_⟩
    rintro a ⟨i, ha⟩ hmem
    have hnone := follow_none_of_le ((h.mem_nodes_iff ha).1 hmem) hy
    rw [ha] at hnone
    cases hnone

end Joined

/-! ## The walkers -/

/-- A walker on the first way through its list. -/
theorem nextOr_iterate (hA : Ends next headA lenA) (start : Option ν) : ∀ {t : ℕ}, t ≤ lenA →
    (nextOr next start)^[t] headA = (follow next)^[t] headA
  | 0, _ => rfl
  | t + 1, ht => by
    obtain ⟨a, ha⟩ := Option.ne_none_iff_exists'.1 fun hnone => Nat.not_le.2 ht ((hA t).1 hnone)
    rw [iterate_succ_apply', nextOr_iterate hA start (Nat.le_of_succ_le ht), follow_succ ha, ha, nextOr]

/-- Behind the end of the list it starts again. -/
theorem nextOr_again (hA : Ends next headA lenA) (start : Option ν) (t : ℕ) :
    (nextOr next start)^[t + (lenA + 1)] headA = (nextOr next start)^[t] start := by
  rw [iterate_add_apply, iterate_succ_apply', nextOr_iterate hA start le_rfl, (hA lenA).2 le_rfl, nextOr]

/-- A walker that goes on with the other list. -/
theorem nextOr_other (hA : Ends next headA lenA) (hB : Ends next headB lenB) {t : ℕ} (ht : t ≤ lenA + lenB + 1) :
    (nextOr next headB)^[t] headA =
      if t ≤ lenA then (follow next)^[t] headA else (follow next)^[t - (lenA + 1)] headB := by
  split_ifs with hfirst
  · exact nextOr_iterate hA headB hfirst
  · obtain ⟨d, rfl⟩ := Nat.exists_eq_add_of_le' (Nat.lt_of_not_le hfirst)
    rw [nextOr_again hA, Nat.add_sub_cancel, nextOr_iterate hB headB (by omega)]

/-- A walker that starts its own list again. -/
theorem nextOr_mod (hA : Ends next headA lenA) (t : ℕ) :
    (nextOr next headA)^[t] headA = (follow next)^[t % (lenA + 1)] headA := by
  have hperiod : IsPeriodicPt (nextOr next headA) (lenA + 1) headA := by
    have hagain := nextOr_again hA headA 0
    rwa [Nat.zero_add] at hagain
  rw [← hperiod.iterate_mod_apply, nextOr_iterate hA headA (Nat.le_of_lt_succ (Nat.mod_lt t (Nat.add_one_pos lenA)))]

variable [DecidableEq ν]

/-- The walkers go on until they meet. -/
theorem loop_round {startP startQ headP headQ : Option ν} (n : ℕ)
    (hapart : ∀ t < n, (nextOr next headP)^[t] startP ≠ (nextOr next headQ)^[t] startQ)
    (hmeet : (nextOr next headP)^[n] startP = (nextOr next headQ)^[n] startQ) :
    Returns (fun fuel => loop (round next headP headQ) fuel (startP, startQ)) ((nextOr next headP)^[n] startP) := by
  refine Returns.loop_run (fun t => ((nextOr next headP)^[t] startP, (nextOr next headQ)^[t] startQ)) n
    (fun t ht => ?_) ?_
  · rw [round, if_pos (hapart t ht), iterate_succ_apply', iterate_succ_apply']
  · rw [round, if_neg (not_not.2 hmeet)]

/-! ## Each walker on its own list -/

/-- The walkers are at the same distance from the common end when a multiple of both lengths lies there. -/
theorem dvd_of_sub_mod {len t d : ℕ} (h : len - t % (len + 1) = d) : len + 1 ∣ t + d + 1 := by
  have hdiv := Nat.div_add_mod t (len + 1)
  have hlt := Nat.mod_lt t (Nat.add_one_pos len)
  refine ⟨t / (len + 1) + 1, ?_⟩
  rw [Nat.mul_succ]
  omega

theorem mod_of_dvd {len t d : ℕ} (hd : d ≤ len) (h : len + 1 ∣ t + d + 1) : t % (len + 1) = len - d := by
  obtain ⟨k, hk⟩ := h
  obtain ⟨k, rfl⟩ : ∃ m, k = m + 1 := Nat.exists_eq_add_one.2 (Nat.pos_of_ne_zero fun h => by simp [h] at hk)
  rw [Nat.mul_succ] at hk
  rw [show t = len - d + (len + 1) * k by omega, Nat.add_mul_mod_self_left, Nat.mod_eq_of_lt (by omega)]

theorem Exercise160.getIntersectionNode_spec (h : Joined next headA headB lenA lenB common) :
    Returns (Exercise160.getIntersectionNode next headA headB) ((follow next)^[lenA - common] headA) := by
  have hcommonA := h.common_le_lenA
  have hcommonB := h.common_le_lenB
  have hpos := Nat.lcm_pos (Nat.add_one_pos lenA) (Nat.add_one_pos lenB)
  have hle := Nat.le_of_dvd hpos (Nat.dvd_lcm_left (lenA + 1) (lenB + 1))
  -- the common end, one step behind a multiple of both lengths
  obtain ⟨n, hn⟩ : ∃ n, n + common + 1 = (lenA + 1).lcm (lenB + 1) :=
    ⟨(lenA + 1).lcm (lenB + 1) - (common + 1), by omega⟩
  have hmodA : n % (lenA + 1) = lenA - common := mod_of_dvd hcommonA (hn ▸ Nat.dvd_lcm_left _ _)
  have hmodB : n % (lenB + 1) = lenB - common := mod_of_dvd hcommonB (hn ▸ Nat.dvd_lcm_right _ _)
  have hmeet : (nextOr next headB)^[n] headB = (follow next)^[lenA - common] headA := by
    rw [nextOr_mod h.endsB, hmodB, eq_comm, h.eq_iff _ (Nat.sub_le _ _) _ (Nat.sub_le _ _)]
    omega
  have hloop : Returns (Exercise160.getIntersectionNode next headA headB) _ := loop_round n
    (fun t ht heq => ?_) (by rw [hmeet, nextOr_mod h.endsA, hmodA])
  · rw [hmeet] at hloop
    exact hloop
  · have hltA := Nat.mod_lt t (Nat.add_one_pos lenA)
    have hltB := Nat.mod_lt t (Nat.add_one_pos lenB)
    rw [nextOr_mod h.endsA, nextOr_mod h.endsB, eq_comm,
      h.eq_iff _ (Nat.le_of_lt_succ hltA) _ (Nat.le_of_lt_succ hltB)] at heq
    have hdvd := Nat.lcm_dvd (dvd_of_sub_mod heq.1) (dvd_of_sub_mod rfl)
    have hmin := Nat.le_of_dvd (Nat.succ_pos _) hdvd
    omega

/-! ## Each walker goes on with the other list -/

omit [DecidableEq ν] in
theorem Offer52.apart (h : Joined next headA headB lenA lenB common) {t : ℕ} (htA : t < lenA - common ∨ lenA ≠ lenB)
    (ht : t < lenA + lenB + 1 - common) : (nextOr next headB)^[t] headA ≠ (nextOr next headA)^[t] headB := by
  have hcommonA := h.common_le_lenA
  have hcommonB := h.common_le_lenB
  rw [nextOr_other h.endsA h.endsB (by omega), nextOr_other h.endsB h.endsA (by omega)]
  split_ifs with hA hB hB
  · rw [Ne, h.eq_iff t hA t hB]
    omega
  · intro heq
    have hsub := h.endsA.sub_eq h.endsA hA (by omega) heq
    omega
  · intro heq
    have hsub := h.endsB.sub_eq h.endsB (by omega) hB heq
    omega
  · rw [Ne, h.symm.eq_iff _ (by omega) _ (by omega)]
    omega

theorem Offer52.getIntersectionNode_spec (h : Joined next headA headB lenA lenB common) :
    Returns (Offer52.getIntersectionNode next headA headB) ((follow next)^[lenA - common] headA) := by
  have hcommonA := h.common_le_lenA
  have hcommonB := h.common_le_lenB
  have hsame : (follow next)^[lenA - common] headA = (follow next)^[lenB - common] headB := by
    rw [h.eq_iff _ (Nat.sub_le _ _) _ (Nat.sub_le _ _)]
    omega
  by_cases hlen : lenA = lenB
  · have hA := nextOr_iterate h.endsA headB (Nat.sub_le lenA common)
    have hB := nextOr_iterate h.endsB headA (Nat.sub_le lenB common)
    rw [← hlen] at hB hsame
    rw [← hA]
    exact loop_round (lenA - common) (fun t ht => Offer52.apart h (Or.inl ht) (by omega))
      (hA.trans (hsame.trans hB.symm))
  · have hA := nextOr_other h.endsA h.endsB (t := lenA + lenB + 1 - common) (Nat.sub_le _ _)
    have hB := nextOr_other h.endsB h.endsA (t := lenA + lenB + 1 - common) (by omega)
    rw [if_neg (by omega), show lenA + lenB + 1 - common - (lenA + 1) = lenB - common by omega] at hA
    rw [if_neg (by omega), show lenA + lenB + 1 - common - (lenB + 1) = lenA - common by omega] at hB
    rw [hsame, ← hA]
    exact loop_round (lenA + lenB + 1 - common) (fun t ht => Offer52.apart h (Or.inr hlen) ht)
      (hA.trans (hsame.symm.trans hB.symm))

/-- Both functions return the first node of the first list that is a node of the second one, or `None` if the lists
have no node in common. -/
theorem getIntersectionNode_exact [Fintype ν] (next : ν → Option ν) (hacyclic : Acyclic next) (headA headB : Option ν) :
    (∃ y, FirstCommon next headA headB y ∧ Returns (Exercise160.getIntersectionNode next headA headB) (some y) ∧
      Returns (Offer52.getIntersectionNode next headA headB) (some y)) ∨
    ((∀ a ∈ nodes next headA, a ∉ nodes next headB) ∧
      Returns (Exercise160.getIntersectionNode next headA headB) none ∧
        Returns (Offer52.getIntersectionNode next headA headB) none) := by
  obtain ⟨lenA, lenB, common, h⟩ := exists_joined hacyclic headA headB
  have h160 := Exercise160.getIntersectionNode_spec h
  have h52 := Offer52.getIntersectionNode_spec h
  rcases h.firstCommon_or_disjoint with ⟨y, hy, hfirst⟩ | ⟨hnone, hdisjoint⟩
  · rw [hy] at h160 h52
    exact Or.inl ⟨y, hfirst, h160, h52⟩
  · rw [hnone] at h160 h52
    exact Or.inr ⟨hdisjoint, h160, h52⟩

/-- The list `0, 1` and the list `1`. -/
theorem getIntersectionNode_pair :
    let next : Fin 2 → Option (Fin 2) := fun i => if i = 0 then some 1 else none
    (∃ y, FirstCommon next (some 0) (some 1) y ∧
      Returns (Exercise160.getIntersectionNode next (some 0) (some 1)) (some y) ∧
        Returns (Offer52.getIntersectionNode next (some 0) (some 1)) (some y)) ∨
    ((∀ a ∈ nodes next (some 0), a ∉ nodes next (some 1)) ∧
      Returns (Exercise160.getIntersectionNode next (some 0) (some 1)) none ∧
        Returns (Offer52.getIntersectionNode next (some 0) (some 1)) none) := by
  refine getIntersectionNode_exact _ (fun p n hn => ?_) (some 0) (some 1)
  match n, hn with
  | 1, _ => revert p; decide
  | n + 2, _ =>
    rw [follow_none_of_le (Nat.le_add_left 2 n) (by revert p; decide)]
    exact (Option.some_ne_none p).symm

end GoodGoodStudy.LeetCode.Intersection
