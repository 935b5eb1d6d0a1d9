/-
Sorted lists, and the partition of a list around its first element by exchanges of elements: the smaller ones are
collected in front, in their order, the others behind them. At last the first element changes places with the last of
the smaller ones, and stands where it stands in the sorted list.
-/
import Mathlib.Data.List.Induction
import Mathlib.Data.List.Pairwise
import Mathlib.Data.List.Perm.Basic
import Mathlib.Data.List.Sort

namespace GoodGoodStudy.Lib

variable {α : Type*} [LinearOrder α] {l L R : List α} {p x : α} {k : ℕ}

/-- The elements in increasing order. -/
def sorted (l : List α) : List α := l.insertionSort (· ≤ ·)

theorem sorted_perm (l : List α) : (sorted l).Perm l := List.perm_insertionSort _ l

theorem sorted_pairwise (l : List α) : (sorted l).Pairwise (· ≤ ·) := List.pairwise_insertionSort _ l

theorem length_sorted (l : List α) : (sorted l).length = l.length := (sorted_perm l).length_eq

theorem eq_sorted {l' : List α} (hperm : l'.Perm l) (h : l'.Pairwise (· ≤ ·)) : l' = sorted l :=
  (hperm.trans (sorted_perm l).symm).eq_of_pairwise' h (sorted_pairwise l)

theorem sorted_congr {l' : List α} (h : l'.Perm l) : sorted l' = sorted l :=
  eq_sorted ((sorted_perm l').trans h) (sorted_pairwise l')

theorem sorted_short (h : l.length ≤ 1) : sorted l = l := by
  match l, h with
  | [], _ => rfl
  | [a], _ => rfl

theorem sorted_append_cons (hL : ∀ a ∈ L, a ≤ x) (hR : ∀ b ∈ R, x ≤ b) :
    sorted (L ++ x :: R) = sorted L ++ x :: sorted R := by
  have hL' : ∀ a ∈ sorted L, a ≤ x := fun a ha => hL a ((sorted_perm L).mem_iff.1 ha)
  have hR' : ∀ b ∈ sorted R, x ≤ b := fun b hb => hR b ((sorted_perm R).mem_iff.1 hb)
  refine (eq_sorted ((sorted_perm L).append ((sorted_perm R).cons x)) ?_).symm
  rw [List.pairwise_append, List.pairwise_cons]
  refine ⟨sorted_pairwise L, ⟨hR', sorted_pairwise R⟩, fun a ha b hb => ?_⟩
  rcases List.mem_cons.1 hb with rfl | hb
  · exact hL' a ha
  · exact (hL' a ha).trans (hR' b hb)

/-! ## An element that stands where it stands in the sorted list -/

/-- No element before the index is greater than the one at it, and none behind is smaller. -/
def FixedAt (l : List α) (k : ℕ) : Prop :=
  ∃ L x R, l = L ++ x :: R ∧ L.length = k ∧ (∀ a ∈ L, a ≤ x) ∧ ∀ b ∈ R, x ≤ b

theorem fixedAt_short (hl : l.length ≤ 1) (hk : k < l.length) : FixedAt l k := by
  match l, hl with
  | [], _ => exact (Nat.not_lt_zero k hk).elim
  | [a], _ => exact ⟨[], a, [], rfl, (Nat.lt_one_iff.1 hk).symm, by simp, by simp⟩

theorem FixedAt.append_right (hL : ∀ a ∈ L, a ≤ x) (hR : ∀ b ∈ R, x ≤ b) (h : FixedAt R k) :
    FixedAt (L ++ x :: R) (L.length + 1 + k) := by
  obtain ⟨M, y, N, rfl, rfl, hM, hN⟩ := h
  have hy : x ≤ y := hR y (by simp)
  refine ⟨L ++ x :: M, y, N, by simp, by simp; omega, fun a ha => ?_, hN⟩
  rcases List.mem_append.1 ha with ha | ha
  · exact (hL a ha).trans hy
  · rcases List.mem_cons.1 ha with rfl | ha
    · exact hy
    · exact hM a ha

theorem FixedAt.append_left (hL : ∀ a ∈ L, a ≤ x) (hR : ∀ b ∈ R, x ≤ b) (h : FixedAt L k) :
    FixedAt (L ++ x :: R) k := by
  obtain ⟨M, y, N, rfl, rfl, hM, hN⟩ := h
  have hy : y ≤ x := hL y (by simp)
  refine ⟨M, y, N ++ x :: R, by simp, rfl, hM, fun b hb => ?_⟩
  rcases List.mem_append.1 hb with hb | hb
  · exact hN b hb
  · rcases List.mem_cons.1 hb with rfl | hb
    · exact hy
    · exact hy.trans (hR b hb)

theorem FixedAt.getElem? (h : FixedAt l k) : l[k]? = (sorted l)[k]? := by
  obtain ⟨L, x, R, rfl, rfl, hL, hR⟩ := h
  rw [sorted_append_cons hL hR, List.getElem?_append_right le_rfl, Nat.sub_self, ← length_sorted L,
    List.getElem?_append_right le_rfl, Nat.sub_self]
  rfl

/-- The elements before the index are the smallest ones. -/
theorem FixedAt.take_perm (h : FixedAt l k) : (l.take k).Perm ((sorted l).take k) := by
  obtain ⟨L, x, R, rfl, rfl, hL, hR⟩ := h
  rw [sorted_append_cons hL hR, List.take_left, ← length_sorted L, List.take_left]
  exact (sorted_perm L).symm

theorem FixedAt.drop_perm (h : FixedAt l k) : (l.drop k).Perm ((sorted l).drop k) := by
  obtain ⟨L, x, R, rfl, rfl, hL, hR⟩ := h
  rw [sorted_append_cons hL hR, List.drop_left, ← length_sorted L, List.drop_left]
  exact ((sorted_perm R).cons x).symm

/-- The last element stands where it stands in the sorted list exactly if it is the greatest. -/
theorem concat_getElem?_iff (l : List α) (x : α) :
    (l ++ [x])[l.length]? = (sorted (l ++ [x]))[l.length]? ↔ ∀ a ∈ l, a ≤ x := by
  constructor
  · intro h a ha
    rw [List.getElem?_concat_length] at h
    obtain ⟨hlt, hx⟩ := List.getElem?_eq_some_iff.1 h.symm
    obtain ⟨i, hi, rfl⟩ := List.getElem_of_mem ((sorted_perm (l ++ [x])).mem_iff.2 (List.mem_append_left [x] ha))
    have hle : i ≤ l.length := by
      rw [length_sorted, List.length_append, List.length_singleton] at hi
      omega
    exact ((sorted_pairwise (l ++ [x])).rel_get_of_le (a := ⟨i, hi⟩) (b := ⟨l.length, hlt⟩) hle).trans_eq hx
  · intro h
    exact FixedAt.getElem? ⟨l, x, [], rfl, rfl, h, by simp⟩

/-! ## The element before an index -/

section Before

omit [LinearOrder α]

variable {L' R' : List α} {j : ℕ}

/-- The lists have the same element just before the index, if there is one. -/
def AgreeBefore (l l' : List α) (j : ℕ) : Prop := ∀ i, j = i + 1 → l[i]? = l'[i]?

theorem agreeBefore_zero (l l' : List α) : AgreeBefore l l' 0 := fun _ hi => absurd hi.symm (Nat.succ_ne_zero _)

theorem agreeBefore_succ {l l' : List α} {i : ℕ} : AgreeBefore l l' (i + 1) ↔ l[i]? = l'[i]? := by
  constructor
  · exact fun h => h i rfl
  · rintro h _ ⟨⟩
    exact h

theorem agreeBefore_left (hlen : L.length = L'.length) (hj : j ≤ L.length) :
    AgreeBefore (L ++ R) (L' ++ R') j ↔ AgreeBefore L L' j := by
  apply forall₂_congr
  intro i hi
  rw [List.getElem?_append_left (by omega), List.getElem?_append_left (by omega)]

theorem agreeBefore_right (hlen : L.length = L'.length) :
    AgreeBefore (L ++ x :: R) (L' ++ x :: R') (L.length + 1 + j) ↔ AgreeBefore R R' j := by
  cases j with
  | zero =>
    refine iff_of_true (agreeBefore_succ.2 ?_) (agreeBefore_zero R R')
    rw [List.getElem?_append_right le_rfl, hlen, List.getElem?_append_right le_rfl, Nat.sub_self]
    rfl
  | succ i =>
    have hbehind : ∀ M N : List α, (M ++ x :: N)[M.length + 1 + i]? = N[i]? := fun M N => by
      rw [List.getElem?_append_right (by omega), show M.length + 1 + i - M.length = i + 1 by omega,
        List.getElem?_cons_succ]
    have hbehind' := hbehind L' R'
    rw [← hlen] at hbehind'
    rw [← Nat.add_assoc, agreeBefore_succ, agreeBefore_succ, hbehind, hbehind']

end Before

/-! ## The partition -/

/-- The smaller elements and the others, when one more element is looked at: a smaller one changes places with the first
of the others. -/
def zone (p : α) (z : List α × List α) (a : α) : List α × List α :=
  if a < p then (z.1 ++ [a], z.2.tail ++ z.2.head?.toList) else (z.1, z.2 ++ [a])

def zones (p : α) (l : List α) : List α × List α := l.foldl (zone p) ([], [])

theorem zones_concat (p : α) (l : List α) (a : α) : zones p (l ++ [a]) = zone p (zones p l) a := by
  rw [zones, List.foldl_append]
  rfl

omit [LinearOrder α] in
theorem tail_head_perm (l : List α) : (l.tail ++ l.head?.toList).Perm l := by
  cases l with
  | nil => exact List.Perm.nil
  | cons a l => exact List.perm_append_singleton a l

theorem zones_fst (p : α) (l : List α) : (zones p l).1 = l.filter (· < p) := by
  induction l using List.reverseRecOn with
  | nil => rfl
  | append_singleton l a ih =>
    rw [zones_concat, zone, List.filter_append]
    split_ifs with ha
    · simp [ih, ha]
    · simp [ih, ha]

theorem zones_snd (p : α) (l : List α) : (zones p l).2.Perm (l.filter fun a => !decide (a < p)) := by
  induction l using List.reverseRecOn with
  | nil => exact List.Perm.nil
  | append_singleton l a ih =>
    rw [zones_concat, zone, List.filter_append]
    split_ifs with ha
    · simpa [ha] using (tail_head_perm _).trans ih
    · simpa [ha] using ih.append_right [a]

theorem zones_perm (p : α) (l : List α) : ((zones p l).1 ++ (zones p l).2).Perm l := by
  rw [zones_fst]
  exact ((zones_snd p l).append_left _).trans (List.filter_append_perm _ l)

theorem length_zones (p : α) (l : List α) : (zones p l).1.length + (zones p l).2.length = l.length := by
  rw [← List.length_append, (zones_perm p l).length_eq]

theorem lt_of_mem_zones_fst {a : α} (h : a ∈ (zones p l).1) : a < p := by
  rw [zones_fst] at h
  simpa using (List.mem_filter.1 h).2

theorem le_of_mem_zones_snd {a : α} (h : a ∈ (zones p l).2) : p ≤ a := by
  have hmem := (zones_snd p l).mem_iff.1 h
  simpa using (List.mem_filter.1 hmem).2

/-- The last element comes to the front. -/
def lastFirst (l : List α) : List α := l.getLast?.toList ++ l.dropLast

omit [LinearOrder α] in
theorem lastFirst_concat (l : List α) (x : α) : lastFirst (l ++ [x]) = x :: l := by simp [lastFirst]

omit [LinearOrder α] in
theorem lastFirst_perm (l : List α) : (lastFirst l).Perm l := by
  rcases l.eq_nil_or_concat with rfl | ⟨l, x, rfl⟩
  · exact List.Perm.nil
  · rw [List.concat_eq_append, lastFirst_concat]
    exact (List.perm_append_singleton x l).symm

/-- When the last element has come to the front, the one that was the last but one is the last. -/
theorem lastFirst_agreeBefore_iff (l : List α) : AgreeBefore (lastFirst l) (sorted (lastFirst l)) l.length ↔
    ∀ x, l.dropLast.getLast? = some x → ∀ a ∈ l, a ≤ x := by
  rcases l.eq_nil_or_concat with rfl | ⟨l, y, rfl⟩
  · exact iff_of_true (agreeBefore_zero _ _) (by simp)
  · rw [List.concat_eq_append, lastFirst_concat, List.dropLast_concat, List.length_append, List.length_singleton,
      agreeBefore_succ]
    rcases l.eq_nil_or_concat with rfl | ⟨l, x, rfl⟩
    · simp [sorted]
    · have hlast := concat_getElem?_iff (y :: l) x
      rw [List.concat_eq_append, List.length_append, List.length_singleton, List.getLast?_concat, ← List.cons_append,
        ← List.length_cons (a := y), hlast]
      constructor
      · rintro h _ ⟨⟩ a ha
        simp only [List.mem_append, List.mem_singleton] at ha
        rcases ha with (ha | rfl) | rfl
        · exact h a (List.mem_cons_of_mem y ha)
        · exact le_rfl
        · exact h a List.mem_cons_self
      · intro h a ha
        apply h x rfl a
        rcases List.mem_cons.1 ha with rfl | ha
        · simp
        · simp [ha]

/-- The smaller elements, as they stand after the partition. -/
def front (p : α) (l : List α) : List α := lastFirst (zones p l).1

theorem front_perm (p : α) (l : List α) : (front p l).Perm (l.filter (· < p)) := by
  rw [front, ← zones_fst]
  exact lastFirst_perm _

theorem lt_of_mem_front {a : α} (h : a ∈ front p l) : a < p := lt_of_mem_zones_fst ((lastFirst_perm _).mem_iff.1 h)

theorem partition_perm (p : α) (l : List α) : (front p l ++ p :: (zones p l).2).Perm (p :: l) := by
  refine List.perm_middle.trans (List.Perm.cons p ?_)
  exact ((lastFirst_perm _).append_right _).trans (zones_perm p l)

end GoodGoodStudy.Lib
