/-
The two functions of the exercise 406, reconstruct a queue from what its people say: their heights, and how many
people in front are as tall. The first one goes from the short people to the tall ones, and leaves as many free places
in front of each; the second one goes from the tall ones to the short ones, and puts each behind as many. Of people
with the same height the one in front says the smaller number, so the first function takes them from behind, and the
second from the front.
-/
import Mathlib.Data.List.Nodup
import Mathlib.Data.Prod.Lex
import Mathlib.Order.Lattice
import GoodGoodStudy.Lib.Loop

namespace GoodGoodStudy.LeetCode.ReconstructQueue

open GoodGoodStudy.Lib

/-! ## The code -/

/-- The height, and the number of people in front that are as tall. -/
abbrev Person := ℤ × ℕ

/-- `people.sort(key=...)` -/
def sortBy (key : Person → ℤ ×ₗ ℤ) (people : List Person) : List Person :=
  people.mergeSort fun a b => decide (key a ≤ key b)

/-- `(x[0], -x[1])` -/
def upward (x : Person) : ℤ ×ₗ ℤ := toLex (x.1, -(x.2 : ℤ))

/-- `(-x[0], x[1])` -/
def downward (x : Person) : ℤ ×ₗ ℤ := toLex (-x.1, (x.2 : ℤ))

/-- The loop over the places; `none` is an empty list. -/
def place (person : Person) : List (Option Person) → ℕ → List (Option Person)
  | [], _ => []
  | some q :: ans, spaces => some q :: place person ans spaces
  | none :: ans, spaces =>
    let spaces := spaces - 1
    if spaces = 0 then some person :: ans else none :: place person ans spaces

def reconstructQueue (people : List Person) : List (Option Person) :=
  if people = [] then []
  else
    let people := sortBy upward people
    people.foldl (fun ans person => place person ans (person.2 + 1)) (List.replicate people.length none)

/-- `result.insert(item[1], item)`: behind the last index it is appended. -/
def insert (result : List Person) (item : Person) : List Person :=
  result.take item.2 ++ item :: result.drop item.2

def reconstructQueue2 (people : List Person) : List Person := (sortBy downward people).foldl insert []

/-- What the people of a queue with these heights say. -/
def describe (hs : List ℤ) : List Person := hs.zipIdx.map fun p => (p.1, (hs.take p.2).countP fun h => p.1 ≤ h)

example : describe [5, 7, 5, 6] = [(5, 0), (7, 0), (5, 2), (6, 1)] := by decide

variable {hs : List ℤ} {people queue before behind pre rest : List Person} {p q : Person} {key : Person → ℤ ×ₗ ℤ}

/-! ## What the people say -/

/-- Everyone says how many people in front are as tall. -/
def Described (queue : List Person) : Prop :=
  ∀ before p behind, queue = before ++ p :: behind → (before.countP fun q => p.1 ≤ q.1) = p.2

theorem described_describe (hs : List ℤ) : Described (describe hs) := by
  intro before p behind h
  have hheights : before.map Prod.fst = hs.take before.length := by
    have hall : (describe hs).map Prod.fst = hs := by
      unfold describe
      rw [List.map_map]
      exact List.zipIdx_map_fst 0 hs
    have htake := congrArg (List.take before.length) (congrArg (List.map Prod.fst) h)
    rw [hall, List.map_append] at htake
    have hlength : (before.map Prod.fst).length = before.length := List.length_map Prod.fst
    rw [htake, ← hlength, List.take_left]
  have hget : (describe hs)[before.length]? = some p := by simp [h]
  rw [describe, List.getElem?_map, List.getElem?_zipIdx, Option.map_map, Option.map_eq_some_iff] at hget
  obtain ⟨g, -, rfl⟩ := hget
  simp only [Function.comp, Nat.zero_add, ← hheights, List.countP_map]
  rfl

/-- Of two people with the same height the one in front says the smaller number. -/
theorem Described.lt (h : Described queue) (hp : queue = before ++ p :: behind) (hq : q ∈ before) (heq : q.1 = p.1) :
    q.2 < p.2 := by
  obtain ⟨first, last, rfl⟩ := List.append_of_mem hq
  have hp' := h _ p behind hp
  have hq' := h first q (last ++ p :: behind) (by rw [hp, List.append_assoc]; rfl)
  rw [List.countP_append, List.countP_cons_of_pos (by simp [heq])] at hp'
  rw [heq] at hq'
  omega

theorem Described.nodup (h : Described queue) : queue.Nodup := by
  refine List.nodup_iff_sublist.2 fun p hp => ?_
  obtain ⟨l₁, l₂, rfl, h₁, h₂⟩ := List.cons_sublist_iff.1 hp
  obtain ⟨before, behind, rfl⟩ := List.append_of_mem (List.singleton_sublist.1 h₂)
  have hlt := h.lt (List.append_assoc l₁ before (p :: behind)).symm (List.mem_append_left before h₁) rfl
  exact absurd hlt (lt_irrefl p.2)

/-! ## The order of the people -/

theorem sortBy_perm (key : Person → ℤ ×ₗ ℤ) (people : List Person) : (sortBy key people).Perm people :=
  List.mergeSort_perm people _

/-- In the sorted list the people with smaller keys come before. -/
theorem mem_sorted_iff (hkey : Function.Injective key) (hnodup : queue.Nodup) (hperm : people.Perm queue)
    (hsorted : pre ++ p :: rest = sortBy key people) (hq : q ∈ queue) : q ∈ pre ↔ key q < key p := by
  have hperm' : (sortBy key people).Perm queue := (sortBy_perm key people).trans hperm
  have hle : (sortBy key people).Pairwise fun a b => key a ≤ key b := by
    refine (List.pairwise_mergeSort (fun a b c hab hbc => ?_) (fun a b => ?_) people).imp of_decide_eq_true
    · exact decide_eq_true ((of_decide_eq_true hab).trans (of_decide_eq_true hbc))
    · simpa using le_total (key a) (key b)
  have hlt : (sortBy key people).Pairwise fun a b => key a < key b :=
    (hle.and (hperm'.nodup_iff.2 hnodup)).imp fun hab => lt_of_le_of_ne hab.1 (hkey.ne hab.2)
  rw [← hperm'.mem_iff, ← hsorted] at hq
  rw [← hsorted] at hlt
  obtain ⟨-, hrest, hcross⟩ := List.pairwise_append.1 hlt
  refine ⟨fun hpre => hcross q hpre p List.mem_cons_self, fun hqp => ?_⟩
  rcases List.mem_append.1 hq with hq | hq
  · exact hq
  · rcases List.mem_cons.1 hq with rfl | hq
    · exact absurd hqp (lt_irrefl _)
    · exact absurd hqp (lt_asymm ((List.pairwise_cons.1 hrest).1 q hq))

/-- The place of the next person in the queue. Those in front who had their turn are those with smaller keys. -/
theorem exists_next (hkey : Function.Injective key) (hnodup : queue.Nodup) (hperm : people.Perm queue)
    (hsorted : pre ++ p :: rest = sortBy key people) : ∃ before behind, queue = before ++ p :: behind ∧
      p ∉ pre ∧ p ∉ before ∧ p ∉ behind ∧ ∀ q ∈ before, q ∈ pre ↔ key q < key p := by
  have hmem : p ∈ queue := by
    rw [← hperm.mem_iff, ← (sortBy_perm key people).mem_iff, ← hsorted]
    exact List.mem_append_right pre List.mem_cons_self
  have hturn : ∀ q ∈ queue, q ∈ pre ↔ key q < key p := fun q => mem_sorted_iff hkey hnodup hperm hsorted
  obtain ⟨before, behind, rfl⟩ := List.append_of_mem hmem
  obtain ⟨-, hbehind, hne⟩ := List.nodup_append.1 hnodup
  exact ⟨before, behind, rfl, mt (hturn p hmem).1 (lt_irrefl _), fun hb => hne p hb p List.mem_cons_self rfl,
    (List.nodup_cons.1 hbehind).1, fun q hq => hturn q (List.mem_append_left _ hq)⟩

theorem upward_injective : Function.Injective upward := by
  rintro ⟨h, k⟩ ⟨h', k'⟩ heq
  obtain ⟨rfl, hk⟩ := Prod.mk.inj (toLex.injective heq)
  exact Prod.ext rfl (Int.ofNat_inj.1 (Int.neg_inj.1 hk))

theorem downward_injective : Function.Injective downward := by
  rintro ⟨h, k⟩ ⟨h', k'⟩ heq
  obtain ⟨hh, hk⟩ := Prod.mk.inj (toLex.injective heq)
  exact Prod.ext (Int.neg_inj.1 hh) (Int.ofNat_inj.1 hk)

/-- Of the people in front, those who are shorter come before in the one order, and the others in the other order. -/
theorem Described.upward_lt_iff (h : Described queue) (hp : queue = before ++ p :: behind) (hq : q ∈ before) :
    upward q < upward p ↔ ¬ p.1 ≤ q.1 := by
  rw [upward, upward, Prod.Lex.toLex_lt_toLex, not_le]
  refine ⟨fun hlex => ?_, Or.inl⟩
  rcases hlex with hlt | ⟨heq, hlt⟩
  · exact hlt
  · have hless := h.lt hp hq heq
    omega

theorem Described.downward_lt_iff (h : Described queue) (hp : queue = before ++ p :: behind) (hq : q ∈ before) :
    downward q < downward p ↔ p.1 ≤ q.1 := by
  rw [downward, downward, Prod.Lex.toLex_lt_toLex]
  constructor
  · rintro (hlt | ⟨heq, -⟩) <;> omega
  · intro hle
    rcases hle.lt_or_eq with hlt | heq
    · exact Or.inl (Int.neg_lt_neg hlt)
    · exact Or.inr ⟨by rw [heq], Int.ofNat_lt.2 (h.lt hp hq heq.symm)⟩

/-! ## The first function -/

/-- There are as many free places in front of a person as it says. -/
theorem place_append (person : Person) (ans : List (Option Person)) : ∀ l : List (Option Person),
    place person (l ++ none :: ans) (l.count none + 1) = l ++ some person :: ans
  | [] => by rw [List.nil_append, place]; rfl
  | some q :: l => by
    rw [List.cons_append, place, List.count_cons_of_ne (by simp), place_append person ans l]
    rfl
  | none :: l => by
    rw [List.cons_append, List.count_cons_self, place, Nat.add_sub_cancel, if_neg (Nat.succ_ne_zero _),
      place_append person ans l]
    rfl

/-- The people that have their places. -/
def placed (pre queue : List Person) : List (Option Person) := queue.map fun q => if q ∈ pre then some q else none

theorem placed_append (hp : p ∉ queue) : placed (pre ++ [p]) queue = placed pre queue := by
  refine List.map_congr_left fun q hq => ?_
  have hqp : q ≠ p := fun heq => hp (heq ▸ hq)
  simp only [List.mem_append, List.mem_singleton, hqp, or_false]

theorem place_placed (h : Described queue) (hperm : people.Perm queue)
    (hsorted : pre ++ p :: rest = sortBy upward people) :
    place p (placed pre queue) (p.2 + 1) = placed (pre ++ [p]) queue := by
  obtain ⟨before, behind, hqueue, hnot, hp₁, hp₂, hturn⟩ := exists_next upward_injective h.nodup hperm hsorted
  -- the free places in front are those of the people who are as tall
  have hfree : (placed pre before).count none = p.2 := by
    rw [placed, List.count, List.countP_map, ← h before p behind hqueue]
    refine List.countP_congr fun q hq => ?_
    have hiff := (hturn q hq).trans (h.upward_lt_iff hqueue hq)
    by_cases hle : p.1 ≤ q.1 <;> simp [hiff, hle]
  have hsplit : ∀ pre, placed pre (before ++ p :: behind) =
      placed pre before ++ (if p ∈ pre then some p else none) :: placed pre behind := fun pre => by
    rw [placed, List.map_append, List.map_cons]
    rfl
  rw [hqueue, hsplit, hsplit, if_neg hnot, if_pos (List.mem_append_right pre List.mem_cons_self), placed_append hp₁,
    placed_append hp₂, ← hfree]
  exact place_append p _ _

theorem reconstructQueue_eq (h : Described queue) (hperm : people.Perm queue) :
    reconstructQueue people = queue.map some := by
  unfold reconstructQueue
  split_ifs with hnil
  · rw [hnil] at hperm
    obtain rfl := hperm.nil_eq
    rfl
  · have hstart : List.replicate (sortBy upward people).length none = placed [] queue := by
      rw [((sortBy_perm upward people).trans hperm).length_eq]
      simp [placed]
    have hstep : ∀ pre p rest ans, pre ++ p :: rest = sortBy upward people → ans = placed pre queue →
        place p ans (p.2 + 1) = placed (pre ++ [p]) queue := fun pre p rest ans hsorted hans => by
      rw [hans]
      exact place_placed h hperm hsorted
    rw [foldl_split (P := fun pre ans => ans = placed pre queue) hstep (sortBy upward people) [] rfl hstart]
    refine List.map_congr_left fun q hq => if_pos ?_
    rwa [(sortBy_perm upward people).mem_iff, hperm.mem_iff]

/-! ## The second function -/

theorem insert_filter (h : Described queue) (hperm : people.Perm queue)
    (hsorted : pre ++ p :: rest = sortBy downward people) :
    insert (queue.filter (· ∈ pre)) p = queue.filter (· ∈ pre ++ [p]) := by
  obtain ⟨before, behind, hqueue, hnot, hp₁, hp₂, hturn⟩ := exists_next downward_injective h.nodup hperm hsorted
  -- those who are as tall stand there already
  have hcount : (before.filter (· ∈ pre)).length = p.2 := by
    rw [← List.countP_eq_length_filter, ← h before p behind hqueue]
    refine List.countP_congr fun q hq => ?_
    simp [(hturn q hq).trans (h.downward_lt_iff hqueue hq)]
  have hfilter : ∀ l : List Person, p ∉ l → l.filter (· ∈ pre ++ [p]) = l.filter (· ∈ pre) := by
    intro l hl
    refine List.filter_congr fun q hq => ?_
    have hqp : q ≠ p := fun heq => hl (heq ▸ hq)
    simp [hqp]
  rw [hqueue, List.filter_append, List.filter_append, List.filter_cons_of_neg (by simpa using hnot),
    List.filter_cons_of_pos (by simp), hfilter before hp₁, hfilter behind hp₂, insert, ← hcount, List.take_left,
    List.drop_left]

theorem reconstructQueue2_eq (h : Described queue) (hperm : people.Perm queue) : reconstructQueue2 people = queue := by
  have hstep : ∀ pre p rest result, pre ++ p :: rest = sortBy downward people → result = queue.filter (· ∈ pre) →
      insert result p = queue.filter (· ∈ pre ++ [p]) := fun pre p rest result hsorted hresult => by
    rw [hresult]
    exact insert_filter h hperm hsorted
  have hstart : [] = queue.filter (· ∈ []) := by simp
  rw [reconstructQueue2, foldl_split (P := fun pre result => result = queue.filter (· ∈ pre)) hstep
    (sortBy downward people) [] rfl hstart, List.filter_eq_self]
  intro q hq
  rwa [decide_eq_true_iff, (sortBy_perm downward people).mem_iff, hperm.mem_iff]

/-! ## The result -/

/-- In whatever order the people say it, both functions return the queue as it was. -/
theorem reconstructQueue_describe (hs : List ℤ) (people : List Person) (hperm : people.Perm (describe hs)) :
    reconstructQueue people = (describe hs).map some ∧ reconstructQueue2 people = describe hs :=
  ⟨reconstructQueue_eq (described_describe hs) hperm, reconstructQueue2_eq (described_describe hs) hperm⟩

theorem reconstructQueue_describe_three :
    reconstructQueue [(5, 2), (5, 0), (7, 0)] = (describe [5, 7, 5]).map some ∧
      reconstructQueue2 [(5, 2), (5, 0), (7, 0)] = describe [5, 7, 5] :=
  reconstructQueue_describe [5, 7, 5] [(5, 2), (5, 0), (7, 0)] (by decide)

end GoodGoodStudy.LeetCode.ReconstructQueue
