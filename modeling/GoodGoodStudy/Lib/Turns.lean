/-
A queue that is turned: an element comes to its end, or its first element goes to its end. When all of this is over, the
elements stand in the order in which they came exactly if, for every length, the number of turns of a queue of this
length is a multiple of it.
-/
import Mathlib.Data.List.Induction
import Mathlib.Data.List.ReduceOption
import Mathlib.Data.List.Rotate

namespace GoodGoodStudy.Lib

variable {α : Type*} {l : List (Option α)} {queue came : List α} {a : α} {k j : ℕ}

/-- An element comes, or the queue is turned. -/
def receive (queue : List α) : Option α → List α
  | some a => queue ++ [a]
  | none => queue.rotate 1

def turned (l : List (Option α)) : List α := l.foldl receive []

/-- How often the queue is turned when it has the length `k`. -/
def turnsAt (k : ℕ) (l : List (Option α)) : ℕ :=
  l.zipIdx.countP fun a => a.1.isNone ∧ (l.take a.2).reduceOption.length = k

theorem turned_concat_some (l : List (Option α)) (a : α) : turned (l ++ [some a]) = turned l ++ [a] := by
  rw [turned, List.foldl_append]
  rfl

theorem turned_concat_none (l : List (Option α)) : turned (l ++ [none]) = (turned l).rotate 1 := by
  rw [turned, List.foldl_append]
  rfl

theorem turned_perm (l : List (Option α)) : (turned l).Perm l.reduceOption := by
  induction l using List.reverseRecOn with
  | nil => exact List.Perm.nil
  | append_singleton l o ih =>
    rw [List.reduceOption_append]
    cases o with
    | none =>
      rw [turned_concat_none, List.reduceOption_cons_of_none, List.reduceOption_nil, List.append_nil]
      exact (List.rotate_perm _ 1).trans ih
    | some a =>
      rw [turned_concat_some]
      exact ih.append_right [a]

theorem turned_map_some (l : List α) : turned (l.map some) = l := by
  induction l using List.reverseRecOn with
  | nil => rfl
  | append_singleton l a ih => rw [List.map_append, List.map_singleton, turned_concat_some, ih]

theorem reduceOption_map_some (l : List α) : (l.map some).reduceOption = l := by
  rw [List.reduceOption, List.filterMap_map]
  exact List.filterMap_some

/-- Nothing happens to an empty queue. -/
theorem turned_none_cons (l : List (Option α)) : turned (none :: l) = turned l := rfl

/-- A first element that takes the place of the first turn: it comes behind those that came before the turn. -/
def put (a : α) : List (Option α) → List (Option α)
  | [] => []
  | none :: l => some a :: l
  | some b :: l => some b :: put a l

theorem exists_eq_map_some (l : List (Option α)) :
    (∃ came : List α, l = came.map some) ∨ ∃ (came : List α) (rest : List (Option α)),
      l = came.map some ++ none :: rest ∧ ∀ a, put a l = came.map some ++ some a :: rest := by
  induction l with
  | nil => exact Or.inl ⟨[], rfl⟩
  | cons o l ih =>
    cases o with
    | none => exact Or.inr ⟨[], l, rfl, fun a => rfl⟩
    | some b =>
      rcases ih with ⟨came, rfl⟩ | ⟨came, rest, hl, hput⟩
      · exact Or.inl ⟨b :: came, rfl⟩
      · exact Or.inr ⟨b :: came, rest, by rw [hl]; rfl, fun a => congrArg (some b :: ·) (hput a)⟩

theorem turned_put (h : none ∈ l) (a : α) : turned (put a l) = turned (some a :: l) := by
  rcases exists_eq_map_some l with ⟨came, rfl⟩ | ⟨came, rest, hl, hput⟩
  · simp at h
  · have hcame : turned (came.map some) = came := turned_map_some came
    have hcons : turned (some a :: came.map some) = a :: came := turned_map_some (a :: came)
    rw [hput, hl, ← List.cons_append, turned, turned, List.foldl_append, List.foldl_append]
    rw [turned] at hcame hcons
    rw [hcame, hcons, List.foldl_cons, List.foldl_cons, receive, receive, List.rotate_cons_succ, List.rotate_zero]

/-- The first turn is spared: the queue was empty, or the first element of the queue is where it would have come to. -/
def spare : List (Option α) → List (Option α)
  | [] => []
  | none :: l => l
  | some a :: l => put a l

theorem turned_spare (h : none ∈ l) : turned (spare l) = turned l := by
  cases l with
  | nil => rfl
  | cons o l =>
    cases o with
    | none => exact (turned_none_cons l).symm
    | some a =>
      refine turned_put ?_ a
      rcases List.mem_cons.1 h with hnone | h
      · cases hnone
      · exact h

theorem put_map_some (came : List α) (a : α) : put a (came.map some) = came.map some := by
  induction came with
  | nil => rfl
  | cons b came ih => exact congrArg (some b :: ·) ih

/-- Without a turn, the first element is gone. -/
theorem spare_map_some (came : List α) : spare (came.map some) = (came.drop 1).map some := by
  cases came with
  | nil => rfl
  | cons a came => exact put_map_some came a

/-! ## The order of arrival -/

theorem turnsAt_concat (k : ℕ) (l : List (Option α)) (o : Option α) : turnsAt k (l ++ [o]) =
    turnsAt k l + if o.isNone ∧ l.reduceOption.length = k then 1 else 0 := by
  have hold : l.zipIdx.countP (fun a => a.1.isNone ∧ ((l ++ [o]).take a.2).reduceOption.length = k) =
      turnsAt k l := by
    apply List.countP_congr
    rintro ⟨o', i⟩ hmem
    have hi : i < l.length := List.snd_lt_of_mem_zipIdx hmem
    simp only [List.take_append_of_le_length hi.le]
  rw [turnsAt, List.zipIdx_append, List.countP_append, hold]
  simp [List.countP_cons]

theorem turnsAt_eq_zero (h : l.reduceOption.length < k) : turnsAt k l = 0 := by
  induction l using List.reverseRecOn with
  | nil => rfl
  | append_singleton l o ih =>
    rw [List.reduceOption_append, List.length_append] at h
    rw [turnsAt_concat, ih (by omega), if_neg (by omega)]

/-- Only whole turns leave the last element where it is. -/
theorem concat_rotate_eq_iff (h : (queue ++ [a]).Nodup) :
    (queue ++ [a]).rotate j = came ++ [a] ↔ queue.length + 1 ∣ j ∧ queue = came := by
  have hlen : (queue ++ [a]).length = queue.length + 1 := List.length_append
  constructor
  · intro heq
    have hcame : queue.length = came.length := by
      have hlength := congrArg List.length heq
      rw [List.length_rotate, List.length_append, List.length_append] at hlength
      exact Nat.add_right_cancel hlength
    have hlast : (queue ++ [a])[(queue.length + j) % (queue.length + 1)]? = some a := by
      rw [← hlen, ← List.getElem?_rotate (hlen ▸ Nat.lt_succ_self _), heq, hcame, List.getElem?_concat_length]
    have hlt : (queue.length + j) % (queue.length + 1) < queue.length + 1 := Nat.mod_lt _ (Nat.succ_pos _)
    have hend : (queue.length + j) % (queue.length + 1) = queue.length := by
      by_contra hne
      rw [List.getElem?_append_left (by omega)] at hlast
      exact (List.disjoint_of_nodup_append h) (List.mem_of_getElem? hlast) (List.mem_singleton.2 rfl)
    have hdvd : queue.length + 1 ∣ j := by
      have hsum := Nat.div_add_mod (queue.length + j) (queue.length + 1)
      rw [hend] at hsum
      exact ⟨_, (Nat.add_left_cancel ((Nat.add_comm _ _).trans hsum)).symm⟩
    obtain ⟨n, rfl⟩ := hdvd
    rw [← hlen, List.rotate_length_mul] at heq
    exact ⟨⟨n, rfl⟩, (List.append_cancel_right heq)⟩
  · rintro ⟨⟨n, rfl⟩, rfl⟩
    rw [← hlen, List.rotate_length_mul]

/-- With a further element the queue is longer than ever before, so it has not been turned at this length yet. -/
theorem forall_dvd_concat_iff (l : List (Option α)) (a : α) (j : ℕ) :
    (∀ k, 1 ≤ k → k ∣ turnsAt k (l ++ [some a]) + if l.reduceOption.length + 1 = k then j else 0) ↔
      l.reduceOption.length + 1 ∣ j ∧ ∀ k, 1 ≤ k → k ∣ turnsAt k l := by
  have hstep : ∀ k, turnsAt k (l ++ [some a]) = turnsAt k l := fun k => by
    rw [turnsAt_concat, if_neg (fun hnone => Bool.false_ne_true hnone.1), Nat.add_zero]
  have hlast : turnsAt (l.reduceOption.length + 1) l = 0 := turnsAt_eq_zero (Nat.lt_succ_self _)
  simp only [hstep]
  constructor
  · intro hall
    have hj := hall (l.reduceOption.length + 1) (Nat.succ_pos _)
    rw [hlast, if_pos rfl, Nat.zero_add] at hj
    refine ⟨hj, fun k hk => ?_⟩
    by_cases hlen : l.reduceOption.length + 1 = k
    · rw [← hlen, hlast]
      exact ⟨0, rfl⟩
    · have hdvd := hall k hk
      rwa [if_neg hlen, Nat.add_zero] at hdvd
  · rintro ⟨hj, hall⟩ k hk
    split_ifs with hlen
    · rw [← hlen, hlast, Nat.zero_add]
      exact hj
    · exact hall k hk

theorem turned_rotate_eq_iff (h : l.reduceOption.Nodup) (j : ℕ) : (turned l).rotate j = l.reduceOption ↔
    ∀ k, 1 ≤ k → k ∣ turnsAt k l + if l.reduceOption.length = k then j else 0 := by
  induction l using List.reverseRecOn generalizing j with
  | nil =>
    apply iff_of_true (List.rotate_nil j)
    intro k hk
    rw [if_neg (by simp; omega)]
    exact ⟨0, rfl⟩
  | append_singleton l o ih =>
    rw [List.reduceOption_append] at h ⊢
    have hl : l.reduceOption.Nodup := (List.nodup_append.1 h).1
    cases o with
    | none =>
      rw [turned_concat_none, List.rotate_rotate, List.reduceOption_cons_of_none, List.reduceOption_nil,
        List.append_nil, ih hl]
      apply forall₂_congr
      intro k _
      -- the last turn is one of the `j` turns at the end
      have hsum : turnsAt k l + (if l.reduceOption.length = k then 1 + j else 0) =
          turnsAt k (l ++ [none]) + if l.reduceOption.length = k then j else 0 := by
        rw [turnsAt_concat]
        split_ifs with hk hnot hnot
        · omega
        · exact absurd ⟨rfl, hk⟩ hnot
        · exact absurd hnot.2 hk
        · rfl
      rw [hsum]
    | some a =>
      have hnodup : (turned l ++ [a]).Nodup := ((turned_perm l).append_right [a]).nodup_iff.2 h
      have hone : [some a].reduceOption = [a] := rfl
      rw [turned_concat_some, hone, concat_rotate_eq_iff hnodup, (turned_perm l).length_eq]
      have hsame : turned l = l.reduceOption ↔ ∀ k, 1 ≤ k → k ∣ turnsAt k l := by
        have hzero := ih hl 0
        simpa only [List.rotate_zero, ite_self, Nat.add_zero] using hzero
      rw [hsame, List.length_append, List.length_singleton, forall_dvd_concat_iff]

theorem turned_eq_iff (h : l.reduceOption.Nodup) :
    turned l = l.reduceOption ↔ ∀ k, 1 ≤ k → k ∣ turnsAt k l := by
  simpa only [List.rotate_zero, ite_self, Nat.add_zero] using turned_rotate_eq_iff h 0

end GoodGoodStudy.Lib
