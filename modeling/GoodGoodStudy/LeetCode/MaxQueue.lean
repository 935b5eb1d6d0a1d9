/-
The queue with `max_value` of the exercise 59 II. Its second list keeps a value only if it is greater than the last
one kept, where the maximum of a queue needs every value that is greater than all behind it. So when the maximum
leaves the queue, what is left in the second list has nothing to do with the values behind it: they were never kept,
and what is there left the queue before.
-/
import Mathlib.Data.Int.Order.Basic
import GoodGoodStudy.Lib.Run

namespace GoodGoodStudy.LeetCode

open GoodGoodStudy.Lib

/-! ## The class -/

/-- The queue from its front, and the other list from its last element. -/
structure MaxQueue where
  queue : List Int
  aide : List Int
  deriving DecidableEq, Repr

namespace MaxQueue

def new : MaxQueue := ⟨[], []⟩

/-- `none` is an `IndexError`. -/
def maxValue (s : MaxQueue) : Option Int := if s.queue = [] then some (-1) else s.aide.head?

/-- `not aide or value > aide[-1]` holds of a list whose last element, if it has one, is less. -/
def pushBack (s : MaxQueue) (value : Int) : MaxQueue where
  queue := s.queue ++ [value]
  aide := if s.aide.head?.all (value > ·) then value :: s.aide else s.aide

/-- The queue after the call, and the value that it returns. -/
def popFront (s : MaxQueue) : Option (MaxQueue × Int) :=
  match s.queue, s.aide with
  | [], _ => some (s, -1)
  | _ :: _, [] => none
  | tmp :: queue, last :: rest => some (⟨queue, if last = tmp then rest else last :: rest⟩, tmp)

/-! ## Sequences of calls -/

inductive Call
  | pushBack (value : Int)
  | popFront
  | maxValue
  deriving DecidableEq, Repr

def step (s : MaxQueue) : Call → Option MaxQueue
  | .pushBack value => some (s.pushBack value)
  | .popFront => s.popFront.map Prod.fst
  | .maxValue => s.maxValue.map fun _ => s

/-- The value is the greatest one of a list. -/
def Greatest (x : Int) (l : List Int) : Prop := x ∈ l ∧ ∀ y ∈ l, y ≤ x

instance (x : Int) (l : List Int) : Decidable (Greatest x l) := inferInstanceAs (Decidable (_ ∧ _))

/-- `max_value` answers right for a queue with the values `q`. -/
def Right (s : MaxQueue) (q : List Int) : Prop :=
  ∃ m, s.maxValue = some m ∧ if q = [] then m = -1 else Greatest m q

/-- No call raises, `pop_front` returns the oldest value, and `max_value` answers right at every moment. -/
def Correct : MaxQueue → List Int → List Call → Prop
  | s, q, [] => s.Right q
  | s, q, .pushBack value :: calls => s.Right q ∧ Correct (s.pushBack value) (q ++ [value]) calls
  | s, q, .popFront :: calls =>
    s.Right q ∧ ∃ s', s.popFront = some (s', q.head?.getD (-1)) ∧ Correct s' q.tail calls
  | s, q, .maxValue :: calls => s.Right q ∧ Correct s q calls

theorem Correct.right {s : MaxQueue} {q : List Int} {calls : List Call} (h : Correct s q calls) : s.Right q := by
  cases calls with
  | nil => exact h
  | cons c calls => cases c <;> exact h.1

/-- A call that does not find the second list out of step: a value pushed to the empty queue is not below what was
left in the list, and when the last value of the list leaves the queue, the one below it is the greatest of the
values behind. -/
def Undisturbed (s : MaxQueue) : Call → Prop
  | .pushBack value => s.queue = [] → ∀ last ∈ s.aide.head?, last ≤ value
  | .popFront =>
    s.queue.tail ≠ [] → s.aide.head? = s.queue.head? → ∃ last ∈ s.aide.tail.head?, Greatest last s.queue.tail
  | .maxValue => True

/-! ## What a call does when the answers were right -/

theorem greatest_concat {m value : Int} {l : List Int} (h : Greatest m l) :
    Greatest (if value > m then value else m) (l ++ [value]) := by
  have hmem : ∀ y, y ∈ l ++ [value] ↔ y ∈ l ∨ y = value := fun y => by rw [List.mem_append, List.mem_singleton]
  split_ifs with hv
  · refine ⟨(hmem _).2 (Or.inr rfl), fun y hy => ?_⟩
    rcases (hmem y).1 hy with hy | rfl
    · exact le_trans (h.2 y hy) (le_of_lt hv)
    · exact le_rfl
  · refine ⟨(hmem _).2 (Or.inl h.1), fun y hy => ?_⟩
    rcases (hmem y).1 hy with hy | rfl
    · exact h.2 y hy
    · exact not_lt.1 hv

theorem right_nil (aide : List Int) : Right ⟨[], aide⟩ [] := ⟨-1, rfl, rfl⟩

/-- With values in the queue the answer is the last one of the second list. -/
theorem right_iff {q aide : List Int} (hq : q ≠ []) : Right ⟨q, aide⟩ q ↔ ∃ m ∈ aide.head?, Greatest m q := by
  unfold Right maxValue
  simp only [if_neg hq]
  exact Iff.rfl

theorem pushBack_right_iff {q aide : List Int} (value : Int) (h : Right ⟨q, aide⟩ q) :
    Right (pushBack ⟨q, aide⟩ value) (q ++ [value]) ↔ Undisturbed ⟨q, aide⟩ (.pushBack value) := by
  refine (@right_iff (q ++ [value]) (pushBack ⟨q, aide⟩ value).aide (List.append_ne_nil_of_right_ne_nil q
    (List.cons_ne_nil value []))).trans ?_
  unfold Undisturbed
  by_cases hq : q = []
  · -- the only value is the answer if it was put on top, or is there already
    subst hq
    have hone : ∀ m, Greatest m [value] ↔ m = value := fun m => by
      unfold Greatest
      simp only [List.mem_singleton, forall_eq]
      exact ⟨And.left, fun he => ⟨he, he ▸ le_rfl⟩⟩
    simp only [List.nil_append, hone, forall_const]
    rcases aide with _ | ⟨last, rest⟩
    · simp [pushBack]
    · rcases lt_trichotomy last value with hlt | rfl | hlt
      · simp [pushBack, hlt, le_of_lt hlt]
      · simp [pushBack]
      · simp [pushBack, not_lt.2 (le_of_lt hlt), not_le.2 hlt, ne_of_gt hlt]
  · obtain ⟨m, hm, hgreatest⟩ := (right_iff hq).1 h
    refine iff_of_true ⟨_, ?_, @greatest_concat m value q hgreatest⟩ fun he => absurd he hq
    obtain ⟨rest, rfl⟩ : ∃ rest, aide = m :: rest := by
      cases aide with
      | nil => cases hm
      | cons last rest => exact ⟨rest, by rw [Option.some.inj hm]⟩
    by_cases hv : value > m
    · simp [pushBack, hv]
    · simp [pushBack, hv]

/-- The front is returned, and the next answer is right if the second list is not out of step. -/
theorem popFront_right_iff {x : Int} {q aide : List Int} (h : Right ⟨x :: q, aide⟩ (x :: q)) :
    ∃ s', popFront ⟨x :: q, aide⟩ = some (s', x) ∧ s'.queue = q ∧
      (s'.Right q ↔ Undisturbed ⟨x :: q, aide⟩ .popFront) := by
  obtain ⟨m, hm, hgreatest⟩ := (right_iff (List.cons_ne_nil x q)).1 h
  obtain ⟨rest, rfl⟩ : ∃ rest, aide = m :: rest := by
    cases aide with
    | nil => cases hm
    | cons last rest => exact ⟨rest, by rw [Option.some.inj hm]⟩
  refine ⟨_, rfl, rfl, ?_⟩
  unfold Undisturbed
  simp only [List.tail_cons, List.head?_cons, Option.some.injEq]
  by_cases hq : q = []
  · subst hq
    exact iff_of_true (right_nil _) fun hne => absurd rfl hne
  · rw [right_iff hq]
    by_cases hx : m = x
    · rw [if_pos hx]
      exact ⟨fun hright _ _ => hright, fun hright => hright hq hx⟩
    · -- the maximum stays in the queue
      rw [if_neg hx]
      refine iff_of_true ⟨m, rfl, ?_, ?_⟩ fun _ he => absurd he hx
      · exact (List.mem_cons.1 hgreatest.1).resolve_left hx
      · exact fun y hy => hgreatest.2 y (List.mem_cons_of_mem x hy)

theorem correct_iff (calls : List Call) {s : MaxQueue} (h : s.Right s.queue) :
    Correct s s.queue calls ↔ StepsOk step Undisturbed s calls := by
  induction calls generalizing s with
  | nil => exact iff_of_true h trivial
  | cons c calls ih =>
    have hrest : ∀ s' : MaxQueue, Correct s' s'.queue calls ↔
        s'.Right s'.queue ∧ StepsOk step Undisturbed s' calls := fun s' =>
      ⟨fun hcorrect => ⟨hcorrect.right, (ih hcorrect.right).1 hcorrect⟩, fun hok => (ih hok.1).2 hok.2⟩
    obtain ⟨q, aide⟩ := s
    cases c with
    | pushBack value =>
      unfold Correct StepsOk
      rw [and_iff_right h, ← pushBack_right_iff value h]
      simp only [step, Option.some.injEq, forall_eq']
      exact hrest (pushBack ⟨q, aide⟩ value)
    | popFront =>
      unfold Correct StepsOk
      rw [and_iff_right h]
      cases q with
      | nil =>
        have hpop : popFront ⟨[], aide⟩ = some (⟨[], aide⟩, -1) := rfl
        have hok : Undisturbed ⟨[], aide⟩ .popFront := fun hne => absurd rfl hne
        rw [and_iff_right hok]
        simp only [step, hpop, Option.map_some, Option.some.injEq, forall_eq', List.head?_nil, Option.getD_none,
          List.tail_nil, Prod.mk.injEq, and_true, exists_eq_left']
        exact ih h
      | cons x q =>
        obtain ⟨s', hs', rfl, hright⟩ := popFront_right_iff h
        rw [← hright]
        simp only [step, hs', Option.map_some, Option.some.injEq, forall_eq', List.head?_cons, Option.getD_some,
          List.tail_cons, Prod.mk.injEq, and_true, exists_eq_left']
        exact hrest s'
    | maxValue =>
      obtain ⟨m, hm, -⟩ := id h
      unfold Correct StepsOk
      rw [and_iff_right h, ih h]
      simp only [step, hm, Option.map_some, Option.some.injEq, forall_eq', Undisturbed, true_and]

/-- From a fresh queue, over every sequence of calls: no call raises, `pop_front` returns the oldest value and
`max_value` answers right at every moment, exactly when no call finds the second list out of step. -/
theorem correct_iff_undisturbed (calls : List Call) :
    Correct new [] calls ↔ StepsOk step Undisturbed new calls := correct_iff calls (right_nil [])

/-- The maximum leaves first: the value behind it is there, and `max_value` raises. -/
theorem push_down_pop :
    run step new [.pushBack 2, .pushBack 1, .popFront] = some ⟨[1], []⟩ ∧ maxValue ⟨[1], []⟩ = none ∧
      ¬ Correct new [] [.pushBack 2, .pushBack 1, .popFront, .maxValue] := by
  refine ⟨rfl, rfl, fun h => ?_⟩
  obtain ⟨-, -, -, s', hs', ⟨m, hm, -⟩, -⟩ := h
  obtain ⟨rfl, -⟩ := Prod.mk.inj (Option.some.inj hs')
  cases hm

end MaxQueue

end GoodGoodStudy.LeetCode
