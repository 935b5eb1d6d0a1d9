/-
The stack with `min` of the exercise 30: a second stack keeps the minima. `push` leaves out a value that equals the
minimum, but `pop` takes the minimum away together with any value that equals it. So the second stack is right until
a copy of the minimum is popped that has another copy below it.
-/
import Mathlib.Data.Int.Order.Basic
import Mathlib.Data.List.Basic

namespace GoodGoodStudy.LeetCode

/-! ## The class -/

/-- The two lists, with the last element first. -/
structure MinStack where
  stack : List Int
  stack2 : List Int
  deriving DecidableEq, Repr

namespace MinStack

def new : MinStack := ⟨[], []⟩

/-- `not stack2 or stack2[-1] > x` holds of a list whose last element, if it has one, is greater. -/
def push (s : MinStack) (x : Int) : MinStack where
  stack := x :: s.stack
  stack2 := if s.stack2.head?.all (· > x) then x :: s.stack2 else s.stack2

/-- `none` is an `IndexError`, of either list. -/
def pop (s : MinStack) : Option MinStack :=
  match s.stack, s.stack2 with
  | x :: stack, y :: rest => some ⟨stack, if x = y then rest else y :: rest⟩
  | _, _ => none

def top (s : MinStack) : Option Int := s.stack.head?

def min (s : MinStack) : Option Int := s.stack2.head?

/-! ## Sequences of calls -/

inductive Call
  | push (x : Int)
  | pop
  deriving DecidableEq, Repr

/-- The value is the least one of a list. -/
def Least (x : Int) (l : List Int) : Prop := x ∈ l ∧ ∀ y ∈ l, x ≤ y

instance (x : Int) (l : List Int) : Decidable (Least x l) := inferInstanceAs (Decidable (_ ∧ _))

/-- `pop` is called only when there is something in the stack. -/
def Legal : List Int → List Call → Prop
  | _, [] => True
  | l, .push x :: calls => Legal (x :: l) calls
  | [], .pop :: _ => False
  | _ :: l, .pop :: calls => Legal l calls

/-- `top` and `min` answer right for a stack with the values `l`. -/
def Right (s : MinStack) (l : List Int) : Prop := l ≠ [] → s.top = l.head? ∧ ∃ m, s.min = some m ∧ Least m l

/-- No call raises, and at every moment `top` and `min` answer right. -/
def Correct : MinStack → List Int → List Call → Prop
  | s, l, [] => s.Right l
  | s, l, .push x :: calls => s.Right l ∧ Correct (s.push x) (x :: l) calls
  | s, l, .pop :: calls => s.Right l ∧ ∃ s', s.pop = some s' ∧ Correct s' l.tail calls

/-- No value is popped that is the least of the values below it. -/
def KeepsLeast : List Int → List Call → Prop
  | _, [] => True
  | l, .push x :: calls => KeepsLeast (x :: l) calls
  | l, .pop :: calls => (∀ x ∈ l.head?, ¬ Least x l.tail) ∧ KeepsLeast l.tail calls

/-! ## The minima of a stack -/

/-- The values that are less than all values below them. -/
def minima : List Int → List Int
  | [] => []
  | x :: l => if (minima l).head?.all (· > x) then x :: minima l else minima l

/-- The first of the minima is the least value, and the others are greater. -/
theorem minima_spec {l : List Int} (h : l ≠ []) : ∃ m ms, minima l = m :: ms ∧ Least m l ∧ ∀ y ∈ ms, m < y := by
  induction l with
  | nil => exact absurd rfl h
  | cons x l ih =>
    by_cases hl : l = []
    · subst hl
      exact ⟨x, [], rfl, ⟨List.mem_singleton_self x, by simp⟩, by simp⟩
    · obtain ⟨m, ms, hm, ⟨hmem, hle⟩, hlt⟩ := ih hl
      rw [minima, hm]
      by_cases hx : m > x
      · refine ⟨x, m :: ms, by simp [hx], ⟨List.mem_cons_self, ?_⟩, ?_⟩
        · rintro y (_ | ⟨_, hy⟩)
          · exact le_rfl
          · exact le_trans (le_of_lt hx) (hle y hy)
        · rintro y (_ | ⟨_, hy⟩)
          · exact hx
          · exact lt_trans hx (hlt y hy)
      · refine ⟨m, ms, by simpa using hx, ⟨List.mem_cons_of_mem x hmem, ?_⟩, hlt⟩
        rintro y (_ | ⟨_, hy⟩)
        · exact not_lt.1 hx
        · exact hle y hy

theorem least_unique {x y : Int} {l : List Int} (hx : Least x l) (hy : Least y l) : x = y :=
  le_antisymm (hx.2 y hy.1) (hy.2 x hx.1)

/-- The stack as the calls have left it, with its minima. -/
def mirror (l : List Int) : MinStack := ⟨l, minima l⟩

theorem right_mirror (l : List Int) : (mirror l).Right l := by
  intro h
  obtain ⟨m, ms, hm, hleast, -⟩ := minima_spec h
  exact ⟨rfl, m, by simp [mirror, min, hm], hleast⟩

theorem push_mirror (l : List Int) (x : Int) : (mirror l).push x = mirror (x :: l) := rfl

/-- A value that is not the least below it leaves the minima of the rest. -/
theorem pop_mirror {x : Int} {l : List Int} (h : ¬ Least x l) : (mirror (x :: l)).pop = some (mirror l) := by
  unfold mirror
  rw [minima]
  by_cases hl : l = []
  · subst hl
    simp [minima, pop]
  · obtain ⟨m, ms, hm, hleast, -⟩ := minima_spec hl
    have hne : x ≠ m := fun he => h (he ▸ hleast)
    rw [hm]
    by_cases hx : m > x
    · simp [hx, pop]
    · simp [hx, hne, pop]

/-- Otherwise the least value of the rest goes with it, and `min` is wrong at once. -/
theorem pop_least {x : Int} {l : List Int} (h : Least x l) {s' : MinStack} (hs' : (mirror (x :: l)).pop = some s') :
    ¬ s'.Right l := by
  have hl : l ≠ [] := List.ne_nil_of_mem h.1
  obtain ⟨m, ms, hm, hleast, hlt⟩ := minima_spec hl
  obtain rfl := least_unique h hleast
  have hmirror : mirror (x :: l) = ⟨x :: l, x :: ms⟩ := by simp [mirror, minima, hm]
  have hpop : (mirror (x :: l)).pop = some ⟨l, ms⟩ := by rw [hmirror]; exact congrArg some (by rw [if_pos rfl])
  obtain rfl := Option.some.inj (hpop.symm.trans hs')
  intro hright
  obtain ⟨-, y, hy, hleast'⟩ := hright hl
  have hlt' := hlt y (List.mem_of_mem_head? hy)
  rw [least_unique h hleast'] at hlt'
  exact Int.lt_irrefl y hlt'

theorem correct_mirror_iff (calls : List Call) {l : List Int} (h : Legal l calls) :
    Correct (mirror l) l calls ↔ KeepsLeast l calls := by
  induction calls generalizing l with
  | nil => exact iff_of_true (right_mirror l) trivial
  | cons c calls ih =>
    cases c with
    | push x =>
      unfold Correct KeepsLeast
      rw [push_mirror, ih h]
      exact and_iff_right (right_mirror l)
    | pop =>
      cases l with
      | nil => exact absurd h id
      | cons x l =>
        unfold Correct KeepsLeast
        rw [and_iff_right (right_mirror _)]
        simp only [List.head?_cons, List.tail_cons, Option.mem_some_iff, forall_eq']
        constructor
        · rintro ⟨s', hs', hrest⟩
          have hx : ¬ Least x l := by
            intro hx
            refine pop_least hx hs' ?_
            cases calls with
            | nil => exact hrest
            | cons c calls => cases c <;> exact hrest.1
          rw [pop_mirror hx] at hs'
          obtain rfl := Option.some.inj hs'
          exact ⟨hx, (ih h).1 hrest⟩
        · rintro ⟨hx, hrest⟩
          exact ⟨_, pop_mirror hx, (ih h).2 hrest⟩

/-- From a fresh stack, over every sequence of calls with `pop` only when there is something to pop: no call raises
and at every moment `top` and `min` answer right, exactly when no value is popped that is the least of the values
below it. -/
theorem correct_iff_keepsLeast {calls : List Call} (h : Legal [] calls) :
    Correct new [] calls ↔ KeepsLeast [] calls := correct_mirror_iff calls h

/-- A minimum that was popped is forgotten, and the one before it is back. -/
theorem correct_down_up : Correct new [] [.push 2, .push 1, .pop, .push 3] := by
  have hkeeps : KeepsLeast [] [.push 2, .push 1, .pop, .push 3] := by simp [KeepsLeast, Least]
  exact (correct_iff_keepsLeast (by simp [Legal])).2 hkeeps

/-- One value pushed twice and popped once: the other copy is there, and `min` raises. -/
theorem push_twice_pop :
    Legal [] [.push 1, .push 1, .pop] ∧ ((new.push 1).push 1).pop = some ⟨[1], []⟩ ∧ min ⟨[1], []⟩ = none ∧
      ¬ Correct new [] [.push 1, .push 1, .pop] := by
  refine ⟨by simp [Legal], by decide, rfl, fun h => ?_⟩
  obtain ⟨-, -, -, s', hs', hright⟩ := h
  obtain rfl : (⟨[1], []⟩ : MinStack) = s' := Option.some.inj hs'
  obtain ⟨-, m, hm, -⟩ := hright (List.cons_ne_nil 1 [])
  cases hm

end MinStack

end GoodGoodStudy.LeetCode
