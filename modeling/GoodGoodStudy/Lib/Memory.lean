/-
A memory of records with addresses. The addresses from `fresh` on are not in use; a new record gets the first of them.
-/
import Mathlib.Data.Nat.Notation
import Mathlib.Logic.Function.Basic

namespace GoodGoodStudy.Lib

variable {N : Type*}

structure Memory (N : Type*) where
  get : ℕ → N
  fresh : ℕ

namespace Memory

def set (m : Memory N) (l : ℕ) (a : N) : Memory N := { m with get := Function.update m.get l a }

/-- The address of the new record, and the memory with it. -/
def new (m : Memory N) (a : N) : ℕ × Memory N :=
  (m.fresh, { get := Function.update m.get m.fresh a, fresh := m.fresh + 1 })

theorem get_set (m : Memory N) (l x : ℕ) (a : N) : (m.set l a).get x = if x = l then a else m.get x :=
  Function.update_apply m.get l a x

theorem set_get_self (m : Memory N) (l : ℕ) : m.set l (m.get l) = m := by rw [set, Function.update_eq_self]

theorem get_new (m : Memory N) (x : ℕ) (a : N) : (m.new a).2.get x = if x = m.fresh then a else m.get x :=
  Function.update_apply m.get m.fresh a x

end Memory

end GoodGoodStudy.Lib
