/-
Ballots: each voter has at most one vote an epoch, and who has more than half of them has won it.
-/
import Mathlib.Data.Fintype.Card
import Mathlib.Logic.Function.Basic

namespace GoodGoodStudy.Lib

/-- The vote that each voter has cast in each epoch. -/
abbrev Ballot (V C : Type) := V → ℕ → Option C

namespace Ballot

variable {V C : Type} {b b' : Ballot V C} {v : V} {e : ℕ} {c c' : C}

/-- Votes are added, and none is taken back. -/
def Extends (b b' : Ballot V C) : Prop := ∀ v e c, b v e = some c → b' v e = some c

theorem Extends.refl (b : Ballot V C) : b.Extends b := fun _ _ _ h => h

/-- The ballot with one more vote. -/
def cast [DecidableEq V] (b : Ballot V C) (v : V) (e : ℕ) (c : C) : Ballot V C :=
  Function.update b v (Function.update (b v) e (some c))

section Cast

variable [DecidableEq V]

theorem cast_self (b : Ballot V C) (v : V) (e : ℕ) (c : C) : b.cast v e c v e = some c := by
  rw [cast, Function.update_self, Function.update_self]

theorem cast_other {v' : V} {e' : ℕ} (h : v' ≠ v ∨ e' ≠ e) : b.cast v e c v' e' = b v' e' := by
  rcases eq_or_ne v' v with rfl | hv
  · rw [cast, Function.update_self, Function.update_of_ne (h.resolve_left fun hv => hv rfl)]
  · rw [cast, Function.update_of_ne hv]

theorem extends_cast (h : b v e = none) : b.Extends (b.cast v e c) := by
  intro v' e' c' h'
  rw [cast_other, h']
  by_contra hne
  obtain ⟨rfl, rfl⟩ := not_or.1 hne |>.imp Classical.not_not.1 Classical.not_not.1
  rw [h] at h'
  cases h'

end Cast

section Won

variable [Fintype V] [DecidableEq C]

/-- More than half of the voters have voted for `c`. -/
def Won (b : Ballot V C) (e : ℕ) (c : C) : Prop :=
  Fintype.card V / 2 + 1 ≤ (Finset.univ.filter fun v => b v e = some c).card

theorem Won.mono (h : b.Won e c) (hext : b.Extends b') : b'.Won e c := by
  apply h.trans
  apply Finset.card_le_card
  intro v hv
  rw [Finset.mem_filter] at hv ⊢
  exact ⟨hv.1, hext v e c hv.2⟩

/-- Two majorities have a voter in common. -/
theorem Won.unique (h : b.Won e c) (h' : b.Won e c') : c = c' := by
  classical
  have hcard : (Finset.univ : Finset V).card <
      (Finset.univ.filter fun v => b v e = some c).card + (Finset.univ.filter fun v => b v e = some c').card := by
    rw [Won] at h h'
    rw [Finset.card_univ]
    omega
  obtain ⟨v, hv⟩ := Finset.inter_nonempty_of_card_lt_card_add_card (Finset.filter_subset _ _) (Finset.filter_subset _ _) hcard
  rw [Finset.mem_inter, Finset.mem_filter, Finset.mem_filter] at hv
  exact Option.some.inj (hv.1.2.symm.trans hv.2.2)

end Won

end Ballot

end GoodGoodStudy.Lib
