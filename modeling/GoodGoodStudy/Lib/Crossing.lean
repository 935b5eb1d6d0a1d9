/-
The least maximum of an increasing and a decreasing function on the numbers from 1 to `n`, by binary search: where the
increasing one is above, nothing behind is better, and where it is not, nothing before is.
-/
import Mathlib.Order.Bounds.Basic
import Mathlib.Order.BoundedOrder.Basic
import Mathlib.Order.MinMax

namespace GoodGoodStudy.Lib

variable {β : Type*} [LinearOrder β] [OrderTop β] {B D : ℕ → β} {n lo hi mid : ℕ} {res : β}

/-- The values that are looked at. -/
def Maxima (B D : ℕ → β) (n : ℕ) : Set β := {y | ∃ x, 1 ≤ x ∧ x ≤ n ∧ y = max (B x) (D x)}

/-- No value outside of the range that is still searched is less than `res`. -/
structure Narrowed (B D : ℕ → β) (n lo hi : ℕ) (res : β) : Prop where
  left : ∀ x, 1 ≤ x → x < lo → res ≤ max (B x) (D x)
  right : ∀ x, hi < x → x ≤ n → res ≤ max (B x) (D x)
  attained : res = ⊤ ∨ res ∈ Maxima B D n

theorem Narrowed.init (B D : ℕ → β) (n : ℕ) : Narrowed B D n 1 n ⊤ where
  left _ hx hlt := absurd hlt (Nat.not_lt.2 hx)
  right _ hlt hx := absurd hlt (Nat.not_lt.2 hx)
  attained := Or.inl rfl

theorem attained_min (h : res = ⊤ ∨ res ∈ Maxima B D n) (hpos : 1 ≤ mid) (hmid : mid ≤ n) {y : β}
    (hy : y = max (B mid) (D mid)) : min res y = ⊤ ∨ min res y ∈ Maxima B D n := by
  rcases min_choice res y with hmin | hmin
  · rw [hmin]
    exact h
  · rw [hmin]
    exact Or.inr ⟨mid, hpos, hmid, hy⟩

theorem Narrowed.before (h : Narrowed B D n lo hi res) (hB : ∀ x y, x ≤ y → y ≤ n → B x ≤ B y) (hpos : 1 ≤ mid)
    (hmid : mid ≤ n) (hlt : D mid < B mid) : Narrowed B D n lo (mid - 1) (min res (B mid)) where
  left x hx hxlo := (min_le_left _ _).trans (h.left x hx hxlo)
  right x hx hxn := by
    have hle : mid ≤ x := by omega
    exact (min_le_right _ _).trans ((hB mid x hle hxn).trans (le_max_left _ _))
  attained := attained_min h.attained hpos hmid (max_eq_left hlt.le).symm

theorem Narrowed.behind (h : Narrowed B D n lo hi res) (hD : ∀ x y, x ≤ y → y ≤ n → D y ≤ D x) (hpos : 1 ≤ mid)
    (hmid : mid ≤ n) (hle : B mid ≤ D mid) : Narrowed B D n (mid + 1) hi (min res (D mid)) where
  left x hx hxlo := by
    have hxle : x ≤ mid := by omega
    exact (min_le_right _ _).trans ((hD x mid hxle hmid).trans (le_max_right _ _))
  right x hx hxn := (min_le_left _ _).trans (h.right x hx hxn)
  attained := attained_min h.attained hpos hmid (max_eq_right hle).symm

theorem Narrowed.isLeast (h : Narrowed B D n lo hi res) (hlt : hi < lo) (hpos : 1 ≤ n) :
    IsLeast (Maxima B D n) res := by
  have hle : res ∈ lowerBounds (Maxima B D n) := by
    rintro _ ⟨x, hx, hxn, rfl⟩
    by_cases hxlo : x < lo
    · exact h.left x hx hxlo
    · exact h.right x (by omega) hxn
  refine ⟨?_, hle⟩
  rcases h.attained with rfl | hmem
  · have hone : max (B 1) (D 1) ∈ Maxima B D n := ⟨1, le_rfl, hpos, rfl⟩
    rwa [top_le_iff.1 (hle hone)] at hone
  · exact hmem

end GoodGoodStudy.Lib
