/-
Monotone stacks of indices. A new index removes the ones on top that do not stand it, and is put on top of the rest;
since the indices on the stack stand each other, these are all that it could remove. What is on the stack are the
indices that stand all later ones, and no index between a bound and the first one on the stack behind it stands that
one.
-/
import Mathlib.Data.List.Basic
import Mathlib.Data.Nat.Find
import Mathlib.Order.Nat

namespace GoodGoodStudy.Lib

/-- What a relation lets stay of an ordered list is found at its end. -/
theorem filter_eq_dropWhile {α : Type*} {r : α → α → Prop} [DecidableRel r]
    (htrans : ∀ {a b c}, r a b → r b c → r a c) {l : List α} (hl : l.Pairwise fun u t => r t u) (x : α) :
    (l.filter fun t => r t x) = l.dropWhile fun t => !decide (r t x) := by
  induction l with
  | nil => rfl
  | cons u l ih =>
    obtain ⟨hu, hl⟩ := List.pairwise_cons.1 hl
    by_cases hr : r u x
    · rw [List.dropWhile_cons_of_neg (by simpa using hr), List.filter_eq_self]
      rintro t (_ | ⟨_, ht⟩)
      · exact decide_eq_true hr
      · exact decide_eq_true (htrans (hu t ht) hr)
    · rw [List.filter_cons_of_neg (by simpa using hr), List.dropWhile_cons_of_pos (by simpa using hr), ih hl]

variable (r : ℕ → ℕ → Prop) [DecidableRel r]

/-- The indices before `i` that stand all later ones, the last index first. -/
def standing : ℕ → List ℕ
  | 0 => []
  | i + 1 => i :: (standing i).filter fun t => r t i

variable {r} {i t a : ℕ}

theorem mem_standing : t ∈ standing r i ↔ t < i ∧ ∀ x, t < x → x < i → r t x := by
  induction i with
  | zero => exact iff_of_false List.not_mem_nil fun ht => Nat.not_lt_zero t ht.1
  | succ i ih =>
    rw [standing, List.mem_cons, List.mem_filter, ih, decide_eq_true_iff]
    constructor
    · rintro (rfl | ⟨⟨hlt, hall⟩, hi⟩)
      · exact ⟨Nat.lt_succ_self t, fun x hx hx' => absurd hx (Nat.not_lt.2 (Nat.le_of_lt_succ hx'))⟩
      · refine ⟨Nat.lt_succ_of_lt hlt, fun x hx hx' => ?_⟩
        rcases Nat.lt_succ_iff_lt_or_eq.1 hx' with hx' | rfl
        · exact hall x hx hx'
        · exact hi
    · rintro ⟨hlt, hall⟩
      rcases Nat.lt_succ_iff_lt_or_eq.1 hlt with hlt | rfl
      · exact Or.inr ⟨⟨hlt, fun x hx hx' => hall x hx (Nat.lt_succ_of_lt hx')⟩, hall i hlt (Nat.lt_succ_self i)⟩
      · exact Or.inl rfl

theorem standing_lt (ht : t ∈ standing r i) : t < i := (mem_standing.1 ht).1

/-- The indices go down, and each stands the ones before it. -/
theorem pairwise_standing (i : ℕ) : (standing r i).Pairwise fun u t => t < u ∧ r t u := by
  induction i with
  | zero => exact List.Pairwise.nil
  | succ i ih =>
    refine List.pairwise_cons.2 ⟨fun t ht => ?_, ih.filter _⟩
    obtain ⟨ht, hr⟩ := List.mem_filter.1 ht
    exact ⟨standing_lt ht, of_decide_eq_true hr⟩

/-- The first index on the stack behind a bound. -/
structure FirstStanding (r : ℕ → ℕ → Prop) [DecidableRel r] (i a t : ℕ) : Prop where
  mem : t ∈ standing r i
  le : a ≤ t
  first : ∀ u ∈ standing r i, a ≤ u → t ≤ u

theorem exists_firstStanding (ha : a < i) : ∃ t, FirstStanding r i a t := by
  have hlast : i - 1 ∈ standing r i := mem_standing.2 ⟨by omega, fun x hx hx' => by omega⟩
  have hex : ∃ t, t ∈ standing r i ∧ a ≤ t := ⟨i - 1, hlast, by omega⟩
  classical
  obtain ⟨ht, hat⟩ := Nat.find_spec hex
  exact ⟨Nat.find hex, ht, hat, fun u hu hau => Nat.find_min' hex ⟨hu, hau⟩⟩

/-- The bound behind the index on top of a stack. -/
def behind : List ℕ → ℕ
  | [] => 0
  | p :: _ => p + 1

/-- An index on the stack is the first one behind the one below it. -/
theorem firstStanding_behind {above below : List ℕ} (h : standing r i = above ++ t :: below) :
    FirstStanding r i (behind below) t := by
  have hdown := (pairwise_standing (r := r) i).imp And.left
  rw [h] at hdown
  obtain ⟨-, hdown, habove⟩ := List.pairwise_append.1 hdown
  obtain ⟨ht, hbelow⟩ := List.pairwise_cons.1 hdown
  refine ⟨h ▸ List.mem_append_right above List.mem_cons_self, ?_, fun u hu hle => ?_⟩
  · cases below with
    | nil => exact Nat.zero_le t
    | cons p below => exact ht p List.mem_cons_self
  · rw [h] at hu
    rcases List.mem_append.1 hu with hu | hu
    · exact (habove u hu t List.mem_cons_self).le
    · rcases List.mem_cons.1 hu with rfl | hu
      · exact le_rfl
      · cases below with
        | nil => cases hu
        | cons p below =>
          rcases List.mem_cons.1 hu with rfl | hu
          · exact absurd hle (Nat.not_succ_le_self u)
          · exact absurd ((List.pairwise_cons.1 hbelow).1 u hu) (Nat.lt_asymm hle)

theorem FirstStanding.exists_split (h : FirstStanding r i a t) :
    ∃ above below, standing r i = above ++ t :: below ∧ behind below ≤ a := by
  obtain ⟨above, below, hsplit⟩ := List.append_of_mem h.mem
  refine ⟨above, below, hsplit, ?_⟩
  cases below with
  | nil => exact Nat.zero_le a
  | cons p below =>
    have hmem : p ∈ standing r i := by
      rw [hsplit]
      exact List.mem_append_right above (List.mem_cons_of_mem t List.mem_cons_self)
    have hdown := (pairwise_standing (r := r) i).imp And.left
    rw [hsplit] at hdown
    have hpt : p < t := (List.pairwise_cons.1 (List.pairwise_append.1 hdown).2.1).1 p List.mem_cons_self
    exact Nat.lt_of_not_le fun hap => absurd (h.first p hmem hap) (Nat.not_le.2 hpt)

/-- No index between a bound and the first one on the stack behind it stands that one. -/
theorem FirstStanding.not_stands (htrans : ∀ {a b c}, r a b → r b c → r a c)
    (hneg : ∀ {a b c}, ¬ r a b → ¬ r b c → ¬ r a c) (h : FirstStanding r i a t) {y : ℕ} (hay : a ≤ y) (hyt : y < t) :
    ¬ r y t := by
  obtain ⟨hti, hstands⟩ := mem_standing.1 h.mem
  induction hm : t - y using Nat.strong_induction_on generalizing y with
  | _ m ih =>
    -- something behind `y` has removed it
    have hnot : y ∉ standing r i := fun hy => absurd (h.first y hy hay) (Nat.not_le.2 hyt)
    rw [mem_standing, not_and] at hnot
    obtain ⟨z, hz⟩ := not_forall.1 (hnot (hyt.trans hti))
    obtain ⟨hyz, hz⟩ := Classical.not_imp.1 hz
    obtain ⟨hzi, hr⟩ := Classical.not_imp.1 hz
    rcases lt_trichotomy z t with hzt | rfl | htz
    · exact hneg hr (ih (t - z) (by omega) (hay.trans hyz.le) hzt rfl)
    · exact hr
    · exact fun hyt' => hr (htrans hyt' (hstands z htz hzi))

end GoodGoodStudy.Lib
