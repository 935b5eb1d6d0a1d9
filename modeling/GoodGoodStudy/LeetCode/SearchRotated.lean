/-
The exercise 81, search in a rotated sorted list with repetitions. The greater values come before the smaller ones. If
the value in the middle is another one than the first, it tells in which of the two parts the middle is, and with this
which half of the range is sorted; otherwise the first place of the range is dropped.
-/
import Mathlib.Data.List.Rotate
import GoodGoodStudy.LeetCode.QuickSort

namespace GoodGoodStudy.LeetCode.SearchRotated

open GoodGoodStudy.Lib
open QuickSort (Exc item item_ok)

/-! ## The code -/

/-- A round of the loop, with `l` and `r`. -/
def round (nums : List ℤ) (target : ℤ) : ℤ × ℤ → Except Exc (Round (ℤ × ℤ) Bool)
  | (l, r) => do
    if l ≤ r then
      let mid := (l + r) / 2
      if (← item nums mid) = target then return .leave true
      else if (← item nums l) = (← item nums mid) then return .again (l + 1, r)
      else if (← item nums mid) ≥ (← item nums l) then
        if (← item nums l) ≤ target ∧ target < (← item nums mid) then return .again (l, mid - 1)
        else return .again (mid + 1, r)
      else
        if (← item nums mid) < target ∧ target ≤ (← item nums r) then return .again (mid + 1, r)
        else return .again (l, mid - 1)
    else return .leave false

def search (nums : List ℤ) (target : ℤ) (fuel : ℕ) : Option (Except Exc Bool) :=
  loop (attempt (round nums target)) fuel (0, (nums.length : ℤ) - 1)

example : search [1, 4, 1, 1, 1, 1] 4 10 = some (.ok true) := by decide

variable {nums : List ℤ} {target : ℤ} {a b p x y : ℕ}

/-! ## The two parts -/

def value (nums : List ℤ) (x : ℕ) : ℤ := nums.getD x 0

theorem item_value (hx : x < nums.length) : item nums x = .ok (value nums x) := item_ok (item?_getD hx 0)

/-- The values go up to the place `p`, and from there; behind it they are not greater than before. -/
structure Rotated (nums : List ℤ) (p : ℕ) : Prop where
  left : ∀ x y, x ≤ y → y < p → y < nums.length → value nums x ≤ value nums y
  right : ∀ x y, p ≤ x → x ≤ y → y < nums.length → value nums x ≤ value nums y
  across : ∀ x y, x < p → p ≤ y → y < nums.length → value nums y ≤ value nums x

theorem rotated_append {A B : List ℤ} (h : (A ++ B).Pairwise (· ≤ ·)) : Rotated (B ++ A) B.length := by
  obtain ⟨hA, hB, hAB⟩ := List.pairwise_append.1 h
  have hfirst : ∀ x < B.length, ∃ h : x < B.length, value (B ++ A) x = B[x] := fun x hx => ⟨hx, by
    rw [value, List.getD_eq_getElem?_getD, List.getElem?_append_left hx, List.getElem?_eq_getElem hx, Option.getD_some]⟩
  have hsecond : ∀ x, B.length ≤ x → x < (B ++ A).length → ∃ h : x - B.length < A.length,
      value (B ++ A) x = A[x - B.length] := fun x hle hx => by
    rw [List.length_append] at hx
    have hlt : x - B.length < A.length := by omega
    refine ⟨hlt, ?_⟩
    rw [value, List.getD_eq_getElem?_getD, List.getElem?_append_right hle, List.getElem?_eq_getElem hlt,
      Option.getD_some]
  refine ⟨fun x y hxy hy _ => ?_, fun x y hx hxy hy => ?_, fun x y hx hy hlen => ?_⟩
  · obtain ⟨hx', hx⟩ := hfirst x (hxy.trans_lt hy)
    obtain ⟨hy', hy⟩ := hfirst y hy
    rw [hx, hy]
    exact hB.rel_get_of_le (a := ⟨x, hx'⟩) (b := ⟨y, hy'⟩) hxy
  · obtain ⟨hx', hx⟩ := hsecond x hx (hxy.trans_lt hy)
    obtain ⟨hy', hy⟩ := hsecond y (by omega) hy
    rw [hx, hy]
    exact hA.rel_get_of_le (a := ⟨x - B.length, hx'⟩) (b := ⟨y - B.length, hy'⟩) (Nat.sub_le_sub_right hxy _)
  · obtain ⟨hx', hx⟩ := hfirst x hx
    obtain ⟨hy', hy⟩ := hsecond y hy hlen
    rw [hx, hy]
    exact hAB _ (List.getElem_mem hy') _ (List.getElem_mem hx')

/-! ## The range -/

/-- The target is at a place of the range from `a` up to `b`, if it is anywhere. -/
def Within (nums : List ℤ) (target : ℤ) (a b : ℕ) : Prop :=
  target ∈ nums ↔ ∃ x, a ≤ x ∧ x < b ∧ value nums x = target

theorem within_all (nums : List ℤ) (target : ℤ) : Within nums target 0 nums.length := by
  unfold Within value
  rw [List.mem_iff_getElem?]
  constructor
  · rintro ⟨x, hx⟩
    obtain ⟨hlt, -⟩ := List.getElem?_eq_some_iff.1 hx
    exact ⟨x, Nat.zero_le x, hlt, by rw [List.getD_eq_getElem?_getD, hx, Option.getD_some]⟩
  · rintro ⟨x, -, hlt, hx⟩
    rw [List.getD_eq_getElem?_getD, List.getElem?_eq_getElem hlt, Option.getD_some] at hx
    exact ⟨x, hx ▸ List.getElem?_eq_getElem hlt⟩

/-- What is dropped need not be looked at: its values are other ones, or the target is also in what is left. -/
theorem Within.narrow (h : Within nums target a b) {a' b' : ℕ} (ha : a ≤ a') (hb : b' ≤ b)
    (hdrop : ∀ x, a ≤ x → x < b → ¬ (a' ≤ x ∧ x < b') → value nums x = target →
      ∃ y, a' ≤ y ∧ y < b' ∧ value nums y = target) : Within nums target a' b' := by
  refine Iff.trans h ⟨?_, fun ⟨x, hx, hx', heq⟩ => ⟨x, ha.trans hx, hx'.trans_le hb, heq⟩⟩
  rintro ⟨x, hx, hx', heq⟩
  by_cases hin : a' ≤ x ∧ x < b'
  · exact ⟨x, hin.1, hin.2, heq⟩
  · exact hdrop x hx hx' hin heq

/-- The first place is dropped, if the value in the middle is the same. -/
theorem Within.drop_first (h : Within nums target a b) (ha : a < b) (hne : value nums a ≠ target) :
    Within nums target (a + 1) b := by
  refine h.narrow (Nat.le_succ a) le_rfl fun x hx hxb hout heq => ?_
  obtain rfl : x = a := by omega
  exact absurd heq hne

/-! ## The rounds -/

section Sides

variable {mid : ℕ}

/-- The first half is sorted, and the target can be in it only if it is between its ends. -/
theorem Within.first_half (h : Within nums target a b) (hrot : Rotated nums p) (ham : a ≤ mid) (hmb : mid < b)
    (hb : b ≤ nums.length) (hne : value nums mid ≠ target) (hlt : value nums a < value nums mid) :
    if value nums a ≤ target ∧ target < value nums mid then Within nums target a mid
    else Within nums target (mid + 1) b := by
  have hlen : mid < nums.length := hmb.trans_le hb
  split_ifs with hin
  · refine h.narrow le_rfl hmb.le fun x hx hxb hout heq => ?_
    have hmx : mid ≤ x := by omega
    have hxlen : x < nums.length := hxb.trans_le hb
    rcases Nat.lt_or_ge mid p with hmp | hmp
    · rcases Nat.lt_or_ge x p with hxp | hxp
      · have hle := hrot.left mid x hmx hxp hxlen
        omega
      · -- the second part may have the target, if the first place has it
        have hle := hrot.across a x (ham.trans_lt hmp) hxp hxlen
        have ham' : a ≠ mid := by
          rintro rfl
          exact lt_irrefl _ hlt
        exact ⟨a, le_rfl, by omega, by omega⟩
    · have hle := hrot.right mid x hmp hmx hxlen
      omega
  · refine h.narrow (ham.trans (Nat.le_succ mid)) le_rfl fun x hx hxb hout heq => absurd ?_ hin
    have hxm : x ≤ mid := by omega
    have hlow : value nums a ≤ value nums x ∧ value nums x ≤ value nums mid := by
      rcases Nat.lt_or_ge mid p with hmp | hmp
      · exact ⟨hrot.left a x hx (hxm.trans_lt hmp) (hxm.trans_lt hlen), hrot.left x mid hxm hmp hlen⟩
      · rcases Nat.lt_or_ge a p with hap | hap
        · exact absurd (hrot.across a mid hap hmp hlen) (not_le.2 hlt)
        · exact ⟨hrot.right a x hap hx (hxm.trans_lt hlen), hrot.right x mid (hap.trans hx) hxm hlen⟩
    omega

/-- The second half is sorted. -/
theorem Within.second_half (h : Within nums target a b) (hrot : Rotated nums p) (ham : a ≤ mid) (hmb : mid < b)
    (hb : b ≤ nums.length) (hne : value nums mid ≠ target) (hlt : value nums mid < value nums a) :
    if value nums mid < target ∧ target ≤ value nums (b - 1) then Within nums target (mid + 1) b
    else Within nums target a mid := by
  have hlen : mid < nums.length := hmb.trans_le hb
  -- the middle is in the second part, and the first place is not
  have hmp : p ≤ mid := by
    by_contra hmp
    exact absurd (hrot.left a mid ham (not_le.1 hmp) hlen) (not_le.2 hlt)
  have hap : a < p := by
    by_contra hap
    exact absurd (hrot.right a mid (not_lt.1 hap) ham hlen) (not_le.2 hlt)
  split_ifs with hin
  · refine h.narrow (ham.trans (Nat.le_succ mid)) le_rfl fun x hx hxb hout heq => ?_
    have hxm : x ≤ mid := by omega
    rcases Nat.lt_or_ge x p with hxp | hxp
    · have hle := hrot.across x (b - 1) hxp (by omega) (by omega)
      have hmid : mid ≠ b - 1 := by
        rintro rfl
        omega
      exact ⟨b - 1, by omega, by omega, by omega⟩
    · have hle := hrot.right x mid hxp hxm hlen
      omega
  · refine h.narrow le_rfl hmb.le fun x hx hxb hout heq => absurd ?_ hin
    have hmx : mid ≤ x := by omega
    have hle := hrot.right mid x hmp hmx (hxb.trans_le hb)
    have hle' := hrot.right x (b - 1) (hmp.trans hmx) (by omega) (by omega)
    omega

end Sides

/-- The range that the two variables stand for. -/
structure Searching (nums : List ℤ) (target : ℤ) (st : ℤ × ℤ) (a b : ℕ) : Prop where
  l_eq : st.1 = a
  r_eq : st.2 = (b : ℤ) - 1
  le : a ≤ b
  le_length : b ≤ nums.length
  within : Within nums target a b

/-- A round in a range that is not empty. -/
theorem round_eq {mid : ℕ} (hlt : a < b) (hb : b ≤ nums.length) (hmid : ((a : ℤ) + ((b : ℤ) - 1)) / 2 = mid)
    (hmb : mid < b) : round nums target ((a : ℤ), (b : ℤ) - 1) =
      if value nums mid = target then .ok (.leave true)
      else if value nums a = value nums mid then .ok (.again ((a : ℤ) + 1, (b : ℤ) - 1))
      else if value nums mid ≥ value nums a then
        if value nums a ≤ target ∧ target < value nums mid then .ok (.again ((a : ℤ), (mid : ℤ) - 1))
        else .ok (.again ((mid : ℤ) + 1, (b : ℤ) - 1))
      else
        if value nums mid < target ∧ target ≤ value nums (b - 1) then .ok (.again ((mid : ℤ) + 1, (b : ℤ) - 1))
        else .ok (.again ((a : ℤ), (mid : ℤ) - 1)) := by
  have hlast : ((b : ℤ) - 1) = (b - 1 : ℕ) := by omega
  have hr : item nums ((b : ℤ) - 1) = .ok (value nums (b - 1)) := hlast ▸ item_value (by omega)
  have hle : (a : ℤ) ≤ (b : ℤ) - 1 := by omega
  simp only [round, if_pos hle, hmid, item_value (hmb.trans_le hb), item_value (hlt.trans_le hb), hr]
  rfl

theorem round_searching {st : ℤ × ℤ} (hrot : Rotated nums p) (h : Searching nums target st a b) :
    (∃ st' a' b', round nums target st = .ok (.again st') ∧ Searching nums target st' a' b' ∧ b' - a' < b - a) ∨
      ∃ found, round nums target st = .ok (.leave found) ∧ (found = true ↔ target ∈ nums) := by
  obtain ⟨l, r⟩ := st
  obtain ⟨rfl, rfl, hab, hb, hwithin⟩ := h
  rcases Nat.lt_or_ge a b with hlt | hge
  · obtain ⟨mid, hmid, ham, hmb⟩ : ∃ mid : ℕ, ((a : ℤ) + ((b : ℤ) - 1)) / 2 = mid ∧ a ≤ mid ∧ mid < b :=
      ⟨(a + (b - 1)) / 2, by omega, by omega, by omega⟩
    rw [round_eq hlt hb hmid hmb]
    split_ifs with htarget hsame hup hin hin
    · refine Or.inr ⟨true, rfl, iff_of_true rfl (hwithin.2 ⟨mid, ham, hmb, htarget⟩)⟩
    · have hdrop := hwithin.drop_first hlt (hsame ▸ htarget)
      exact Or.inl ⟨_, a + 1, b, rfl, ⟨rfl, rfl, hlt, hb, hdrop⟩, by omega⟩
    · have hhalf := hwithin.first_half hrot ham hmb hb htarget (lt_of_le_of_ne hup hsame)
      rw [if_pos hin] at hhalf
      exact Or.inl ⟨_, a, mid, rfl, ⟨rfl, rfl, ham, by omega, hhalf⟩, by omega⟩
    · have hhalf := hwithin.first_half hrot ham hmb hb htarget (lt_of_le_of_ne hup hsame)
      rw [if_neg hin] at hhalf
      exact Or.inl ⟨_, mid + 1, b, rfl, ⟨rfl, rfl, hmb, hb, hhalf⟩, by omega⟩
    · have hhalf := hwithin.second_half hrot ham hmb hb htarget (not_le.1 hup)
      rw [if_pos hin] at hhalf
      exact Or.inl ⟨_, mid + 1, b, rfl, ⟨rfl, rfl, hmb, hb, hhalf⟩, by omega⟩
    · have hhalf := hwithin.second_half hrot ham hmb hb htarget (not_le.1 hup)
      rw [if_neg hin] at hhalf
      exact Or.inl ⟨_, a, mid, rfl, ⟨rfl, rfl, ham, by omega, hhalf⟩, by omega⟩
  · refine Or.inr ⟨false, ?_, ?_⟩
    · have hle : ¬ (a : ℤ) ≤ (b : ℤ) - 1 := by omega
      simp only [round, if_neg hle]
      rfl
    · refine iff_of_false Bool.false_ne_true fun hmem => ?_
      obtain ⟨x, hx, hx', -⟩ := hwithin.1 hmem
      omega

theorem search_returns_of_rotated (hrot : Rotated nums p) :
    ∃ found, Returns (search nums target) (.ok found) ∧ (found = true ↔ target ∈ nums) := by
  have hround : ∀ st : ℤ × ℤ, (∃ a b, Searching nums target st a b) →
      (∃ st', attempt (round nums target) st = .again st' ∧ (∃ a b, Searching nums target st' a b) ∧
        (st'.2 - st'.1 + 1).toNat < (st.2 - st.1 + 1).toNat) ∨
        ∃ e, attempt (round nums target) st = .leave e ∧ ∃ found, e = .ok found ∧ (found = true ↔ target ∈ nums) := by
    rintro st ⟨a, b, h⟩
    rcases round_searching hrot h with ⟨st', a', b', hst', h', hless⟩ | ⟨found, hfound, hiff⟩
    · refine Or.inl ⟨st', attempt_again hst', ⟨a', b', h'⟩, ?_⟩
      rw [h.l_eq, h.r_eq, h'.l_eq, h'.r_eq]
      have hle := h'.le
      omega
    · exact Or.inr ⟨.ok found, attempt_leave hfound, found, rfl, hiff⟩
  have hstart : Searching nums target (0, (nums.length : ℤ) - 1) 0 nums.length :=
    ⟨rfl, rfl, Nat.zero_le _, le_rfl, within_all nums target⟩
  obtain ⟨_, hreturns, found, rfl, hiff⟩ := Returns.loop_of_measure (fun st : ℤ × ℤ => (st.2 - st.1 + 1).toNat) hround
    ⟨0, nums.length, hstart⟩
  exact ⟨found, hreturns, hiff⟩

/-- In a sorted list that has been rotated by any amount the search finds exactly the values that occur. -/
theorem search_iff_mem (nums : List ℤ) (hsorted : nums.Pairwise (· ≤ ·)) (k : ℕ) (target : ℤ) :
    ∃ found, Returns (search (nums.rotate k) target) (.ok found) ∧ (found = true ↔ target ∈ nums.rotate k) := by
  rw [List.rotate_eq_drop_append_take_mod]
  rw [← List.take_append_drop (k % nums.length) nums] at hsorted
  exact search_returns_of_rotated (rotated_append hsorted)

theorem search_iff_mem_one : ∃ found, Returns (search (List.rotate [1, 1, 1, 4] 3) 4) (.ok found) ∧
    (found = true ↔ (4 : ℤ) ∈ List.rotate [1, 1, 1, 4] 3) :=
  search_iff_mem [1, 1, 1, 4] (by decide) 3 4

end GoodGoodStudy.LeetCode.SearchRotated
