/-
The rearrangements of a list in the order of a dictionary: the sorted list is the first one, a list that never rises is
the last one, and the next one after a list changes it as far behind as possible.
-/
import Mathlib.Data.List.Lex
import Mathlib.Order.Bounds.Defs
import GoodGoodStudy.Lib.Sorting

namespace GoodGoodStudy.Lib

variable {α : Type*} {l l' s pre post : List α} {x y : α}

/-- Two lists with the same elements, one of which is in order, are equal up to the place where they first differ. -/
theorem first_difference {r : α → α → Prop} (hs : s.Pairwise r) (hl : l.Perm s) (hne : s ≠ l) :
    ∃ pre a b t t', s = pre ++ a :: t ∧ l = pre ++ b :: t' ∧ r a b ∧ a ≠ b := by
  induction s generalizing l with
  | nil => exact absurd hl.eq_nil.symm hne
  | cons a s ih =>
    cases l with
    | nil => exact absurd hl.symm.eq_nil (List.cons_ne_nil a s)
    | cons b l =>
      obtain ⟨hhead, hs'⟩ := List.pairwise_cons.1 hs
      by_cases hab : a = b
      · subst hab
        obtain ⟨pre, c, d, t, t', hst, hlt, hr, hcd⟩ := ih hs' hl.cons_inv fun heq => hne (by rw [heq])
        exact ⟨a :: pre, c, d, t, t', by rw [hst, List.cons_append], by rw [hlt, List.cons_append], hr, hcd⟩
      · have hb : b ∈ s := (List.mem_cons.1 (hl.subset List.mem_cons_self)).resolve_left (Ne.symm hab)
        exact ⟨[], a, b, s, l, rfl, rfl, hhead b hb, hab⟩

section Order

variable [LinearOrder α]

theorem le_of_pairwise_le (hs : s.Pairwise (· ≤ ·)) (hl : l.Perm s) : s ≤ l := by
  by_cases hne : s = l
  · exact hne.le
  · obtain ⟨pre, a, b, t, t', rfl, rfl, hle, hab⟩ := first_difference hs hl hne
    exact (List.append_left_lt (List.cons_lt_cons_iff.2 (Or.inl (lt_of_le_of_ne hle hab)))).le

theorem sorted_le (hl : l'.Perm l) : sorted l ≤ l' :=
  le_of_pairwise_le (sorted_pairwise l) (hl.trans (sorted_perm l).symm)

theorem le_of_pairwise_ge (hs : s.Pairwise (· ≥ ·)) (hl : l.Perm s) : l ≤ s := by
  by_cases hne : s = l
  · exact hne.ge
  · obtain ⟨pre, a, b, t, t', rfl, rfl, hle, hab⟩ := first_difference hs hl hne
    exact (List.append_left_lt (List.cons_lt_cons_iff.2 (Or.inl (lt_of_le_of_ne hle (Ne.symm hab))))).le

/-- The rearrangements that come after the list. -/
def After (l : List α) : Set (List α) := {l' | l'.Perm l ∧ l < l'}

/-- What stands in front of both stays. -/
theorem IsLeast.after_append (h : IsLeast (After l) l') (pre : List α) : IsLeast (After (pre ++ l)) (pre ++ l') := by
  induction pre with
  | nil => exact h
  | cons a pre ih =>
    obtain ⟨⟨hperm, hlt⟩, hle⟩ := ih
    refine ⟨⟨hperm.cons a, List.cons_lt_cons_iff.2 (Or.inr ⟨rfl, hlt⟩)⟩, ?_⟩
    rintro m ⟨hm, hltm⟩
    cases m with
    | nil => exact absurd hm.symm.eq_nil (List.cons_ne_nil a _)
    | cons b m =>
      rcases List.cons_lt_cons_iff.1 hltm with hab | ⟨rfl, hrest⟩
      · exact (List.cons_lt_cons_iff.2 (Or.inl hab)).le
      · exact List.cons_le_cons a (hle ⟨hm.cons_inv, hrest⟩)

/-- An element changes places with the last one behind it that is greater, if the list never rises there. -/
theorem isLeast_after_cons (hs : (pre ++ y :: post).Pairwise (· ≥ ·)) (hxy : x < y) (hpost : ∀ a ∈ post, a ≤ x) :
    IsLeast (After (x :: (pre ++ y :: post))) (y :: sorted (pre ++ x :: post)) := by
  have hswap : (y :: (pre ++ x :: post)).Perm (x :: (pre ++ y :: post)) :=
    ((List.perm_middle.cons y).trans (List.Perm.swap x y _)).trans (List.perm_middle.symm.cons x)
  refine ⟨⟨((sorted_perm _).cons y).trans hswap, List.cons_lt_cons_iff.2 (Or.inl hxy)⟩, ?_⟩
  rintro m ⟨hm, hlt⟩
  cases m with
  | nil => exact absurd hm.symm.eq_nil (List.cons_ne_nil x _)
  | cons b m =>
    rcases List.cons_lt_cons_iff.1 hlt with hxb | ⟨rfl, hrest⟩
    · have hb : b ∈ pre ++ y :: post :=
        (List.mem_cons.1 (hm.subset List.mem_cons_self)).resolve_left (ne_of_gt hxb)
      have hyb : y ≤ b := by
        rcases List.mem_append.1 hb with hb | hb
        · exact (List.pairwise_append.1 hs).2.2 b hb y List.mem_cons_self
        · rcases List.mem_cons.1 hb with rfl | hb
          · exact le_rfl
          · exact absurd (hpost b hb) (not_le.2 hxb)
      rcases hyb.lt_or_eq with hlt | rfl
      · exact (List.cons_lt_cons_iff.2 (Or.inl hlt)).le
      · exact List.cons_le_cons y (sorted_le (hm.trans hswap.symm).cons_inv)
    · -- behind the element there is no later rearrangement
      exact absurd (le_of_pairwise_ge hs hm.cons_inv) (not_le.2 hrest)

end Order

end GoodGoodStudy.Lib
