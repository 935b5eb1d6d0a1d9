/-
The part of a list between two indices, both included, that is made narrower from its ends. In a sorted part equal
elements stand together, and all but one of them can be skipped.
-/
import Mathlib.Data.List.Induction
import GoodGoodStudy.Lib.Sequence

namespace GoodGoodStudy.Lib

variable {α : Type*} {xs w m : List α} {l r : ℤ} {a x y : α}

/-- The elements from the index `l` up to the index `r`. Where there are none, the indices may be further apart. -/
def Window (xs : List α) (l r : ℤ) (w : List α) : Prop :=
  w = [] ∧ r < l ∨ ∃ pre post, xs = pre ++ w ++ post ∧ l = pre.length ∧ r + 1 = pre.length + w.length

namespace Window

theorem drop {n : ℕ} (hn : n ≤ xs.length) : Window xs n (xs.length - 1) (xs.drop n) := by
  refine Or.inr ⟨xs.take n, [], by rw [List.append_nil, List.take_append_drop], ?_, ?_⟩
  · rw [List.length_take, min_eq_left hn]
  · rw [List.length_take, List.length_drop]
    omega

theorem lt_iff (h : Window xs l r w) : l < r ↔ 2 ≤ w.length := by
  rcases h with ⟨rfl, hlt⟩ | ⟨pre, post, -, hl, hr⟩
  · rw [List.length_nil]
    omega
  · omega

theorem first (h : Window xs l r (a :: w)) : item? xs l = some a := by
  rcases h with ⟨hnil, -⟩ | ⟨pre, post, rfl, hl, -⟩
  · exact absurd hnil (List.cons_ne_nil a w)
  · rw [List.append_assoc, List.cons_append]
    exact item?_append hl a _

theorem last (h : Window xs l r (w ++ [a])) : item? xs r = some a := by
  rcases h with ⟨hnil, -⟩ | ⟨pre, post, rfl, -, hr⟩
  · exact absurd hnil (List.append_ne_nil_of_right_ne_nil w (List.cons_ne_nil a []))
  · rw [← List.append_assoc, List.append_assoc, List.singleton_append]
    refine item?_append ?_ a _
    rw [List.length_append, List.length_singleton] at hr
    rw [List.length_append]
    omega

theorem tail (h : Window xs l r (a :: w)) : Window xs (l + 1) r w := by
  rcases h with ⟨hnil, -⟩ | ⟨pre, post, rfl, hl, hr⟩
  · exact absurd hnil (List.cons_ne_nil a w)
  · refine Or.inr ⟨pre ++ [a], post, by simp, ?_, ?_⟩
    · rw [hl, List.length_append, List.length_singleton]
      omega
    · rw [hr, List.length_append, List.length_singleton, List.length_cons]
      omega

theorem dropLast (h : Window xs l r (w ++ [a])) : Window xs l (r - 1) w := by
  rcases h with ⟨hnil, -⟩ | ⟨pre, post, rfl, hl, hr⟩
  · exact absurd hnil (List.append_ne_nil_of_right_ne_nil w (List.cons_ne_nil a []))
  · refine Or.inr ⟨pre, a :: post, by simp, hl, ?_⟩
    rw [List.length_append, List.length_singleton] at hr
    omega

theorem exists_ends (hw : 2 ≤ w.length) : ∃ x m y, w = x :: (m ++ [y]) := by
  match w, hw with
  | x :: y :: w, _ =>
    obtain ⟨m, z, hz⟩ := (List.eq_nil_or_concat' (y :: w)).resolve_left (List.cons_ne_nil y w)
    exact ⟨x, m, z, by rw [hz]⟩

theorem nil_of_lt (h : r < l) : Window xs l r [] := Or.inl ⟨rfl, h⟩

theorem lt_of_nil (h : Window xs l r []) : r < l := by
  rcases h with ⟨-, hlt⟩ | ⟨pre, post, -, hl, hr⟩
  · exact hlt
  · rw [List.length_nil] at hr
    omega

end Window

/-! ## Equal elements at the ends -/

section Trim

variable [DecidableEq α]

/-- Of the equal elements at the beginning only the last one. -/
def trimLeft : List α → List α
  | [] => []
  | [a] => [a]
  | a :: b :: w => if a = b then trimLeft (b :: w) else a :: b :: w

def trimRight (w : List α) : List α := (trimLeft w.reverse).reverse

theorem trimLeft_cons {s : α → α → Prop} [Std.Antisymm s] (h : (x :: m).Pairwise s) :
    trimLeft (x :: m) = x :: m.filter (· ≠ x) := by
  induction m generalizing x with
  | nil => rfl
  | cons b m ih =>
    obtain ⟨hx, hm⟩ := List.pairwise_cons.1 h
    rw [trimLeft]
    split_ifs with hxb
    · subst hxb
      rw [ih hm, List.filter_cons_of_neg (by simp)]
    -- the next element is another one, and so are all behind it
    · have hne : ∀ z ∈ b :: m, z ≠ x := by
        rintro z hz rfl
        rcases List.mem_cons.1 hz with rfl | hz
        · exact hxb rfl
        · exact hxb (antisymm (hx b List.mem_cons_self) ((List.pairwise_cons.1 hm).1 z hz))
      rw [List.filter_eq_self.2 fun z hz => decide_eq_true (hne z hz)]

theorem trimRight_concat {s : α → α → Prop} [Std.Antisymm s] (h : (m ++ [y]).Pairwise s) :
    trimRight (m ++ [y]) = m.filter (· ≠ y) ++ [y] := by
  have hreverse : (y :: m.reverse).Pairwise fun a b => s b a := by
    rw [← List.reverse_concat', List.pairwise_reverse]
    exact h
  have hanti : Std.Antisymm fun a b => s b a := ⟨fun a b hab hba => antisymm hba hab⟩
  rw [trimRight, List.reverse_concat', trimLeft_cons hreverse, List.reverse_cons, List.filter_reverse,
    List.reverse_reverse]

/-- What is left of a window without its ends and everything equal to them. -/
def between (x y : α) (m : List α) : List α := (m.filter (· ≠ x)).filter (· ≠ y)

theorem mem_between {z : α} : z ∈ between x y m ↔ z ∈ m ∧ z ≠ x ∧ z ≠ y := by
  rw [between, List.mem_filter, List.mem_filter, decide_eq_true_iff, decide_eq_true_iff, and_assoc]

theorem between_sublist (x y : α) (m : List α) : (between x y m).Sublist m :=
  List.filter_sublist.trans List.filter_sublist

theorem between_sublist_ends (x y : α) (m : List α) : (between x y m).Sublist (x :: (m ++ [y])) :=
  ((between_sublist x y m).trans (List.sublist_append_left m [y])).cons x

theorem length_between_lt (x y : α) (m : List α) : (between x y m).length < (x :: (m ++ [y])).length := by
  have hle := (between_sublist x y m).length_le
  rw [List.length_cons, List.length_append]
  omega

theorem count_between {z : α} (hx : z ≠ x) (hy : z ≠ y) : (between x y m).count z = m.count z := by
  rw [between, List.count_filter (by simpa using hy), List.count_filter (by simpa using hx)]

theorem mem_between_ends {z : α} : z ∈ between x y m ↔ z ∈ x :: (m ++ [y]) ∧ z ≠ x ∧ z ≠ y := by
  rw [mem_between, List.mem_cons, List.mem_append, List.mem_singleton]
  constructor
  · rintro ⟨hz, hne⟩
    exact ⟨Or.inr (Or.inl hz), hne⟩
  · rintro ⟨rfl | hz | rfl, hne⟩
    · exact absurd rfl hne.1
    · exact ⟨hz, hne⟩
    · exact absurd rfl hne.2

theorem count_between_ends {z : α} (hx : z ≠ x) (hy : z ≠ y) : (between x y m).count z = (x :: (m ++ [y])).count z := by
  rw [count_between hx hy, List.count_cons_of_ne hx.symm, List.count_append, List.count_singleton,
    if_neg (by simpa using hy.symm), Nat.add_zero]

/-- The ends of a sorted window may be equal, and then so is everything. -/
theorem trimLeft_ends {s : α → α → Prop} [Std.Antisymm s] (h : (x :: (m ++ [y])).Pairwise s) :
    trimLeft (x :: (m ++ [y])) = if x = y then [x] else x :: (m.filter (· ≠ x) ++ [y]) := by
  rw [trimLeft_cons h, List.filter_append]
  obtain ⟨hx, hm⟩ := List.pairwise_cons.1 h
  split_ifs with hxy
  · have hnil : m.filter (· ≠ x) = [] := by
      refine List.filter_eq_nil_iff.2 fun z hz => ?_
      have hzy := (List.pairwise_append.1 hm).2.2 z hz y List.mem_cons_self
      rw [decide_eq_true_iff, not_not]
      exact antisymm (hxy ▸ hzy) (hx z (List.mem_append_left [y] hz))
    rw [hnil, hxy, List.filter_cons_of_neg (by simp), List.nil_append, List.filter_nil]
  · rw [List.filter_cons_of_pos (by simpa using Ne.symm hxy), List.filter_nil]

end Trim

end GoodGoodStudy.Lib
