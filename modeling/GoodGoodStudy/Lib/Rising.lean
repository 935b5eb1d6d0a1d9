/-
Increasing sublists. The elements of a list are ranked, the latest first: the rank of an element is the greatest length
of an increasing sublist that ends in it, and so one more than the greatest rank of a smaller element before it. One
pass back over the ranks picks a longest increasing sublist; the least element of every rank tells the rank of the next
element.
-/
import Mathlib.Data.List.Basic
import Mathlib.Order.Bounds.Basic
import Mathlib.Order.MinMax

namespace GoodGoodStudy.Lib

variable {α : Type*} [LinearOrder α] {l : List (α × ℕ)} {a : α} {r n : ℕ}

/-- The lengths of the increasing sublists. -/
def RisingLengths (xs : List α) : Set ℕ := {n | ∃ s : List α, s.Sublist xs ∧ s.Pairwise (· < ·) ∧ n = s.length}

/-! ## Ranks -/

/-- The rank of an element behind `l`. -/
structure IsRank (l : List (α × ℕ)) (a : α) (r : ℕ) : Prop where
  lt : ∀ p ∈ l, p.1 < a → p.2 < r
  pred : r = 1 ∨ ∃ p ∈ l, p.1 < a ∧ p.2 + 1 = r

def Ranked : List (α × ℕ) → Prop
  | [] => True
  | (a, r) :: l => IsRank l a r ∧ Ranked l

/-- The list whose elements are ranked. -/
def values (l : List (α × ℕ)) : List α := (l.map Prod.fst).reverse

def ranks (l : List (α × ℕ)) : List ℕ := (l.map Prod.snd).reverse

omit [LinearOrder α] in
theorem values_cons (p : α × ℕ) (l : List (α × ℕ)) : values (p :: l) = values l ++ [p.1] := by
  rw [values, List.map_cons, List.reverse_cons]
  rfl

omit [LinearOrder α] in
theorem ranks_cons (p : α × ℕ) (l : List (α × ℕ)) : ranks (p :: l) = ranks l ++ [p.2] := by
  rw [ranks, List.map_cons, List.reverse_cons]
  rfl

omit [LinearOrder α] in
@[simp] theorem length_values (l : List (α × ℕ)) : (values l).length = l.length := by simp [values]

omit [LinearOrder α] in
@[simp] theorem length_ranks (l : List (α × ℕ)) : (ranks l).length = l.length := by simp [ranks]

theorem Ranked.pos (h : Ranked l) : ∀ p ∈ l, 0 < p.2 := by
  induction l with
  | nil => exact fun p hp => absurd hp List.not_mem_nil
  | cons q l ih =>
    intro p hp
    rcases List.mem_cons.1 hp with rfl | hp
    · rcases h.1.pred with hone | ⟨p, -, -, hsucc⟩
      · omega
      · omega
    · exact ih h.2 p hp

/-- The rank is computed by one pass back. -/
def rankFrom (a : α) : List (α × ℕ) → ℕ → ℕ
  | [], r => r
  | p :: l, r => rankFrom a l (if p.1 < a then max r (p.2 + 1) else r)

theorem le_rankFrom (a : α) (l : List (α × ℕ)) (r : ℕ) : r ≤ rankFrom a l r := by
  induction l generalizing r with
  | nil => exact le_rfl
  | cons p l ih =>
    refine le_trans ?_ (ih _)
    split
    · exact le_max_left _ _
    · exact le_rfl

theorem lt_rankFrom (r : ℕ) : ∀ p ∈ l, p.1 < a → p.2 < rankFrom a l r := by
  induction l generalizing r with
  | nil => exact fun p hp => absurd hp List.not_mem_nil
  | cons q l ih =>
    intro p hp hlt
    rcases List.mem_cons.1 hp with rfl | hp
    · rw [rankFrom, if_pos hlt]
      exact lt_of_lt_of_le (Nat.lt_succ_self _) (le_trans (le_max_right _ _) (le_rankFrom a l _))
    · exact ih _ p hp hlt

theorem rankFrom_eq (r : ℕ) : rankFrom a l r = r ∨ ∃ p ∈ l, p.1 < a ∧ p.2 + 1 = rankFrom a l r := by
  induction l generalizing r with
  | nil => exact .inl rfl
  | cons q l ih =>
    rw [rankFrom]
    rcases ih (if q.1 < a then max r (q.2 + 1) else r) with heq | ⟨p, hp, hlt, heq⟩
    · split_ifs at heq ⊢ with hlt
      · rcases max_choice r (q.2 + 1) with hmax | hmax
        · exact .inl (heq.trans hmax)
        · exact .inr ⟨q, List.mem_cons_self, hlt, (heq.trans hmax).symm⟩
      · exact .inl heq
    · exact .inr ⟨p, List.mem_cons_of_mem q hp, hlt, heq⟩

theorem isRank_rankFrom (a : α) (l : List (α × ℕ)) : IsRank l a (rankFrom a l 1) := ⟨lt_rankFrom 1, rankFrom_eq 1⟩

/-! ## The greatest length -/

/-- A sublist, the latest element first, is not longer than the rank of its latest element. -/
theorem Ranked.length_le (h : Ranked l) {b : α} {s : List α} (hsub : (b :: s).Sublist (l.map Prod.fst))
    (hs : (b :: s).Pairwise (· > ·)) : ∃ r, (b, r) ∈ l ∧ (b :: s).length ≤ r := by
  induction l generalizing b s with
  | nil => cases hsub
  | cons q l ih =>
    rw [List.map_cons] at hsub
    cases hsub with
    | cons _ hsub =>
      obtain ⟨r, hr, hle⟩ := ih h.2 hsub hs
      exact ⟨r, List.mem_cons_of_mem q hr, hle⟩
    | cons_cons _ hsub =>
      refine ⟨q.2, List.mem_cons_self, ?_⟩
      cases s with
      | nil => exact h.pos q List.mem_cons_self
      | cons c s =>
        obtain ⟨hlt, hs⟩ := List.pairwise_cons.1 hs
        obtain ⟨r, hr, hle⟩ := ih h.2 hsub hs
        have hrank := h.1.lt _ hr (hlt c List.mem_cons_self)
        rw [List.length_cons]
        exact lt_of_le_of_lt hle hrank

/-- From the latest element on, one element of every rank from `n` down, the latest one each time. -/
def picked : List (α × ℕ) → ℕ → List α
  | [], _ => []
  | p :: l, n => if p.2 = n then p.1 :: picked l (n - 1) else picked l n

omit [LinearOrder α] in
theorem picked_sublist (l : List (α × ℕ)) (n : ℕ) : (picked l n).Sublist (l.map Prod.fst) := by
  induction l generalizing n with
  | nil => exact List.Sublist.slnil
  | cons p l ih =>
    rw [picked, List.map_cons]
    split
    · exact (ih _).cons_cons _
    · exact (ih _).cons _

omit [LinearOrder α] in
theorem picked_zero (h : ∀ p ∈ l, 0 < p.2) : picked l 0 = [] := by
  induction l with
  | nil => rfl
  | cons p l ih =>
    rw [picked, if_neg (h p List.mem_cons_self).ne', ih fun q hq => h q (List.mem_cons_of_mem p hq)]

/-- Among the elements of one rank the latest is the least one, so what is picked before it fits the element that it was
ranked by. -/
theorem Ranked.picked_falling (h : Ranked l) (ha : (a, n) ∈ l) :
    (picked l n).length = n ∧ (picked l n).Pairwise (· > ·) ∧ ∀ x ∈ picked l n, x ≤ a := by
  induction l generalizing a n with
  | nil => cases ha
  | cons q l ih =>
    rw [picked]
    by_cases hq : q.2 = n
    · -- a smaller element of the same rank before the latest one would have given it a greater rank
      have hqa : q.1 ≤ a := by
        rcases List.mem_cons.1 ha with rfl | ha
        · exact le_rfl
        · exact not_lt.1 fun hlt => absurd (h.1.lt _ ha hlt) (by omega)
      rw [if_pos hq]
      rcases h.1.pred with hone | ⟨p, hp, hlt, hsucc⟩
      · -- no element has the rank 0, so nothing more is picked
        have hn : n - 1 = 0 := by omega
        rw [hn, picked_zero h.2.pos]
        refine ⟨by rw [List.length_singleton]; omega, List.pairwise_singleton _ _, fun x hx => ?_⟩
        rw [List.mem_singleton.1 hx]
        exact hqa
      · have hn : n - 1 = p.2 := by omega
        obtain ⟨hlength, hfalling, hle⟩ := ih h.2 hp
        have hlt' : ∀ x ∈ picked l p.2, x < q.1 := fun x hx => lt_of_le_of_lt (hle x hx) hlt
        rw [hn]
        refine ⟨by rw [List.length_cons, hlength]; omega, List.pairwise_cons.2 ⟨hlt', hfalling⟩, fun x hx => ?_⟩
        rcases List.mem_cons.1 hx with rfl | hx
        · exact hqa
        · exact (hlt' x hx).le.trans hqa
    · rw [if_neg hq]
      rcases List.mem_cons.1 ha with rfl | ha
      · exact absurd rfl hq
      · exact ih h.2 ha

theorem Ranked.isGreatest (h : Ranked l) (ha : (a, n) ∈ l) (hmax : ∀ p ∈ l, p.2 ≤ n) :
    IsGreatest (RisingLengths (values l)) n := by
  obtain ⟨hlength, hfalling, -⟩ := h.picked_falling ha
  constructor
  · refine ⟨(picked l n).reverse, (picked_sublist l n).reverse, List.pairwise_reverse.2 hfalling, ?_⟩
    rw [List.length_reverse, hlength]
  · rintro _ ⟨s, hsub, hs, rfl⟩
    have hsub' : s.reverse.Sublist (l.map Prod.fst) := by
      rw [← List.reverse_reverse (l.map Prod.fst)]
      exact hsub.reverse
    rw [← List.length_reverse]
    cases hrev : s.reverse with
    | nil => exact Nat.zero_le n
    | cons b t =>
      rw [hrev] at hsub'
      obtain ⟨r, hr, hle⟩ := h.length_le hsub' (hrev ▸ List.pairwise_reverse.2 hs)
      exact hle.trans (hmax _ hr)

/-! ## The least element of every rank -/

/-- Behind `k` elements `tops` holds the least element of rank `k + 1`. -/
structure Tops (l : List (α × ℕ)) (tops : List α) : Prop where
  rising : tops.Pairwise (· < ·)
  mem : ∀ k b, tops[k]? = some b → (b, k + 1) ∈ l
  le : ∀ p ∈ l, ∃ k b, p.2 = k + 1 ∧ tops[k]? = some b ∧ b ≤ p.1

theorem Tops.singleton (a : α) : Tops [(a, 1)] [a] where
  rising := List.pairwise_singleton _ _
  mem k b hb := by
    cases k with
    | zero =>
      obtain rfl := Option.some.inj hb
      exact List.mem_singleton_self _
    | succ k => cases hb
  le p hp := ⟨0, a, by rw [List.mem_singleton.1 hp], rfl, by rw [List.mem_singleton.1 hp]⟩

theorem Tops.rank_le {tops : List α} (h : Tops l tops) : ∀ p ∈ l, p.2 ≤ tops.length := by
  intro p hp
  obtain ⟨k, b, hk, hb, -⟩ := h.le p hp
  obtain ⟨hlt, -⟩ := List.getElem?_eq_some_iff.1 hb
  omega

/-- The number of elements in `tops` is a rank, and so the greatest one. -/
theorem Tops.exists_rank {tops : List α} (h : Tops l tops) (hne : l ≠ []) : ∃ b, (b, tops.length) ∈ l := by
  obtain ⟨p, hp⟩ := List.exists_mem_of_ne_nil l hne
  obtain ⟨k, b, hk, hb, -⟩ := h.le p hp
  rcases List.eq_nil_or_concat tops with rfl | ⟨tops, c, rfl⟩
  · cases hb
  · refine ⟨c, ?_⟩
    rw [List.concat_eq_append] at h ⊢
    rw [List.length_append, List.length_singleton]
    exact h.mem tops.length c (by simp)

/-- Where an element belongs in an increasing list. -/
theorem exists_place {tops : List α} (h : tops.Pairwise (· < ·)) (a : α) :
    ∃ lo hi, tops = lo ++ hi ∧ (∀ x ∈ lo, x < a) ∧ ∀ x ∈ hi, a ≤ x := by
  induction tops with
  | nil => exact ⟨[], [], rfl, fun x hx => absurd hx List.not_mem_nil, fun x hx => absurd hx List.not_mem_nil⟩
  | cons b tops ih =>
    obtain ⟨hb, h⟩ := List.pairwise_cons.1 h
    by_cases hlt : b < a
    · obtain ⟨lo, hi, rfl, hlo, hhi⟩ := ih h
      exact ⟨b :: lo, hi, rfl, List.forall_mem_cons.2 ⟨hlt, hlo⟩, hhi⟩
    · have hle := not_lt.1 hlt
      exact ⟨[], b :: tops, rfl, fun x hx => absurd hx List.not_mem_nil,
        List.forall_mem_cons.2 ⟨hle, fun x hx => hle.trans (hb x hx).le⟩⟩

section Place

variable {lo hi : List α}

omit [LinearOrder α] in
theorem getElem?_place (lo hi : List α) (a : α) (k : ℕ) :
    (lo ++ a :: hi.tail)[k]? = if k = lo.length then some a else (lo ++ hi)[k]? := by
  split_ifs with hk
  · rw [hk, List.getElem?_append_right le_rfl, Nat.sub_self]
    rfl
  · by_cases hlt : k < lo.length
    · rw [List.getElem?_append_left hlt, List.getElem?_append_left hlt]
    · obtain ⟨m, rfl⟩ := Nat.exists_eq_add_of_lt (show lo.length < k by omega)
      rw [List.getElem?_append_right (by omega), List.getElem?_append_right (by omega)]
      have hm : lo.length + m + 1 - lo.length = m + 1 := by omega
      rw [hm, List.getElem?_cons_succ, List.getElem?_tail]

/-- What stands from the place on is not less. -/
theorem le_of_place (hhi : ∀ x ∈ hi, a ≤ x) {k : ℕ} {b : α} (hk : lo.length ≤ k) (hb : (lo ++ hi)[k]? = some b) :
    a ≤ b := by
  rw [List.getElem?_append_right hk] at hb
  exact hhi b (List.mem_of_getElem? hb)

theorem Tops.isRank (h : Tops l (lo ++ hi)) (hlo : ∀ x ∈ lo, x < a) (hhi : ∀ x ∈ hi, a ≤ x) :
    IsRank l a (lo.length + 1) where
  lt p hp hlt := by
    obtain ⟨k, b, hk, hb, hle⟩ := h.le p hp
    by_contra hge
    exact absurd (le_of_place hhi (by omega) hb) (lt_of_le_of_lt hle hlt).not_ge
  pred := by
    rcases List.eq_nil_or_concat lo with rfl | ⟨lo, c, rfl⟩
    · exact .inl rfl
    · refine .inr ⟨(c, lo.length + 1), h.mem lo.length c (by simp), hlo c (by simp), ?_⟩
      rw [List.concat_eq_append, List.length_append, List.length_singleton]

/-- The element takes the place of the first one that is not less, or the place behind the last one. -/
theorem Tops.step (h : Tops l (lo ++ hi)) (hlo : ∀ x ∈ lo, x < a) (hhi : ∀ x ∈ hi, a ≤ x) :
    Tops ((a, lo.length + 1) :: l) (lo ++ a :: hi.tail) where
  rising := by
    obtain ⟨hlo', hhi', hcross⟩ := List.pairwise_append.1 h.rising
    have htail : ∀ x ∈ hi.tail, a < x := by
      cases hi with
      | nil => exact fun x hx => absurd hx List.not_mem_nil
      | cons b hi => exact fun x hx => lt_of_le_of_lt (hhi b List.mem_cons_self) ((List.pairwise_cons.1 hhi').1 x hx)
    refine List.pairwise_append.2 ⟨hlo', List.pairwise_cons.2 ⟨htail, hhi'.tail⟩, fun x hx y hy => ?_⟩
    rcases List.mem_cons.1 hy with rfl | hy
    · exact hlo x hx
    · exact hcross x hx y (List.mem_of_mem_tail hy)
  mem k b hb := by
    rw [getElem?_place] at hb
    split_ifs at hb with hk
    · obtain rfl := Option.some.inj hb
      rw [hk]
      exact List.mem_cons_self
    · exact List.mem_cons_of_mem _ (h.mem k b hb)
  le p hp := by
    simp only [getElem?_place]
    rcases List.mem_cons.1 hp with rfl | hp
    · exact ⟨lo.length, a, rfl, if_pos rfl, le_rfl⟩
    · obtain ⟨k, b, hk, hb, hle⟩ := h.le p hp
      by_cases heq : k = lo.length
      · exact ⟨k, a, hk, if_pos heq, (le_of_place hhi heq.ge hb).trans hle⟩
      · exact ⟨k, b, hk, by rw [if_neg heq, hb], hle⟩

end Place

end GoodGoodStudy.Lib
