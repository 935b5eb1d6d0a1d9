/-
The selections of some elements of a list whose sum is given, each of them once whatever places its elements come from.
In a sorted list a selection is a sublist: its first element may be taken at the first place where it stands, and the
rest is a selection of what is behind. The selections of two elements are found from both ends of the list.
-/
import Mathlib.Algebra.BigOperators.Group.List.Basic
import Mathlib.Algebra.BigOperators.Group.Multiset.Basic
import Mathlib.Algebra.Order.BigOperators.Group.List
import Mathlib.Algebra.Order.Group.Int
import Mathlib.Algebra.Ring.Int.Defs
import Mathlib.Data.List.Nodup
import Mathlib.Data.Multiset.Sort
import GoodGoodStudy.Lib.Loop
import GoodGoodStudy.Lib.Window

namespace GoodGoodStudy.Lib

variable {xs ys w w' l l' pre post : List ℤ} {res news : List (List ℤ)} {S S' : Set (List ℤ)} {a b e x y T : ℤ}
  {n k : ℕ}

/-! ## Selections -/

/-- The result has every multiset of `n` elements of the list with the sum `T` once, and nothing else. -/
def Selects (nums : List ℤ) (n : ℕ) (T : ℤ) (res : List (List ℤ)) : Prop :=
  (res.map Multiset.ofList).Nodup ∧
    ∀ m : Multiset ℤ, m ∈ res.map Multiset.ofList ↔ m.card = n ∧ m ≤ (nums : Multiset ℤ) ∧ m.sum = T

/-- The sublists, for a sorted list. -/
def Selections (xs : List ℤ) (n : ℕ) (T : ℤ) : Set (List ℤ) := {l | l.Sublist xs ∧ l.length = n ∧ l.sum = T}

/-- Every list of the set stands in the result once. -/
structure Enumerates (res : List (List ℤ)) (S : Set (List ℤ)) : Prop where
  nodup : res.Nodup
  mem_iff : ∀ l, l ∈ res ↔ l ∈ S

theorem selects_of_short (h : xs.length < n) : Selects xs n T [] := by
  refine ⟨List.nodup_nil, fun m => iff_of_false List.not_mem_nil ?_⟩
  rintro ⟨rfl, hle, -⟩
  have hcard := Multiset.card_le_card hle
  rw [Multiset.coe_card] at hcard
  exact absurd h (not_lt.2 hcard)

theorem selects_iff (hperm : xs.Perm ys) (hxs : xs.Pairwise (· ≤ ·)) (h : Enumerates res S)
    (hS : S ⊆ Selections xs n T) : Selects ys n T res ↔ Selections xs n T ⊆ S := by
  have hcoe : (xs : Multiset ℤ) = (ys : Multiset ℤ) := Multiset.coe_eq_coe.2 hperm
  have hinj : ∀ l ∈ Selections xs n T, ∀ l' ∈ Selections xs n T, (l : Multiset ℤ) = l' → l = l' :=
    fun l hl l' hl' heq => (Multiset.coe_eq_coe.1 heq).eq_of_pairwise' (hxs.sublist hl.1) (hxs.sublist hl'.1)
  constructor
  · rintro ⟨-, hmem⟩ l hl
    have hl' : (l : Multiset ℤ) ∈ res.map Multiset.ofList := by
      rw [hmem, ← hcoe]
      exact ⟨hl.2.1, Multiset.coe_le.2 hl.1.subperm, hl.2.2⟩
    obtain ⟨l', hl', heq⟩ := List.mem_map.1 hl'
    have hl'S := (h.mem_iff l').1 hl'
    rwa [← hinj l' (hS hl'S) l hl heq]
  · intro hsub
    refine ⟨h.nodup.map_on fun l hl l' hl' heq => ?_, fun m => ?_⟩
    · exact hinj l (hS ((h.mem_iff l).1 hl)) l' (hS ((h.mem_iff l').1 hl')) heq
    · rw [List.mem_map, ← hcoe]
      constructor
      · rintro ⟨l, hl, rfl⟩
        obtain ⟨hsublist, hlen, hsum⟩ := hS ((h.mem_iff l).1 hl)
        exact ⟨hlen, Multiset.coe_le.2 hsublist.subperm, hsum⟩
      · rintro ⟨hcard, hle, hsum⟩
        -- sorted, the multiset is a sublist of the sorted list
        have hsort := Multiset.sort_eq m (· ≤ ·)
        have hsubperm : (m.sort (· ≤ ·)).Subperm xs := by
          rw [← Multiset.coe_le, hsort]
          exact hle
        refine ⟨m.sort (· ≤ ·), (h.mem_iff _).2 (hsub ⟨?_, ?_, ?_⟩), hsort⟩
        · exact List.sublist_of_subperm_of_pairwise hsubperm (Multiset.pairwise_sort m (· ≤ ·)) hxs
        · rw [Multiset.length_sort, hcard]
        · rw [← Multiset.sum_coe, hsort, hsum]

namespace Enumerates

theorem nil (h : ∀ l, l ∉ S) : Enumerates [] S :=
  ⟨List.nodup_nil, fun l => iff_of_false List.not_mem_nil (h l)⟩

theorem congr (h : Enumerates res S) (hS : ∀ l, l ∈ S' ↔ l ∈ S) : Enumerates res S' :=
  ⟨h.nodup, fun l => (h.mem_iff l).trans (hS l).symm⟩

theorem cons (h : Enumerates res S) (hl : l ∉ S) : Enumerates (l :: res) (insert l S) :=
  ⟨List.nodup_cons.2 ⟨fun hmem => hl ((h.mem_iff l).1 hmem), h.nodup⟩, fun l' => by
    rw [List.mem_cons, h.mem_iff, Set.mem_insert_iff]⟩

end Enumerates

/-! ## The first element -/

/-- The lists whose first element is one of the first `k`. -/
def Firsts (xs : List ℤ) (S : ℤ → Set (List ℤ)) (k : ℕ) : Set (List ℤ) :=
  {l | ∃ a ∈ xs.take k, ∃ l' ∈ S a, l = a :: l'}

section Firsts

variable {S : ℤ → Set (List ℤ)}

theorem enumerates_firsts_zero (xs : List ℤ) (S : ℤ → Set (List ℤ)) : Enumerates [] (Firsts xs S 0) :=
  Enumerates.nil fun _ ⟨_, ha, _⟩ => absurd ha List.not_mem_nil

theorem mem_take_succ (hk : k < xs.length) : a ∈ xs.take (k + 1) ↔ a ∈ xs.take k ∨ a = xs[k] := by
  rw [List.take_succ_eq_append_getElem hk, List.mem_append, List.mem_singleton]

/-- The same element again, or nothing begins with it. -/
theorem Enumerates.firsts_skip (h : Enumerates res (Firsts xs S k)) (hk : k < xs.length)
    (hskip : xs[k] ∈ xs.take k ∨ ∀ l, l ∉ S xs[k]) : Enumerates res (Firsts xs S (k + 1)) := by
  refine h.congr fun l => exists_congr fun a => ?_
  rw [mem_take_succ hk, or_and_right, or_iff_left_of_imp]
  rintro ⟨rfl, l', hl', rfl⟩
  rcases hskip with hmem | hnone
  · exact ⟨hmem, l', hl', rfl⟩
  · exact absurd hl' (hnone l')

theorem Enumerates.firsts_next (h : Enumerates res (Firsts xs S k)) (hk : k < xs.length) (hnew : xs[k] ∉ xs.take k)
    (hnews : Enumerates news (S xs[k])) : Enumerates (res ++ news.map (xs[k] :: ·)) (Firsts xs S (k + 1)) := by
  refine ⟨List.nodup_append.2 ⟨h.nodup, hnews.nodup.map List.cons_injective, ?_⟩, fun l => ?_⟩
  · rintro l hl _ hl' rfl
    obtain ⟨a, ha, l', -, rfl⟩ := (h.mem_iff l).1 hl
    obtain ⟨l'', -, heq⟩ := List.mem_map.1 hl'
    exact hnew ((List.cons_eq_cons.1 heq).1 ▸ ha)
  · rw [List.mem_append, h.mem_iff, List.mem_map]
    constructor
    · rintro (⟨a, ha, hl⟩ | ⟨l', hl', rfl⟩)
      · exact ⟨a, (mem_take_succ hk).2 (Or.inl ha), hl⟩
      · exact ⟨xs[k], (mem_take_succ hk).2 (Or.inr rfl), l', (hnews.mem_iff l').1 hl', rfl⟩
    · rintro ⟨a, ha, l', hl', rfl⟩
      rcases (mem_take_succ hk).1 ha with ha | rfl
      · exact Or.inl ⟨a, ha, l', hl', rfl⟩
      · exact Or.inr ⟨l', (hnews.mem_iff l').2 hl', rfl⟩

/-- Nothing begins with a later element. -/
theorem Enumerates.firsts_stop (h : Enumerates res (Firsts xs S k)) (hn : k ≤ n)
    (hnone : ∀ a ∈ xs.drop k, a ∉ xs.take k → ∀ l, l ∉ S a) : Enumerates res (Firsts xs S n) := by
  refine h.congr fun l => ⟨?_, ?_⟩
  · rintro ⟨a, ha, l', hl', rfl⟩
    by_cases hmem : a ∈ xs.take k
    · exact ⟨a, hmem, l', hl', rfl⟩
    · refine absurd hl' (hnone a ?_ hmem l')
      rw [← Nat.add_sub_cancel' hn, List.take_add, List.mem_append] at ha
      exact List.mem_of_mem_take (ha.resolve_left hmem)
  · rintro ⟨a, ha, hl⟩
    exact ⟨a, List.take_subset_take_left xs hn ha, hl⟩

end Firsts

/-- What stands behind the first place of an element goes with it. -/
theorem cons_sublist_iff_of_notMem (ha : a ∉ pre) : (a :: l).Sublist (pre ++ a :: post) ↔ l.Sublist post := by
  induction pre with
  | nil => exact List.cons_sublist_cons
  | cons b pre ih =>
    rw [List.mem_cons, not_or] at ha
    rw [List.cons_append, List.sublist_cons_iff, ih ha.2, or_iff_left]
    rintro ⟨r, hr, -⟩
    exact ha.1 (List.cons_eq_cons.1 hr).1

/-- The first element of a selection leaves room for the other ones. -/
theorem mem_take_of_cons_sublist (h : (a :: l).Sublist xs) : a ∈ xs.take (xs.length - l.length) := by
  obtain ⟨r₁, r₂, rfl, ha, hl⟩ := List.cons_sublist_iff.1 h
  have hlen := hl.length_le
  rw [List.length_append, List.take_append]
  refine List.mem_append_left _ ?_
  rwa [List.take_of_length_le (by omega)]

theorem selections_eq_firsts (hn : k + n = xs.length) :
    Selections xs (n + 1) T = Firsts xs (fun a => {l | a :: l ∈ Selections xs (n + 1) T}) k := by
  ext l
  constructor
  · intro hl
    obtain ⟨hsub, hlen, -⟩ := id hl
    match l, hlen with
    | a :: l, hlen =>
      refine ⟨a, ?_, l, hl, rfl⟩
      have hmem := mem_take_of_cons_sublist hsub
      rw [List.length_cons, Nat.succ_inj] at hlen
      rwa [hlen, ← hn, Nat.add_sub_cancel] at hmem
  · rintro ⟨a, -, l', hl', rfl⟩
    exact hl'

/-- A selection that begins with an element where it stands first. -/
theorem cons_mem_selections_append_iff (ha : a ∉ pre) :
    a :: l ∈ Selections (pre ++ a :: post) (n + 1) T ↔ l ∈ Selections post n (T - a) := by
  refine and_congr (cons_sublist_iff_of_notMem ha) (and_congr ?_ ?_)
  · rw [List.length_cons, Nat.succ_inj]
  · rw [List.sum_cons]
    omega

theorem cons_mem_selections_iff (hk : k < xs.length) (hnew : xs[k] ∉ xs.take k) :
    xs[k] :: l ∈ Selections xs (n + 1) T ↔ l ∈ Selections (xs.drop (k + 1)) n (T - xs[k]) := by
  have hiff : xs[k] :: l ∈ Selections (xs.take k ++ xs[k] :: xs.drop (k + 1)) (n + 1) T ↔ _ :=
    cons_mem_selections_append_iff hnew
  rwa [← List.drop_eq_getElem_cons hk, List.take_append_drop] at hiff

/-- In a sorted list an element stands for the first time, if the one before it is another one. -/
theorem mem_take_iff (hxs : xs.Pairwise (· ≤ ·)) (hk : k + 1 < xs.length) :
    xs[k + 1] ∈ xs.take (k + 1) ↔ xs[k + 1] = xs[k] := by
  constructor
  · intro hmem
    obtain ⟨i, hi, heq⟩ := List.getElem_of_mem hmem
    rw [List.length_take] at hi
    rw [List.getElem_take] at heq
    have hle : ∀ i j (hi : i < xs.length) (hj : j < xs.length), i ≤ j → xs[i] ≤ xs[j] := fun i j hi hj hij =>
      hxs.rel_get_of_le (a := ⟨i, hi⟩) (b := ⟨j, hj⟩) hij
    have h₁ := hle i k (by omega) (by omega) (by omega)
    have h₂ := hle k (k + 1) (by omega) hk (Nat.le_succ k)
    omega
  · intro heq
    rw [heq, mem_take_succ (Nat.lt_of_succ_lt hk)]
    exact Or.inr rfl

/-- What a loop over the first elements may do with one of them. -/
inductive Visits (xs : List ℤ) (S : ℤ → Set (List ℤ)) (fix : List ℤ → List ℤ) (k : ℕ) (hk : k < xs.length)
    (res : List (List ℤ)) : Round (List (List ℤ)) (List (List ℤ)) → Prop
  | skip (h : xs[k] ∈ xs.take k ∨ ∀ l, l ∉ S xs[k]) : Visits xs S fix k hk res (.again res)
  | stop (h : ∀ a ∈ xs.drop k, a ∉ xs.take k → ∀ l, l ∉ S a) : Visits xs S fix k hk res (.leave res)
  | next {news : List (List ℤ)} (hnew : xs[k] ∉ xs.take k) (h : Enumerates news (S xs[k])) :
      Visits xs S fix k hk res (.again (res ++ news.map fun l => fix (xs[k] :: l)))

/-- A loop over the first elements. -/
theorem forBreak_firsts {ε : Type} {S : ℤ → Set (List ℤ)} (xs : List ℤ) (s n : ℕ) (fix : List ℤ → List ℤ)
    {body : ℕ → ℕ → List (List ℤ) → ExceptT ε Option (Round _ (List (List ℤ)))} (hn : n ≤ xs.length)
    (hbody : ∀ k (hk : k < n) res, ∃ r, Returns (fun fuel => body fuel (s + k) res) (.ok r) ∧
      Visits xs S fix k (hk.trans_le hn) res r) (res : List (List ℤ)) :
    ∃ news, Returns (fun fuel => forBreak (body fuel) (List.range' s n) res) (.ok (res ++ news.map fix)) ∧
      Enumerates news (Firsts xs S n) := by
  obtain ⟨res', hreturns, news, rfl, hnews⟩ := Returns.forBreak_range' n s
    (P := fun t res' => ∃ news, res' = res ++ news.map fix ∧ Enumerates news (Firsts xs S (t - s)))
    (fun t hst ht res' ⟨news, hres', hnews⟩ => by
      -- the round `t` is about the element `t - s`
      obtain ⟨k, rfl⟩ := Nat.exists_eq_add_of_le hst
      obtain ⟨r, hr, hvisits⟩ := hbody k (by omega) res'
      refine ⟨r, hr, ?_⟩
      rw [Nat.add_sub_cancel_left] at hnews
      cases hvisits with
      | skip h =>
        refine ⟨news, hres', ?_⟩
        rw [Nat.add_assoc, Nat.add_sub_cancel_left]
        exact hnews.firsts_skip _ h
      | stop h =>
        refine ⟨news, hres', ?_⟩
        rw [Nat.add_sub_cancel_left]
        exact hnews.firsts_stop (by omega) h
      | @next news' hnew h =>
        refine ⟨news ++ news'.map (xs[k] :: ·), ?_, ?_⟩
        · rw [hres', List.map_append, List.map_map, List.append_assoc]
          rfl
        · rw [Nat.add_assoc, Nat.add_sub_cancel_left]
          exact hnews.firsts_next _ hnew h) ⟨[], (List.append_nil res).symm, by
      rw [Nat.sub_self]
      exact enumerates_firsts_zero xs S⟩
  rw [Nat.add_sub_cancel_left] at hnews
  exact ⟨news, hreturns, hnews⟩

/-! ## Bounds -/

/-- In a sorted list the first elements are the smallest ones. -/
theorem sum_take_le_of_sublist (hxs : xs.Pairwise (· ≤ ·)) (h : l.Sublist xs) : (xs.take l.length).sum ≤ l.sum := by
  induction xs generalizing l with
  | nil => rw [List.sublist_nil.1 h, List.take_nil]
  | cons a xs ih =>
    cases l with
    | nil => exact le_rfl
    | cons b l =>
      obtain ⟨ha, hxs⟩ := List.pairwise_cons.1 hxs
      have hle : a ≤ b := by
        rcases List.mem_cons.1 (h.subset List.mem_cons_self) with rfl | hb
        · exact le_rfl
        · exact ha b hb
      rw [List.length_cons, List.take_succ_cons, List.sum_cons, List.sum_cons]
      exact Int.add_le_add hle (ih hxs h.tail)

theorem sum_le_sum_drop_of_sublist (hxs : xs.Pairwise (· ≤ ·)) (h : l.Sublist xs) :
    l.sum ≤ (xs.drop (xs.length - l.length)).sum := by
  induction xs using List.reverseRecOn generalizing l with
  | nil => rw [List.sublist_nil.1 h, List.drop_nil]
  | append_singleton xs y ih =>
    rcases l.eq_nil_or_concat' with rfl | ⟨l, b, rfl⟩
    · rw [List.length_nil, Nat.sub_zero, List.drop_length]
    · obtain ⟨hxs, -, hy⟩ := List.pairwise_append.1 hxs
      have hle : b ≤ y := by
        rcases List.mem_append.1 (h.subset (List.mem_append_right l List.mem_cons_self)) with hb | hb
        · exact hy b hb y List.mem_cons_self
        · exact (List.mem_singleton.1 hb).le
      have hsub : l.Sublist xs := by
        have hreverse := h.reverse
        rw [List.reverse_concat', List.reverse_concat'] at hreverse
        exact List.reverse_sublist.1 hreverse.tail
      have hlen : (xs ++ [y]).length - (l ++ [b]).length = xs.length - l.length := by
        simp
      rw [hlen, List.drop_append_of_le_length (Nat.sub_le _ _), List.sum_append, List.sum_append,
        List.sum_singleton, List.sum_singleton]
      exact Int.add_le_add (ih hxs hsub) hle

/-- Nothing begins behind a place from where on the smallest elements are too great. -/
theorem cons_notMem_selections_of_lt (hxs : xs.Pairwise (· ≤ ·)) (ha : a ∉ xs.take k)
    (h : T < ((xs.drop k).take (n + 1)).sum) : a :: l ∉ Selections xs (n + 1) T := by
  rintro ⟨hsub, hlen, rfl⟩
  rw [← List.take_append_drop k xs, List.sublist_append_iff] at hsub
  obtain ⟨l₁, l₂, heq, h₁, h₂⟩ := hsub
  -- the selection has no element in front of the place
  have hl₁ : l₁ = [] := by
    refine List.eq_nil_iff_forall_not_mem.2 fun b hb => ha ?_
    match l₁, hb with
    | c :: l₁, _ => exact (List.cons_eq_cons.1 heq).1 ▸ h₁.subset List.mem_cons_self
  rw [hl₁, List.nil_append] at heq
  have hle := sum_take_le_of_sublist (hxs.sublist (List.drop_sublist k xs)) (heq ▸ h₂)
  rw [hlen] at hle
  exact absurd h (not_lt.2 hle)

/-- Nothing begins with an element that is too small even for the greatest ones. -/
theorem cons_notMem_selections_of_gt (hxs : xs.Pairwise (· ≤ ·)) (h : a + (xs.drop (xs.length - n)).sum < T) :
    a :: l ∉ Selections xs (n + 1) T := by
  rintro ⟨hsub, hlen, rfl⟩
  have hle := sum_le_sum_drop_of_sublist hxs (List.sublist_of_cons_sublist hsub)
  rw [List.length_cons, Nat.succ_inj] at hlen
  rw [hlen] at hle
  rw [List.sum_cons] at h
  omega

/-! ## Two elements -/

/-- Two elements with the sum `T`, in order. -/
def PairIn (T : ℤ) (w l : List ℤ) : Prop :=
  ∃ a b, l = [a, b] ∧ a + b = T ∧ (a < b ∧ a ∈ w ∧ b ∈ w ∨ a = b ∧ 2 ≤ w.count a)

theorem pair_sublist_iff (hw : w.Pairwise (· ≤ ·)) :
    [a, b].Sublist w ↔ a < b ∧ a ∈ w ∧ b ∈ w ∨ a = b ∧ 2 ≤ w.count a := by
  constructor
  · intro h
    have hle : a ≤ b := (List.pairwise_cons.1 (hw.sublist h)).1 b List.mem_cons_self
    rcases hle.lt_or_eq with hlt | rfl
    · exact Or.inl ⟨hlt, h.subset List.mem_cons_self, h.subset (List.mem_cons_of_mem a List.mem_cons_self)⟩
    · have hcount := h.count_le a
      rw [List.count_cons_self, List.count_cons_self, List.count_nil] at hcount
      exact Or.inr ⟨rfl, hcount⟩
  · rintro (⟨hlt, ha, hb⟩ | ⟨rfl, hcount⟩)
    · have hsubset : [a, b] ⊆ w := fun z hz => by
        rcases List.mem_pair.1 hz with rfl | rfl
        · exact ha
        · exact hb
      refine List.sublist_of_subperm_of_pairwise (List.subperm_of_subset ?_ hsubset) ?_ hw
      · exact List.nodup_cons.2 ⟨fun ha => hlt.ne (List.mem_singleton.1 ha), List.nodup_singleton b⟩
      · exact List.pairwise_pair.2 hlt.le
    · exact List.replicate_sublist_iff.2 hcount

theorem mem_selections_two_iff (hw : w.Pairwise (· ≤ ·)) : l ∈ Selections w 2 T ↔ PairIn T w l := by
  constructor
  · rintro ⟨hsub, hlen, hsum⟩
    obtain ⟨a, b, rfl⟩ := List.length_eq_two.1 hlen
    rw [List.sum_cons, List.sum_singleton] at hsum
    exact ⟨a, b, rfl, hsum, (pair_sublist_iff hw).1 hsub⟩
  · rintro ⟨a, b, rfl, hsum, hab⟩
    exact ⟨(pair_sublist_iff hw).2 hab, rfl, by rwa [List.sum_cons, List.sum_singleton]⟩

theorem PairIn.mono (h : PairIn T w' l) (hcount : ∀ z, w'.count z ≤ w.count z) : PairIn T w l := by
  have hmem : ∀ z ∈ w', z ∈ w := fun z hz => List.count_pos_iff.1 ((List.count_pos_iff.2 hz).trans_le (hcount z))
  obtain ⟨a, b, rfl, hsum, ⟨hlt, ha, hb⟩ | ⟨heq, htwo⟩⟩ := h
  · exact ⟨a, b, rfl, hsum, Or.inl ⟨hlt, hmem a ha, hmem b hb⟩⟩
  · exact ⟨a, b, rfl, hsum, Or.inr ⟨heq, htwo.trans (hcount a)⟩⟩

/-- An element whose mate is not there. -/
theorem pairIn_narrow (hcount : ∀ z, z ≠ e → w'.count z = w.count z) (he : w'.count e ≤ w.count e) (hmate : T - e ∉ w) :
    PairIn T w l ↔ PairIn T w' l := by
  have hmem : ∀ z, z ≠ e → z ∈ w → z ∈ w' := fun z hz hmem => by
    rwa [← List.count_pos_iff, hcount z hz, List.count_pos_iff]
  constructor
  · rintro ⟨a, b, rfl, hsum, hab⟩
    have hmate' : ∀ c d, c + d = T → d ∈ w → c ≠ e := by
      rintro c d rfl hd rfl
      exact hmate (by rwa [show c + d - c = d by omega])
    rcases hab with ⟨hlt, ha, hb⟩ | ⟨rfl, htwo⟩
    · have hae := hmate' a b hsum hb
      have hbe := hmate' b a ((Int.add_comm b a).trans hsum) ha
      exact ⟨a, b, rfl, hsum, Or.inl ⟨hlt, hmem a hae ha, hmem b hbe hb⟩⟩
    · have hae := hmate' a a hsum (List.count_pos_iff.1 (by omega))
      exact ⟨a, a, rfl, hsum, Or.inr ⟨rfl, by rwa [hcount a hae]⟩⟩
  · refine fun h => h.mono fun z => ?_
    by_cases hz : z = e
    · rwa [hz]
    · exact (hcount z hz).le

/-- Two elements that are mates. -/
theorem pairIn_both (hsum : x + y = T) (hxy : x < y ∧ x ∈ w ∧ y ∈ w ∨ x = y ∧ 2 ≤ w.count x) (hx : x ∉ w') (hy : y ∉ w')
    (hcount : ∀ z, z ≠ x → z ≠ y → w'.count z = w.count z) : PairIn T w l ↔ l = [x, y] ∨ PairIn T w' l := by
  have hmem : ∀ z, z ≠ x → z ≠ y → z ∈ w → z ∈ w' := fun z hzx hzy hmem => by
    rwa [← List.count_pos_iff, hcount z hzx hzy, List.count_pos_iff]
  constructor
  · rintro ⟨a, b, rfl, hab, h⟩
    by_cases hends : a = x ∨ a = y
    -- one of the ends is taken only with its mate
    · have hl : a = x ∧ b = y := by omega
      exact Or.inl (by rw [hl.1, hl.2])
    · rw [not_or] at hends
      refine Or.inr ⟨a, b, rfl, hab, ?_⟩
      rcases h with ⟨hlt, ha, hb⟩ | ⟨rfl, htwo⟩
      · exact Or.inl ⟨hlt, hmem a hends.1 hends.2 ha, hmem b (by omega) (by omega) hb⟩
      · exact Or.inr ⟨rfl, by rwa [hcount a hends.1 hends.2]⟩
  · rintro (rfl | h)
    · exact ⟨x, y, rfl, hsum, hxy⟩
    · refine h.mono fun z => ?_
      by_cases hzx : z = x
      · rw [hzx, List.count_eq_zero_of_not_mem hx]
        exact Nat.zero_le _
      · by_cases hzy : z = y
        · rw [hzy, List.count_eq_zero_of_not_mem hy]
          exact Nat.zero_le _
        · exact (hcount z hzx hzy).le

/-! ## A scan from both ends -/

/-- What a round finds in a window, and what is left to find in the next one. -/
inductive Finds (P : List ℤ → List ℤ → Prop) (w w' : List ℤ) : List (List ℤ) → Prop
  | nothing (h : ∀ l, P w l ↔ P w' l) : Finds P w w' []
  | one {l₀ : List ℤ} (hnew : ¬P w' l₀) (h : ∀ l, P w l ↔ l = l₀ ∨ P w' l) : Finds P w w' [l₀]

theorem PairIn.mem (h : PairIn T w [a, b]) : a ∈ w ∧ b ∈ w := by
  obtain ⟨_, _, heq, -, ⟨-, ha, hb⟩ | ⟨rfl, htwo⟩⟩ := h
  · cases heq
    exact ⟨ha, hb⟩
  · cases heq
    have hmem : a ∈ w := List.count_pos_iff.1 (Nat.lt_of_lt_of_le Nat.two_pos htwo)
    exact ⟨hmem, hmem⟩

theorem PairIn.two_le (h : PairIn T w l) : 2 ≤ w.length := by
  obtain ⟨a, b, rfl, -, ⟨hlt, ha, hb⟩ | ⟨-, htwo⟩⟩ := h
  · match w, ha, hb with
    | [c], ha, hb => exact absurd ((List.mem_singleton.1 ha).trans (List.mem_singleton.1 hb).symm) hlt.ne
    | _ :: _ :: w, _, _ => exact Nat.le_add_left 2 w.length
  · exact htwo.trans List.count_le_length

theorem pairIn_twice_iff : PairIn T w [a, a] ↔ a + a = T ∧ 2 ≤ w.count a := by
  constructor
  · rintro ⟨_, _, heq, hsum, ⟨hlt, -, -⟩ | ⟨rfl, htwo⟩⟩
    · cases heq
      exact absurd hlt (lt_irrefl a)
    · cases heq
      exact ⟨hsum, htwo⟩
  · rintro ⟨hsum, htwo⟩
    exact ⟨a, a, rfl, hsum, Or.inr ⟨rfl, htwo⟩⟩

section Ends

variable {m : List ℤ} {z : ℤ}

theorem ends_le (hw : (x :: (m ++ [y])).Pairwise (· ≤ ·)) (hz : z ∈ x :: (m ++ [y])) : x ≤ z ∧ z ≤ y := by
  obtain ⟨hx, hm⟩ := List.pairwise_cons.1 hw
  have hy := (List.pairwise_append.1 hm).2.2
  have hxy : x ≤ y := hx y (List.mem_append_right m List.mem_cons_self)
  rcases List.mem_cons.1 hz with rfl | hz
  · exact ⟨le_rfl, hxy⟩
  · refine ⟨hx z hz, ?_⟩
    rcases List.mem_append.1 hz with hz | hz
    · exact hy z hz y List.mem_cons_self
    · exact (List.mem_singleton.1 hz).le

/-- The sum of the ends is too small: the first one has no mate. -/
theorem finds_tail (hw : (x :: (m ++ [y])).Pairwise (· ≤ ·)) (hlt : x + y < T) :
    Finds (PairIn T) (x :: (m ++ [y])) (m ++ [y]) [] := by
  refine Finds.nothing fun l => pairIn_narrow (e := x) (fun z hz => ?_) List.count_le_count_cons fun hmate => ?_
  · rw [List.count_cons_of_ne hz.symm]
  · have hle := (ends_le hw hmate).2
    omega

/-- The sum is too great. -/
theorem finds_dropLast (hw : (x :: (m ++ [y])).Pairwise (· ≤ ·)) (hgt : T < x + y) :
    Finds (PairIn T) (x :: (m ++ [y])) (x :: m) [] := by
  have hcount : ∀ z, (x :: (m ++ [y])).count z = (x :: m).count z + [y].count z := fun z => by
    rw [← List.cons_append, List.count_append]
  refine Finds.nothing fun l => pairIn_narrow (e := y) (fun z hz => ?_) ?_ fun hmate => ?_
  · rw [hcount, List.count_singleton, if_neg (by simpa using hz.symm), Nat.add_zero]
  · rw [hcount]
    exact Nat.le_add_right _ _
  · have hle := (ends_le hw hmate).1
    omega

/-- The ends are mates, and so are no others that are equal to one of them. -/
theorem finds_between (hw : (x :: (m ++ [y])).Pairwise (· ≤ ·)) (heq : x + y = T) :
    Finds (PairIn T) (x :: (m ++ [y])) (between x y m) [[x, y]] := by
  have hcount : ∀ z, (x :: (m ++ [y])).count z = (x :: m).count z + [y].count z := fun z => by
    rw [← List.cons_append, List.count_append]
  have hx : x ∉ between x y m := fun h => (mem_between.1 h).2.1 rfl
  have hy : y ∉ between x y m := fun h => (mem_between.1 h).2.2 rfl
  refine Finds.one (fun h => hx h.mem.1) fun l => pairIn_both heq ?_ hx hy fun z hzx hzy => ?_
  · have hmem : y ∈ x :: (m ++ [y]) := by simp
    rcases (ends_le hw hmem).1.lt_or_eq with hlt | rfl
    · exact Or.inl ⟨hlt, List.mem_cons_self, hmem⟩
    · refine Or.inr ⟨rfl, ?_⟩
      rw [hcount, List.count_cons_self, List.count_singleton_self]
      exact Nat.succ_le_succ (Nat.le_add_left 1 _)
  · exact count_between_ends hzx hzy

end Ends

theorem loopM_finds {ε : Type} {P : List ℤ → List ℤ → Prop} (fix : List ℤ → List ℤ)
    {round : ℕ → ℤ × ℤ × List (List ℤ) → ExceptT ε Option (Round (ℤ × ℤ × List (List ℤ)) (List (List ℤ)))}
    (hshort : ∀ w left right res, Window xs left right w → w.length < 2 →
      Returns (fun fuel => round fuel (left, right, res)) (.ok (.leave res)) ∧ ∀ l, ¬P w l)
    (hround : ∀ w left right res, Window xs left right w → 2 ≤ w.length → w.Pairwise (· ≤ ·) →
      ∃ left' right' w' new, Returns (fun fuel => round fuel (left, right, res))
        (.ok (.again (left', right', res ++ new.map fix))) ∧ Window xs left' right' w' ∧ w'.Sublist w ∧
          w'.length < w.length ∧ Finds P w w' new)
    {left right : ℤ} (res : List (List ℤ)) (hwindow : Window xs left right w) (hw : w.Pairwise (· ≤ ·)) :
    ∃ news, Returns (fun fuel => loopM round fuel (left, right, res)) (.ok (res ++ news.map fix)) ∧
      Enumerates news {l | P w l} := by
  induction hlen : w.length using Nat.strong_induction_on generalizing w left right res with
  | _ n ih =>
    rcases Nat.lt_or_ge w.length 2 with hlt | hge
    · obtain ⟨hleave, hnone⟩ := hshort w left right res hwindow hlt
      refine ⟨[], ?_, Enumerates.nil hnone⟩
      rw [List.map_nil, List.append_nil]
      exact Returns.loopM_leave hleave
    · obtain ⟨left', right', w', new, hagain, hwindow', hsub, hless, hfinds⟩ := hround w left right res hwindow hge hw
      obtain ⟨news, hnews, henum⟩ := ih w'.length (hlen ▸ hless) (res ++ new.map fix) hwindow' (hw.sublist hsub) rfl
      refine ⟨new ++ news, ?_, ?_⟩
      · rw [List.map_append, ← List.append_assoc]
        exact Returns.loopM_again hagain hnews
      · cases hfinds with
        | nothing h => exact henum.congr h
        | one hnew h => exact (henum.cons hnew).congr h

end GoodGoodStudy.Lib
