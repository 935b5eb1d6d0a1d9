/-
The routes between two places, as lists of the places passed, and how many there are: a route is its first place and a
route from one of the next ones, and read backwards it is a route of the steps backwards.
-/
import Mathlib.Algebra.BigOperators.Finprod
import Mathlib.Data.Fintype.List
import Mathlib.Data.List.Chain
import Mathlib.Data.Set.Card.Arithmetic

namespace GoodGoodStudy.Lib

variable {γ : Type*} {step : γ → γ → Prop} {free : γ → Prop} {p q : γ} {l : List γ}

/-- From `p` to `q` by steps, through free places only. -/
def Routes (step : γ → γ → Prop) (free : γ → Prop) (p q : γ) : Set (List γ) :=
  {l | l.head? = some p ∧ l.getLast? = some q ∧ l.IsChain step ∧ ∀ x ∈ l, free x}

/-- The first place, and the way from the second one. -/
theorem mem_routes_iff : l ∈ Routes step free p q ↔
    free p ∧ (p = q ∧ l = [p] ∨ ∃ p', step p p' ∧ l ∈ List.cons p '' Routes step free p' q) := by
  constructor
  · rintro ⟨hhead, hlast, hchain, hfree⟩
    match l, hhead with
    | [_], rfl => exact ⟨hfree p List.mem_cons_self, Or.inl ⟨Option.some.inj hlast, rfl⟩⟩
    | _ :: a :: l, rfl =>
      obtain ⟨hstep, hchain⟩ := List.isChain_cons_cons.1 hchain
      refine ⟨hfree p List.mem_cons_self, Or.inr ⟨a, hstep, a :: l, ⟨rfl, ?_, hchain, fun x hx => ?_⟩, rfl⟩⟩
      · rwa [List.getLast?_cons_cons] at hlast
      · exact hfree x (List.mem_cons_of_mem p hx)
  · rintro ⟨hp, ⟨rfl, rfl⟩ | ⟨p', hstep, l, ⟨hhead, hlast, hchain, hfree⟩, rfl⟩⟩
    · exact ⟨rfl, rfl, .singleton p, fun x hx => List.mem_singleton.1 hx ▸ hp⟩
    · match l, hhead with
      | _ :: l, rfl =>
        refine ⟨rfl, by rwa [List.getLast?_cons_cons], List.isChain_cons_cons.2 ⟨hstep, hchain⟩, fun x hx => ?_⟩
        rcases List.mem_cons.1 hx with rfl | hx
        · exact hp
        · exact hfree x hx

theorem routes_eq_empty (hp : ¬free p) : Routes step free p q = ∅ :=
  Set.eq_empty_of_forall_notMem fun _ hl => hp (mem_routes_iff.1 hl).1

theorem routes_eq_empty_of_last (hq : ¬free q) : Routes step free p q = ∅ :=
  Set.eq_empty_of_forall_notMem fun _ hl => hq (hl.2.2.2 q (List.mem_of_getLast? hl.2.1))

theorem routes_self (hp : free p) (hend : ∀ x, ¬step p x) : Routes step free p p = {[p]} := by
  ext l
  rw [mem_routes_iff, Set.mem_singleton_iff]
  constructor
  · rintro ⟨-, ⟨-, hl⟩ | ⟨x, hx, -⟩⟩
    · exact hl
    · exact absurd hx (hend x)
  · exact fun hl => ⟨hp, Or.inl ⟨rfl, hl⟩⟩

theorem routes_reverse : List.reverse '' Routes step free p q = Routes (flip step) free q p := by
  have hreverse : ∀ {step : γ → γ → Prop} {p q : γ} {l : List γ}, l ∈ Routes step free p q →
      l.reverse ∈ Routes (flip step) free q p := by
    rintro step p q l ⟨hhead, hlast, hchain, hfree⟩
    refine ⟨by rwa [List.head?_reverse], by rwa [List.getLast?_reverse], List.isChain_reverse.2 hchain, fun x hx => ?_⟩
    exact hfree x (List.mem_reverse.1 hx)
  ext l
  constructor
  · rintro ⟨l, hl, rfl⟩
    exact hreverse hl
  · exact fun hl => ⟨l.reverse, hreverse hl, List.reverse_reverse l⟩

theorem ncard_routes_flip (step : γ → γ → Prop) (free : γ → Prop) (p q : γ) :
    (Routes (flip step) free q p).ncard = (Routes step free p q).ncard := by
  rw [← routes_reverse]
  exact Set.ncard_image_of_injective _ List.reverse_injective

section Rank

variable [Finite γ] {rank : γ → ℕ}

/-- There are finitely many routes if every step leads on. -/
theorem finite_routes (hrank : ∀ x y, step x y → rank x < rank y) (p q : γ) : (Routes step free p q).Finite := by
  have hnodup : {l : List γ | l.Nodup}.Finite := by
    cases nonempty_fintype γ
    classical
    exact Set.finite_coe_iff.1 (Finite.of_fintype {l : List γ // l.Nodup})
  refine hnodup.subset fun l hl => ?_
  have hchain : l.IsChain fun x y => rank x < rank y := hl.2.2.1.imp fun x y => hrank x y
  have hpairwise : (l.map rank).Pairwise (· < ·) := ((List.isChain_map rank).2 hchain).pairwise
  exact (List.pairwise_map.1 hpairwise).imp fun hlt heq => hlt.ne (congrArg rank heq)

/-- The routes from the next places together. -/
theorem ncard_routes (hrank : ∀ x y, step x y → rank x < rank y) (hp : free p) (hne : p ≠ q) {next : Finset γ}
    (hnext : ∀ x, x ∈ next ↔ step p x) :
    (Routes step free p q).ncard = ∑ x ∈ next, (Routes step free x q).ncard := by
  -- the next place is the first one of the rest, so that no route is counted twice
  have hunion : Routes step free p q = ⋃ x ∈ (next : Set γ), List.cons p '' Routes step free x q := by
    ext l
    rw [mem_routes_iff, Set.mem_iUnion₂]
    constructor
    · rintro ⟨-, ⟨heq, -⟩ | ⟨x, hx, hl⟩⟩
      · exact absurd heq hne
      · exact ⟨x, (hnext x).2 hx, hl⟩
    · rintro ⟨x, hx, hl⟩
      exact ⟨hp, Or.inr ⟨x, (hnext x).1 hx, hl⟩⟩
  have hdisjoint : (next : Set γ).PairwiseDisjoint fun x => List.cons p '' Routes step free x q := by
    intro x _ y _ hxy
    refine Set.disjoint_left.2 ?_
    rintro _ ⟨l, hl, rfl⟩ ⟨l', hl', heq⟩
    obtain rfl := List.cons_injective heq
    exact hxy (Option.some.inj (hl.1.symm.trans hl'.1))
  rw [hunion, next.finite_toSet.ncard_biUnion (fun x _ => (finite_routes hrank x q).image _) hdisjoint,
    finsum_mem_coe_finset]
  exact Finset.sum_congr rfl fun x _ => Set.ncard_image_of_injective _ List.cons_injective

theorem ncard_routes_one (hrank : ∀ x y, step x y → rank x < rank y) (hend : ∀ x, ¬step q x) (hp : free p) {a : γ}
    (ha : ∀ x, x = a ↔ step p x) : (Routes step free p q).ncard = (Routes step free a q).ncard := by
  have hne : p ≠ q := by
    rintro rfl
    exact hend a ((ha a).1 rfl)
  have hnext : ∀ x, x ∈ ({a} : Finset γ) ↔ step p x := fun x => Finset.mem_singleton.trans (ha x)
  rw [ncard_routes hrank hp hne hnext, Finset.sum_singleton]

theorem ncard_routes_two (hrank : ∀ x y, step x y → rank x < rank y) (hend : ∀ x, ¬step q x) (hp : free p) {a b : γ}
    (hab : a ≠ b) (hnext : ∀ x, x = a ∨ x = b ↔ step p x) :
    (Routes step free p q).ncard = (Routes step free a q).ncard + (Routes step free b q).ncard := by
  classical
  have hne : p ≠ q := by
    rintro rfl
    exact hend a ((hnext a).1 (Or.inl rfl))
  have hmem : ∀ x, x ∈ ({a, b} : Finset γ) ↔ step p x := fun x => by
    rw [Finset.mem_insert, Finset.mem_singleton, hnext]
  rw [ncard_routes hrank hp hne hmem, Finset.sum_pair hab]

/-- Where there is only one way on, there is no route exactly if a place on it is not free. -/
theorem ncard_routes_line (hrank : ∀ x y, step x y → rank x < rank y) (hend : ∀ x, ¬step q x) {line : List γ}
    (hhead : line.head? = some p) (hlast : line.getLast? = some q)
    (hline : line.IsChain fun a b => ∀ x, x = b ↔ step a x) :
    (Routes step free p q).ncard = 0 ↔ ∃ x ∈ line, ¬free x := by
  induction line generalizing p with
  | nil => cases hhead
  | cons a line ih =>
    obtain rfl := Option.some.inj hhead
    by_cases ha : free a
    · cases line with
      | nil =>
        obtain rfl : a = q := Option.some.inj hlast
        rw [routes_self ha hend, Set.ncard_singleton]
        simpa using ha
      | cons b line =>
        obtain ⟨hb, hline⟩ := List.isChain_cons_cons.1 hline
        rw [List.getLast?_cons_cons] at hlast
        rw [ncard_routes_one hrank hend ha hb, ih rfl hlast hline, List.exists_mem_cons_iff _ a,
          or_iff_right (not_not.2 ha)]
    · rw [routes_eq_empty ha, Set.ncard_empty]
      exact iff_of_true rfl ⟨a, List.mem_cons_self, ha⟩

theorem ncard_routes_fin (hrank : ∀ x y, step x y → rank x < rank y) (hend : ∀ x, ¬step q x) {k : ℕ}
    (line : Fin (k + 1) → γ) (hp : line 0 = p) (hq : line (Fin.last k) = q)
    (hline : ∀ i j : Fin (k + 1), (j : ℕ) = i + 1 → ∀ x, x = line j ↔ step (line i) x) :
    (Routes step free p q).ncard = 0 ↔ ∃ i, ¬free (line i) := by
  have hhead : ((List.finRange (k + 1)).map line).head? = some p := by
    rw [List.finRange_succ, List.map_cons, hp]
    rfl
  have hlast : ((List.finRange (k + 1)).map line).getLast? = some q := by
    rw [List.finRange_succ_last, List.map_append, List.map_singleton, hq, List.getLast?_concat]
  have hchain : ((List.finRange (k + 1)).map line).IsChain fun a b => ∀ x, x = b ↔ step a x :=
    (List.isChain_map line).2 (List.isChain_iff_getElem.2 fun i hi => hline _ _ (by simp))
  rw [ncard_routes_line hrank hend hhead hlast hchain]
  simp

end Rank

end GoodGoodStudy.Lib
