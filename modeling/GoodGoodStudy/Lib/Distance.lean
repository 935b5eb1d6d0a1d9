/-
Breadth-first search for the distance of two nodes of a graph, one level after the other. A level holds the nodes at
its distance from the start, and maybe nearer ones; the nodes of the next level are looked up among those that were not
found before. A search from one side ends at the level of the goal. Searches from both sides meet when a node of the one
level is next to a node of the other, and then the distance is known.
-/
import Mathlib.Combinatorics.SimpleGraph.Metric

namespace GoodGoodStudy.Lib

variable {V : Type*} {G : SimpleGraph V} {p q u v : V} {a b : ℕ} {words front back next : Set V}

/-! ## Distances -/

theorem edist_le_add_one (h : G.edist p u ≤ a) (hadj : G.Adj u v) : G.edist p v ≤ (a + 1 : ℕ) := by
  calc G.edist p v ≤ G.edist p u + G.edist u v := SimpleGraph.edist_triangle
    _ ≤ a + 1 := add_le_add h (SimpleGraph.edist_eq_one_iff_adj.2 hadj).le
    _ = (a + 1 : ℕ) := (Nat.cast_add_one a).symm

/-- A node on a shortest walk. -/
theorem exists_edist_eq_of_add (h : G.edist p q = (a + b : ℕ)) : ∃ u, G.edist p u = a ∧ G.edist u q = b := by
  obtain ⟨w, hw⟩ := SimpleGraph.exists_walk_of_edist_eq_coe h
  have hpu : G.edist p (w.getVert a) ≤ a := by
    refine (SimpleGraph.edist_le (w.take a)).trans ?_
    rw [SimpleGraph.Walk.take_length]
    exact Nat.cast_le.2 inf_le_left
  have huq : G.edist (w.getVert a) q ≤ b := by
    refine (SimpleGraph.edist_le (w.drop a)).trans ?_
    rw [SimpleGraph.Walk.drop_length, hw, Nat.add_sub_cancel_left]
  obtain ⟨k, hk⟩ := ENat.ne_top_iff_exists.1 (ne_top_of_le_ne_top (ENat.natCast_ne_top a) hpu)
  obtain ⟨l, hl⟩ := ENat.ne_top_iff_exists.1 (ne_top_of_le_ne_top (ENat.natCast_ne_top b) huq)
  have hle : (a + b : ℕ) ≤ (k : ℕ∞) + l := h ▸ hk ▸ hl ▸ SimpleGraph.edist_triangle
  rw [← hk] at hpu
  rw [← hl] at huq
  norm_cast at hpu huq hle
  refine ⟨w.getVert a, ?_, ?_⟩
  · rw [← hk]
    exact congrArg Nat.cast (by omega)
  · rw [← hl]
    exact congrArg Nat.cast (by omega)

theorem exists_adj_of_edist_eq (h : G.edist p v = (a + 1 : ℕ)) : ∃ u, G.edist p u = a ∧ G.Adj u v := by
  obtain ⟨u, hu, hadj⟩ := exists_edist_eq_of_add h
  exact ⟨u, hu, SimpleGraph.edist_eq_one_iff_adj.1 (by exact_mod_cast hadj)⟩

/-! ## Tracks -/

/-- The nodes of a walk from `p` to `q`. -/
structure IsTrack (G : SimpleGraph V) (p q : V) (l : List V) : Prop where
  head : l.head? = some p
  last : l.getLast? = some q
  chain : l.IsChain G.Adj

theorem IsTrack.edist_add_one_le {l : List V} (h : IsTrack G p q l) : G.edist p q + 1 ≤ l.length := by
  have hne : l ≠ [] := by
    rintro rfl
    exact Option.some_ne_none p h.head.symm
  obtain ⟨w, hw⟩ : ∃ w : G.Walk p q, w.length + 1 = l.length := by
    have hhead : l.head hne = p := Option.some_injective _ ((List.head?_eq_some_head hne).symm.trans h.head)
    have hlast : l.getLast hne = q := Option.some_injective _ ((List.getLast?_eq_some_getLast hne).symm.trans h.last)
    subst hhead hlast
    refine ⟨SimpleGraph.Walk.ofSupport l hne h.chain, ?_⟩
    rw [SimpleGraph.Walk.length_ofSupport]
    exact Nat.sub_add_cancel (List.length_pos_iff.2 hne)
  rw [← hw, Nat.cast_add_one]
  exact add_le_add_left (SimpleGraph.edist_le w) 1

theorem exists_adj_of_isChain : ∀ {l : List V}, l.IsChain G.Adj → ∀ v ∈ l.tail, ∃ u, G.Adj u v
  | [], _, v, hv => absurd hv List.not_mem_nil
  | [_], _, v, hv => absurd hv List.not_mem_nil
  | u :: w :: l, h, v, hv => by
    obtain ⟨hadj, h⟩ := List.isChain_cons_cons.1 h
    rcases List.mem_cons.1 hv with rfl | hv
    · exact ⟨u, hadj⟩
    · exact exists_adj_of_isChain h v hv

/-- A shortest track passes no node twice. -/
theorem exists_track (h : G.edist p q = a) : ∃ l, IsTrack G p q l ∧ l.Nodup ∧ l.length = a + 1 := by
  obtain ⟨w, hw⟩ := SimpleGraph.exists_walk_of_edist_eq_coe h
  have hdist : w.length = G.dist p q := by rw [SimpleGraph.dist, h, hw, ENat.toNat_natCast]
  refine ⟨w.support, ⟨?_, ?_, w.isChain_adj_support⟩, (w.isPath_of_length_eq_dist hdist).support_nodup, ?_⟩
  · rw [List.head?_eq_some_head w.support_ne_nil, w.head_support]
  · rw [List.getLast?_eq_some_getLast w.support_ne_nil, w.getLast_support]
  · rw [w.length_support, hw]

/-! ## Levels -/

/-- The nodes at distance `a` from `p`, and maybe nearer ones. -/
structure Level (G : SimpleGraph V) (p : V) (a : ℕ) (front : Set V) : Prop where
  near : ∀ v ∈ front, G.edist p v ≤ a
  all : ∀ v, G.edist p v = a → v ∈ front

/-- The words next to a level, and maybe words of the level itself. -/
structure IsNext (G : SimpleGraph V) (words front next : Set V) : Prop where
  near : ∀ v ∈ next, ∃ u ∈ front, u = v ∨ G.Adj u v
  all : ∀ u ∈ front, ∀ v ∈ words, G.Adj u v → v ∈ next

namespace Level

theorem zero (G : SimpleGraph V) (p : V) : Level G p 0 {p} where
  near v hv := by rw [Set.mem_singleton_iff.1 hv, SimpleGraph.edist_self, Nat.cast_zero]
  all v hv := (SimpleGraph.edist_eq_zero_iff.1 hv).symm

theorem succ (h : Level G p a front) (hnext : IsNext G words front next)
    (hwords : ∀ v, G.edist p v = (a + 1 : ℕ) → v ∈ words) : Level G p (a + 1) next where
  near v hv := by
    obtain ⟨u, hu, rfl | hadj⟩ := hnext.near v hv
    · exact (h.near u hu).trans (Nat.cast_le.2 a.le_succ)
    · exact edist_le_add_one (h.near u hu) hadj
  all v hv := by
    obtain ⟨u, hu, hadj⟩ := exists_adj_of_edist_eq hv
    exact hnext.all u (h.all u hu) v (hwords v hv) hadj

/-- Found are the nodes of the next level, and those that were found before. -/
theorem found (h : Level G p (a + 1) next) (hv : v ∈ words ∨ G.edist p v ≤ a) :
    v ∈ words \ next ∨ G.edist p v ≤ (a + 1 : ℕ) := by
  rcases hv with hmem | hle
  · by_cases hnext : v ∈ next
    · exact Or.inr (h.near v hnext)
    · exact Or.inl ⟨hmem, hnext⟩
  · exact Or.inr (hle.trans (Nat.cast_le.2 a.le_succ))

/-- Behind an empty level there is nothing. -/
theorem edist_eq_top (h : Level G p a ∅) (hle : (a : ℕ∞) ≤ G.edist p v) : G.edist p v = ⊤ := by
  by_contra htop
  obtain ⟨k, hk⟩ := ENat.ne_top_iff_exists.1 htop
  rw [← hk, Nat.cast_le] at hle
  obtain ⟨u, hu, -⟩ := exists_edist_eq_of_add (a := a) (b := k - a) (by rw [← hk, Nat.add_sub_cancel' hle])
  exact h.all u hu

end Level

/-! ## From one side -/

/-- The level, and what is not found yet. -/
structure OneSided (G : SimpleGraph V) (p : V) (words : Set V) (a : ℕ) (front : Set V) : Prop where
  level : Level G p a front
  rest : ∀ u v, G.Adj u v → v ∈ words ∨ G.edist p v ≤ a

theorem OneSided.succ (h : OneSided G p words a front) (hnext : IsNext G words front next) :
    OneSided G p (words \ next) (a + 1) next := by
  have hlevel : Level G p (a + 1) next := by
    refine h.level.succ hnext fun v hv => ?_
    obtain ⟨u, -, hadj⟩ := exists_adj_of_edist_eq hv
    rcases h.rest u v hadj with hmem | hle
    · exact hmem
    · rw [hv, Nat.cast_le] at hle
      omega
  exact ⟨hlevel, fun u v hadj => hlevel.found (h.rest u v hadj)⟩

/-- A search with a queue: the nodes of a level are looked at one after the other. Found so far are words behind those
that were looked at, and the goal is not among these. -/
structure Queued (G : SimpleGraph V) (p goal : V) (words : Set V) (a : ℕ) (done ahead found : List V) : Prop where
  search : OneSided G p words a {v | v ∈ done ++ ahead}
  follows : IsNext G words {v | v ∈ done} {v | v ∈ found}
  fresh : goal ∉ done
  far : a ≤ G.edist p goal

namespace Queued

variable {goal x : V} {done ahead found : List V}

theorem init (goal : V) (hrest : ∀ u v, G.Adj u v → v ∈ words ∨ v = p) : Queued G p goal words 0 [] [p] [] where
  search :=
    { level := by
        rw [show {v | v ∈ [] ++ [p]} = {p} from Set.ext fun v => List.mem_singleton]
        exact Level.zero G p
      rest := fun u v hadj => (hrest u v hadj).imp_right fun hv => (Level.zero G p).near v hv }
  follows := ⟨nofun, nofun⟩
  fresh := nofun
  far := zero_le

theorem look (h : Queued G p goal words a done (x :: ahead) found) (hx : x ≠ goal) {new : List V}
    (hnear : ∀ v ∈ new, x = v ∨ G.Adj x v) (hall : ∀ v ∈ words, v ∉ found → G.Adj x v → v ∈ new) :
    Queued G p goal words a (done ++ [x]) ahead (found ++ new) where
  search := by
    rw [List.append_assoc]
    exact h.search
  follows :=
    { near := fun v hv => by
        rcases List.mem_append.1 hv with hv | hv
        · obtain ⟨u, hu, hadj⟩ := h.follows.near v hv
          exact ⟨u, List.mem_append_left _ hu, hadj⟩
        · exact ⟨x, List.mem_append_right done List.mem_cons_self, hnear v hv⟩
      all := fun u hu v hv hadj => by
        by_cases hfound : v ∈ found
        · exact List.mem_append_left _ hfound
        rcases List.mem_append.1 hu with hu | hu
        · exact absurd (h.follows.all u hu v hv hadj) hfound
        · obtain rfl := List.mem_singleton.1 hu
          exact List.mem_append_right _ (hall v hv hfound hadj) }
  fresh hmem := by
    rcases List.mem_append.1 hmem with hmem | hmem
    · exact h.fresh hmem
    · exact hx (List.mem_singleton.1 hmem).symm
  far := h.far

/-- The level is through, and the next one comes. -/
theorem turn (h : Queued G p goal words a done [] found) :
    Queued G p goal (words \ {v | v ∈ found}) (a + 1) [] found [] where
  search := h.search.succ (by
    rw [List.append_nil]
    exact h.follows)
  follows := ⟨nofun, nofun⟩
  fresh := nofun
  far := by
    have hne : (a : ℕ∞) ≠ G.edist p goal := by
      intro heq
      have hmem := h.search.level.all goal heq.symm
      rw [List.append_nil] at hmem
      exact h.fresh hmem
    rw [Nat.cast_add_one]
    exact Order.add_one_le_of_lt (lt_of_le_of_ne h.far hne)

theorem edist_eq (h : Queued G p goal words a done (goal :: ahead) found) : G.edist p goal = a :=
  le_antisymm (h.search.level.near goal (List.mem_append_right done List.mem_cons_self)) h.far

theorem edist_eq_top (h : Queued G p goal words a done [] []) : G.edist p goal = ⊤ := by
  have hlevel := h.turn.search.level
  rw [show {v : V | v ∈ [] ++ []} = ∅ from Set.eq_empty_of_forall_notMem fun v => List.not_mem_nil] at hlevel
  exact hlevel.edist_eq_top h.turn.far

end Queued

/-! ## From both sides -/

/-- The levels of both sides, and what is not found yet. The sides did not meet. -/
structure TwoSided (G : SimpleGraph V) (p q : V) (words : Set V) (a : ℕ) (front : Set V) (b : ℕ) (back : Set V) :
    Prop where
  front : Level G p a front
  back : Level G q b back
  apart : (a + b : ℕ) < G.edist p q
  rest : ∀ u v, G.Adj u v → v ∈ words ∨ G.edist p v ≤ a ∨ G.edist q v ≤ b

/-- Some node of the one level is next to a node of the other. -/
def Meet (G : SimpleGraph V) (front back : Set V) : Prop := ∃ u ∈ front, ∃ v ∈ back, G.Adj u v

namespace TwoSided

theorem init (h : p ≠ q) (hrest : ∀ u v, G.Adj u v → v ∈ words ∨ v = p) : TwoSided G p q words 0 {p} 0 {q} where
  front := Level.zero G p
  back := Level.zero G q
  apart := SimpleGraph.edist_pos_of_ne h
  rest u v hadj := by
    rcases hrest u v hadj with hv | rfl
    · exact Or.inl hv
    · exact Or.inr (Or.inl ((Level.zero G v).near v rfl))

theorem swap (h : TwoSided G p q words a front b back) : TwoSided G q p words b back a front where
  front := h.back
  back := h.front
  apart := by
    rw [SimpleGraph.edist_comm, Nat.add_comm]
    exact h.apart
  rest u v hadj := (h.rest u v hadj).imp_right Or.symm

/-- The sides meet in the middle of a shortest walk, and of no other. -/
theorem meet_iff (h : TwoSided G p q words a front b back) : Meet G front back ↔ G.edist p q = (a + b + 1 : ℕ) := by
  constructor
  · rintro ⟨u, hu, v, hv, hadj⟩
    refine le_antisymm ?_ ?_
    · calc G.edist p q ≤ G.edist p v + G.edist v q := SimpleGraph.edist_triangle
        _ ≤ (a + 1 : ℕ) + b := add_le_add (edist_le_add_one (h.front.near u hu) hadj)
            (SimpleGraph.edist_comm.le.trans (h.back.near v hv))
        _ = (a + b + 1 : ℕ) := by rw [← Nat.cast_add, Nat.add_right_comm]
    · rw [Nat.cast_add_one]
      exact Order.add_one_le_of_lt h.apart
  · intro heq
    rw [Nat.add_assoc, Nat.add_comm b] at heq
    obtain ⟨u, hu, huq⟩ := exists_edist_eq_of_add heq
    obtain ⟨v, hadj, hv⟩ := exists_edist_eq_of_add huq
    refine ⟨u, h.front.all u hu, v, h.back.all v (SimpleGraph.edist_comm.trans hv), ?_⟩
    exact SimpleGraph.edist_eq_one_iff_adj.1 (by exact_mod_cast hadj)

/-- One more level on the one side. -/
theorem succ (h : TwoSided G p q words a front b back) (hmeet : ¬ Meet G front back)
    (hnext : IsNext G words front next) : TwoSided G p q (words \ next) (a + 1) next b back := by
  have hapart : (a + b + 1 : ℕ) < G.edist p q := by
    refine lt_of_le_of_ne ?_ (Ne.symm (mt h.meet_iff.2 hmeet))
    rw [Nat.cast_add_one]
    exact Order.add_one_le_of_lt h.apart
  have hlevel : Level G p (a + 1) next := by
    refine h.front.succ hnext fun v hv => ?_
    obtain ⟨u, -, hadj⟩ := exists_adj_of_edist_eq hv
    rcases h.rest u v hadj with hmem | hle | hle
    · exact hmem
    · rw [hv, Nat.cast_le] at hle
      omega
    · have htri : G.edist p q ≤ (a + 1 : ℕ) + b := by
        refine SimpleGraph.edist_triangle.trans (add_le_add hv.le ?_)
        exact SimpleGraph.edist_comm.le.trans hle
      rw [← Nat.cast_add, Nat.add_right_comm] at htri
      exact absurd htri (not_le_of_gt hapart)
  refine ⟨hlevel, h.back, by rwa [Nat.add_right_comm], fun u v hadj => ?_⟩
  rcases or_assoc.2 (h.rest u v hadj) with hfound | hle
  · exact or_assoc.1 (Or.inl (hlevel.found hfound))
  · exact Or.inr (Or.inr hle)

end TwoSided

end GoodGoodStudy.Lib
