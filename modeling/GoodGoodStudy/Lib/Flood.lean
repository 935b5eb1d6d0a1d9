/-
Flooding a part of a graph: from a set of starts, all that can be reached inside an open set is taken out of it. A
search that does so keeps a set of nodes it still has to look at; `Flooding` is its invariant, and when nothing is
left to look at, the nodes taken out are exactly the reachable ones.
-/
import Mathlib.Data.Set.Card
import Mathlib.Data.Set.Insert
import Mathlib.Order.BooleanAlgebra.Set
import Mathlib.Logic.Relation

namespace GoodGoodStudy.Lib

variable {α : Type*}

/-- An edge inside a set. -/
def EdgeIn (adj : α → α → Prop) (U : Set α) (a b : α) : Prop := a ∈ U ∧ b ∈ U ∧ adj a b

/-- What can be reached from the starts in `U` along edges inside `U`. -/
def Reach (adj : α → α → Prop) (U S : Set α) (q : α) : Prop :=
  ∃ p ∈ S, p ∈ U ∧ Relation.ReflTransGen (EdgeIn adj U) p q

/-- `V` is what a search from `S` has left of `U`, and `Q` is what it still has to look at. -/
structure Flooding (adj : α → α → Prop) (U S V Q : Set α) : Prop where
  sub : V ⊆ U
  starts : ∀ p ∈ S, p ∈ V → p ∈ Q
  reached : ∀ q ∈ U, q ∉ V → Reach adj U S q
  pending : ∀ q ∈ Q, Reach adj U S q
  closed : ∀ q ∈ U, q ∉ V → ∀ q' ∈ V, adj q q' → q' ∈ Q

/-- A search that has come to its end. -/
def Flood (adj : α → α → Prop) (U S V : Set α) : Prop := Flooding adj U S V ∅

variable {adj : α → α → Prop} {U V W S T Q : Set α}

theorem Reach.start {p : α} (hS : p ∈ S) (hU : p ∈ U) : Reach adj U S p := ⟨p, hS, hU, .refl⟩

theorem Reach.mem {q : α} (h : Reach adj U S q) : q ∈ U := by
  obtain ⟨p, -, hU, hpath⟩ := h
  cases hpath with
  | refl => exact hU
  | tail _ hlast => exact hlast.2.1

theorem Reach.edge {q q' : α} (h : Reach adj U S q) (hU : q' ∈ U) (hadj : adj q q') : Reach adj U S q' := by
  have hq := Reach.mem h
  obtain ⟨p, hS, hp, hpath⟩ := h
  exact ⟨p, hS, hp, hpath.tail ⟨hq, hU, hadj⟩⟩

theorem Reach.mono (hU : V ⊆ U) (hS : S ⊆ T) {q : α} (h : Reach adj V S q) : Reach adj U T q := by
  obtain ⟨p, hp, hpU, hpath⟩ := h
  exact ⟨p, hS hp, hU hpU, Relation.ReflTransGen.mono (fun a b hab => ⟨hU hab.1, hU hab.2.1, hab.2.2⟩) _ _ hpath⟩

/-- Reaching on from what was reached. -/
theorem Reach.trans (h : ∀ p ∈ S, p ∈ U → Reach adj U T p) {q : α} (hq : Reach adj U S q) : Reach adj U T q := by
  obtain ⟨p, hp, hpU, hpath⟩ := hq
  obtain ⟨s, hs, hsU, hpath'⟩ := h p hp hpU
  exact ⟨s, hs, hsU, hpath'.trans hpath⟩

namespace Flooding

theorem init (hQ : ∀ p, p ∈ Q ↔ p ∈ S ∧ p ∈ U) : Flooding adj U S U Q where
  sub := Set.Subset.refl U
  starts p hS hU := (hQ p).2 ⟨hS, hU⟩
  reached _ hU hnot := absurd hU hnot
  pending p hp := Reach.start ((hQ p).1 hp).1 ((hQ p).1 hp).2
  closed _ hU hnot := absurd hU hnot

/-- A node that the search has to look at is taken out, and its neighbours are to be looked at. -/
theorem look (h : Flooding adj U S V Q) {x : α} (hx : x ∈ Q) {Q' : Set α}
    (hQ : ∀ y ∈ Q, y = x ∨ y ∈ Q') (hQ' : ∀ y ∈ Q', y ∈ Q ∨ (y ∈ V ∧ adj x y))
    (hnew : ∀ y ∈ V, y ≠ x → adj x y → y ∈ Q') : Flooding adj U S (V \ {x}) Q' where
  sub := fun _ hy => h.sub hy.1
  starts p hS hp := (hQ p (h.starts p hS hp.1)).resolve_left hp.2
  reached q hU hnot := by
    by_cases hqx : q = x
    · exact hqx ▸ h.pending x hx
    · exact h.reached q hU fun hq => hnot ⟨hq, hqx⟩
  pending q hq := by
    rcases hQ' q hq with hq | ⟨hU, hadj⟩
    · exact h.pending q hq
    · exact (h.pending x hx).edge (h.sub hU) hadj
  closed q hU hnot q' hq' hadj := by
    by_cases hqx : q = x
    · exact hnew q' hq'.1 hq'.2 (hqx ▸ hadj)
    · exact (hQ q' (h.closed q hU (fun hq => hnot ⟨hq, hqx⟩) q' hq'.1 hadj)).resolve_left hq'.2

end Flooding

namespace Flood

theorem refl (h : ∀ p ∈ S, p ∉ U) : Flood adj U S U :=
  Flooding.init fun p => ⟨False.elim, fun hp => h p hp.1 hp.2⟩

/-- One search after the other. -/
theorem trans (h : Flood adj U S V) (h' : Flood adj V T W) : Flood adj U (S ∪ T) W where
  sub := h'.sub.trans h.sub
  starts p hp hU := by
    rcases hp with hp | hp
    · exact h.starts p hp (h'.sub hU)
    · exact h'.starts p hp hU
  reached q hU hnot := by
    by_cases hq : q ∈ V
    · exact (h'.reached q hq hnot).mono h.sub Set.subset_union_right
    · exact (h.reached q hU hq).mono Set.Subset.rfl Set.subset_union_left
  pending _ := False.elim
  closed q hU hnot q' hq' hadj := by
    by_cases hq : q ∈ V
    · exact h'.closed q hq hnot q' hq' hadj
    · exact h.closed q hU hq q' (h'.sub hq') hadj

/-- A search from a node: the node is taken out, and then the search goes on from its neighbours. -/
theorem of_neighbours {p : α} (hp : p ∈ U) (h : Flood adj (U \ {p}) {q | adj p q} V) : Flood adj U {p} V where
  sub := h.sub.trans Set.sdiff_subset
  starts q hq hU := by
    obtain rfl := Set.mem_singleton_iff.1 hq
    exact absurd rfl (h.sub hU).2
  reached q hU hnot := by
    have hstart : Reach adj U {p} p := Reach.start rfl hp
    by_cases hqp : q = p
    · exact hqp ▸ hstart
    · have hq := (h.reached q ⟨hU, hqp⟩ hnot).mono Set.sdiff_subset Set.Subset.rfl
      exact Reach.trans (fun s hs hsU => hstart.edge hsU hs) hq
  pending _ := False.elim
  closed q hU hnot q' hq' hadj := by
    by_cases hqp : q = p
    · exact h.starts q' (hqp ▸ hadj) hq'
    · exact h.closed q ⟨hU, hqp⟩ hnot q' hq' hadj

/-- Taken out is what can be reached. -/
theorem mem_iff (h : Flood adj U S V) (q : α) : q ∈ U ∧ q ∉ V ↔ Reach adj U S q := by
  refine ⟨fun hq => h.reached q hq.1 hq.2, fun hq => ⟨Reach.mem hq, ?_⟩⟩
  obtain ⟨p, hS, hU, hpath⟩ := hq
  induction hpath with
  | refl => exact fun hp => h.starts p hS hp
  | tail _ hlast ih => exact fun hq => h.closed _ hlast.1 ih _ hq hlast.2.2

end Flood

/-! ## Components -/

/-- What can be reached from a node inside the set. -/
def component (adj : α → α → Prop) (U : Set α) (p : α) : Set α := {q | Reach adj U {p} q}

/-- The components of the graph on the set. -/
def components (adj : α → α → Prop) (U : Set α) : Set (Set α) := {C | ∃ p ∈ U, component adj U p = C}

section Components

theorem mem_component_self {p : α} (hp : p ∈ U) : p ∈ component adj U p := Reach.start rfl hp

theorem mem_component_symm (hadj : ∀ a b, adj a b → adj b a) {p q : α} (h : q ∈ component adj U p) :
    p ∈ component adj U q := by
  obtain ⟨p, rfl, hp, hpath⟩ := h
  refine ⟨q, rfl, Reach.mem ⟨p, rfl, hp, hpath⟩, ?_⟩
  exact Relation.ReflTransGen.mono (fun a b hab => ⟨hab.2.1, hab.1, hadj b a hab.2.2⟩) _ _ hpath.swap

theorem component_eq (hadj : ∀ a b, adj a b → adj b a) {p q : α} (h : q ∈ component adj U p) :
    component adj U q = component adj U p := by
  have hsub : ∀ {p q : α}, q ∈ component adj U p → component adj U q ⊆ component adj U p := by
    intro p q h x hx
    exact Reach.trans (fun y hy _ => Set.mem_singleton_iff.1 hy ▸ h) hx
  exact Set.Subset.antisymm (hsub h) (hsub (mem_component_symm hadj h))

/-- A search takes nothing from the component of a node that it leaves. -/
theorem Flood.keeps_component (hadj : ∀ a b, adj a b → adj b a) (h : Flood adj U S V) {q : α} (hq : q ∈ V) :
    component adj V q = component adj U q := by
  refine Set.Subset.antisymm (fun x hx => Reach.mono h.sub Set.Subset.rfl hx) ?_
  rintro x ⟨q, rfl, hU, hpath⟩
  have hin : Relation.ReflTransGen (EdgeIn adj V) q x ∧ x ∈ V := by
    induction hpath with
    | refl => exact ⟨.refl, hq⟩
    | @tail y z _ hlast ih =>
      obtain ⟨hpath, hy⟩ := ih
      obtain ⟨hyU, hzU, hyz⟩ := hlast
      have hz : z ∈ V := by
        by_contra hz
        exact ((h.mem_iff _).2 ((h.reached _ hzU hz).edge hyU (hadj _ _ hyz))).2 hy
      exact ⟨hpath.tail ⟨hy, hz, hyz⟩, hz⟩
  exact ⟨q, rfl, hq, hin.1⟩

/-- What a search leaves are the components without a start. -/
theorem Flood.components_eq (hadj : ∀ a b, adj a b → adj b a) (h : Flood adj U S V) :
    components adj V = {C ∈ components adj U | ∀ p ∈ S, p ∉ C} := by
  refine Set.ext fun C => ⟨?_, ?_⟩
  · rintro ⟨q, hq, rfl⟩
    exact ⟨⟨q, h.sub hq, (h.keeps_component hadj hq).symm⟩, fun p hS hp => h.starts p hS (Reach.mem hp)⟩
  · rintro ⟨⟨q, hq, rfl⟩, hS⟩
    have hqV : q ∈ V := by
      by_contra hqV
      obtain ⟨p, hp, hpU, hpath⟩ := h.reached q hq hqV
      exact hS p hp (mem_component_symm hadj ⟨p, rfl, hpU, hpath⟩)
    exact ⟨q, hqV, h.keeps_component hadj hqV⟩

/-- A search from a node takes one component out. -/
theorem Flood.ncard_components [Finite α] (hadj : ∀ a b, adj a b → adj b a) {p : α} (hp : p ∈ U)
    (h : Flood adj U {p} V) : (components adj V).ncard + 1 = (components adj U).ncard := by
  have hset : components adj V = components adj U \ {component adj U p} := by
    rw [h.components_eq hadj]
    refine Set.ext fun C => and_congr_right fun hC => ?_
    obtain ⟨q, hq, rfl⟩ := hC
    refine ⟨fun hnot heq => ?_, fun hne x hx hmem => ?_⟩
    · exact hnot p rfl (Set.mem_singleton_iff.1 heq ▸ mem_component_self hp)
    · obtain rfl := Set.mem_singleton_iff.1 hx
      exact hne (component_eq hadj (mem_component_symm hadj hmem))
  rw [hset]
  exact Set.ncard_sdiff_singleton_add_one ⟨p, hp, rfl⟩

end Components

end GoodGoodStudy.Lib
