/-
Names drawn one after the other from a sequence without repetitions, where names that are taken are passed over.
-/
import Mathlib.Order.Interval.Set.Infinite
import GoodGoodStudy.Lib.Loop

namespace GoodGoodStudy.Lib

variable {α β : Type} {g : ℕ → α} {taken : α → Prop}

/-- What was drawn for the elements before, up to a place of the sequence. -/
structure Drawn (g : ℕ → α) (taken : α → Prop) (pre : List β) (s : List (β × α) × ℕ) : Prop where
  elements : s.1.map Prod.fst = pre
  nodup : (s.1.map Prod.snd).Nodup
  free : ∀ a ∈ s.1.map Prod.snd, ¬taken a
  before : ∀ a ∈ s.1.map Prod.snd, ∃ j < s.2, g j = a

theorem Drawn.concat (hg : Function.Injective g) {pre : List β} {s : List (β × α) × ℕ} (h : Drawn g taken pre s) {j : ℕ}
    (hj : s.2 ≤ j) (hfree : ¬taken (g j)) (b : β) : Drawn g taken (pre ++ [b]) (s.1 ++ [(b, g j)], j + 1) := by
  have hmem : ∀ a, a ∈ (s.1 ++ [(b, g j)]).map Prod.snd ↔ a ∈ s.1.map Prod.snd ∨ a = g j := fun a => by
    rw [List.map_append, List.mem_append, List.map_singleton, List.mem_singleton]
  refine ⟨?_, ?_, fun a ha => ?_, fun a ha => ?_⟩
  · rw [List.map_append, h.elements, List.map_singleton]
  · rw [List.map_append, List.map_singleton, List.nodup_append]
    refine ⟨h.nodup, List.nodup_singleton _, fun a ha c hc => ?_⟩
    -- the name stands behind the places of those drawn before
    rintro rfl
    obtain ⟨i, hi, heq⟩ := h.before a ha
    have hij := hg (heq.trans (List.mem_singleton.1 hc))
    omega
  · rcases (hmem a).1 ha with ha | rfl
    · exact h.free a ha
    · exact hfree
  · rcases (hmem a).1 ha with ha | rfl
    · obtain ⟨i, hi, heq⟩ := h.before a ha
      exact ⟨i, by omega, heq⟩
    · exact ⟨j, Nat.lt_succ_self j, rfl⟩

/-- Behind every place there is a name that is not taken. -/
theorem exists_fresh (hg : Function.Injective g) (hfinite : {a | taken a}.Finite) (i : ℕ) :
    ∃ j, i ≤ j ∧ ¬taken (g j) := by
  by_contra hall
  push Not at hall
  have hsub : g '' Set.Ici i ⊆ {a | taken a} := by
    rintro _ ⟨j, hj, rfl⟩
    exact hall j hj
  exact ((Set.Ici_infinite i).image hg.injOn).mono hsub hfinite

variable (g taken) [DecidablePred taken]

/-- A round of a loop that looks for the next name, from a place of the sequence on. -/
def draw (i : ℕ) : Round ℕ (α × ℕ) := if taken (g i) then .again (i + 1) else .leave (g i, i + 1)

/-- A name is drawn for every element of a list. -/
def drawAll (l : List β) (fuel : ℕ) : Option (List (β × α)) := do
  let (drawn, _) ← l.foldlM
    (fun (s : List (β × α) × ℕ) b => do
      let (name, i) ← loop (draw g taken) fuel s.2
      some (s.1 ++ [(b, name)], i)) ([], 0)
  some drawn

variable {g taken}

theorem draw_returns (hg : Function.Injective g) (hfinite : {a | taken a}.Finite) (i : ℕ) :
    ∃ j, i ≤ j ∧ ¬taken (g j) ∧ Returns (fun fuel => loop (draw g taken) fuel i) (g j, j + 1) := by
  obtain ⟨last, hle, hlast⟩ := exists_fresh hg hfinite i
  have hround : ∀ k, i ≤ k ∧ k ≤ last →
      (∃ k', draw g taken k = .again k' ∧ (i ≤ k' ∧ k' ≤ last) ∧ last - k' < last - k) ∨
        ∃ r, draw g taken k = .leave r ∧ ∃ j, i ≤ j ∧ ¬taken (g j) ∧ r = (g j, j + 1) := by
    intro k hk
    unfold draw
    split_ifs with htaken
    · have hne : k ≠ last := fun heq => hlast (heq ▸ htaken)
      exact Or.inl ⟨k + 1, rfl, ⟨by omega, by omega⟩, by omega⟩
    · exact Or.inr ⟨_, rfl, k, hk.1, htaken, rfl⟩
  obtain ⟨_, hreturns, j, hij, hj, rfl⟩ := Returns.loop_of_measure (fun k => last - k) hround ⟨le_refl i, hle⟩
  exact ⟨j, hij, hj, hreturns⟩

/-- The names drawn are different ones, and none of them is taken. -/
theorem drawAll_returns (hg : Function.Injective g) (hfinite : {a | taken a}.Finite) (l : List β) :
    ∃ drawn, Returns (drawAll g taken l) drawn ∧ drawn.map Prod.fst = l ∧ (drawn.map Prod.snd).Nodup ∧
      ∀ a ∈ drawn.map Prod.snd, ¬taken a ∧ ∃ j, g j = a := by
  obtain ⟨s, hreturns, hs⟩ := Returns.foldlM
    (f := fun fuel (s : List (β × α) × ℕ) b => do
      let (name, i) ← loop (draw g taken) fuel s.2
      some (s.1 ++ [(b, name)], i))
    (P := Drawn g taken) (fun pre b s hs => by
      obtain ⟨j, hj, hfree, hdraw⟩ := draw_returns hg hfinite s.2
      exact ⟨_, hdraw.bind (g := fun r _ => some (s.1 ++ [(b, r.1)], r.2)) (Returns.pure _), hs.concat hg hj hfree b⟩)
    l [] (s := ([], 0)) ⟨rfl, List.nodup_nil, fun a ha => (List.not_mem_nil ha).elim,
      fun a ha => (List.not_mem_nil ha).elim⟩
  have hdrawn := hreturns.bind (g := fun (r : List (β × α) × ℕ) _ => some r.1) (Returns.pure s.1)
  refine ⟨s.1, hdrawn, hs.elements, hs.nodup, fun a ha => ?_⟩
  obtain ⟨j, -, hj⟩ := hs.before a ha
  exact ⟨hs.free a ha, j, hj⟩

end GoodGoodStudy.Lib
