/-
Forests given by a parent function: the nodes that are their own parents are the roots. `Leads f a r`
says that the chain of parents that starts at `a` ends in the root `r`; a forest is a parent function
whose chains all end. Redirecting a node to the root above it changes no root, and redirecting a root
to another root joins their two trees and changes nothing else.
-/
import Mathlib.Logic.Function.Iterate
import Mathlib.Logic.Relation
import Mathlib.Tactic.SplitIfs
import GoodGoodStudy.Lib.Loop

namespace GoodGoodStudy.Lib

variable {α : Type*} [DecidableEq α] {f : α → α}

/-- The chain of parents from a node ends in a root. -/
inductive Leads (f : α → α) : α → α → Prop
  | root {r : α} (h : f r = r) : Leads f r r
  | step {a r : α} (h : f a ≠ a) (hr : Leads f (f a) r) : Leads f a r

/-- Every chain of parents ends in a root. -/
def Forest (f : α → α) : Prop := ∀ a, ∃ r, Leads f a r

/-- Two nodes of one tree. -/
def SameRoot (f : α → α) (a b : α) : Prop := ∃ r, Leads f a r ∧ Leads f b r

omit [DecidableEq α] in
theorem Leads.isRoot {a r : α} (h : Leads f a r) : f r = r := by
  induction h with
  | root h => exact h
  | step _ _ ih => exact ih

omit [DecidableEq α] in
theorem Leads.unique {a r r' : α} (h : Leads f a r) (h' : Leads f a r') : r = r' := by
  induction h with
  | root h =>
    cases h' with
    | root _ => rfl
    | step h' _ => exact absurd h h'
  | step h _ ih =>
    cases h' with
    | root h' => exact absurd h' h
    | step _ hr' => exact ih hr'

omit [DecidableEq α] in
/-- A chain that ends does not come back to where it started, unless that is a root. -/
theorem Leads.no_cycle {a r : α} (h : Leads f a r) {k : ℕ} (hk : 0 < k) (hcycle : f^[k] a = a) : f a = a := by
  induction h with
  | root h => exact h
  | @step a r h hr ih =>
    have hcycle' : f^[k] (f a) = f a := by
      rw [← Function.iterate_succ_apply, Function.iterate_succ_apply', hcycle]
    -- the parent is a root, which is the node itself after `k` steps
    have hroot := ih hcycle'
    obtain ⟨k, rfl⟩ : ∃ j, k = j + 1 := ⟨k - 1, by omega⟩
    rw [Function.iterate_succ_apply, Function.iterate_fixed hroot] at hcycle
    exact hcycle

omit [DecidableEq α] in
/-- No cycle but the roots' own. -/
theorem Forest.acyclic (h : Forest f) (a : α) (k : ℕ) (hk : 0 < k) (hcycle : f^[k] a = a) : f a = a := by
  obtain ⟨r, hr⟩ := h a
  exact hr.no_cycle hk hcycle

omit [DecidableEq α] in
theorem SameRoot.equivalence (h : Forest f) : Equivalence (SameRoot f) := by
  refine ⟨fun a => ?_, ?_, ?_⟩
  · obtain ⟨r, hr⟩ := h a
    exact ⟨r, hr, hr⟩
  · rintro a b ⟨r, ha, hb⟩
    exact ⟨r, hb, ha⟩
  · rintro a b c ⟨r, ha, hb⟩ ⟨s, hb', hc⟩
    exact ⟨r, ha, hb.unique hb' ▸ hc⟩

/-! ## Compression -/

/-- A node that is redirected to the root above it, and all others, keep their roots. -/
theorem Leads.compress {x r : α} (hx : Leads f x r) {a s : α} (h : Leads f a s) :
    Leads (Function.update f x r) a s := by
  by_cases hxr : x = r
  · have hself : Function.update f x r = f := by
      rw [← hxr, Function.update_eq_self_iff, hxr, hx.isRoot]
    rw [hself]
    exact h
  · have hroot : Leads (Function.update f x r) r r := by
      apply Leads.root
      rw [Function.update_of_ne (Ne.symm hxr), hx.isRoot]
    induction h with
    | @root s h =>
      by_cases hsx : s = x
      · subst hsx
        exact absurd (hx.unique (.root h)).symm hxr
      · exact .root (by rw [Function.update_of_ne hsx, h])
    | @step a s h hr ih =>
      by_cases hax : a = x
      · subst hax
        rw [(Leads.step h hr).unique hx]
        apply Leads.step
        · rw [Function.update_self]
          exact Ne.symm hxr
        · rw [Function.update_self]
          exact hroot
      · apply Leads.step
        · rw [Function.update_of_ne hax]
          exact h
        · rw [Function.update_of_ne hax]
          exact ih

/-! ## Union -/

/-- The nodes below a root that is redirected to another one get that root. -/
theorem Leads.link {r s : α} (hr : f r = r) (hs : f s = s) (hrs : r ≠ s) {a t : α} (h : Leads f a t) :
    Leads (Function.update f r s) a (if t = r then s else t) := by
  have hroot : Leads (Function.update f r s) s s := by
    apply Leads.root
    rw [Function.update_of_ne (Ne.symm hrs), hs]
  induction h with
  | @root t h =>
    split_ifs with htr
    · subst htr
      apply Leads.step
      · rw [Function.update_self]
        exact Ne.symm hrs
      · rw [Function.update_self]
        exact hroot
    · exact .root (by rw [Function.update_of_ne htr, h])
  | @step a t h _ ih =>
    have har : a ≠ r := fun he => h (he ▸ hr)
    apply Leads.step
    · rw [Function.update_of_ne har]
      exact h
    · rw [Function.update_of_ne har]
      exact ih

section Link

variable {i j r s : α} (hi : Leads f i r) (hj : Leads f j s)
include hi hj

theorem Forest.link (h : Forest f) : Forest (Function.update f r s) := by
  by_cases hrs : r = s
  · rw [hrs, Function.update_eq_self_iff.2 hj.isRoot.symm]
    exact h
  · intro a
    obtain ⟨t, ht⟩ := h a
    exact ⟨_, ht.link hi.isRoot hj.isRoot hrs⟩

/-- Redirecting the root of `i` to the root of `j` joins the two trees. -/
theorem SameRoot.link_pair : SameRoot (Function.update f r s) i j := by
  by_cases hrs : r = s
  · rw [hrs, Function.update_eq_self_iff.2 hj.isRoot.symm]
    exact ⟨s, hrs ▸ hi, hj⟩
  · have hi' := hi.link hi.isRoot hj.isRoot hrs
    have hj' := hj.link hi.isRoot hj.isRoot hrs
    rw [if_pos rfl] at hi'
    rw [if_neg (Ne.symm hrs)] at hj'
    exact ⟨s, hi', hj'⟩

theorem SameRoot.link {a b : α} (hab : SameRoot f a b) : SameRoot (Function.update f r s) a b := by
  by_cases hrs : r = s
  · rw [hrs, Function.update_eq_self_iff.2 hj.isRoot.symm]
    exact hab
  · obtain ⟨t, ha, hb⟩ := hab
    exact ⟨_, ha.link hi.isRoot hj.isRoot hrs, hb.link hi.isRoot hj.isRoot hrs⟩

/-- And it joins nothing else: every equivalence that holds within the trees and between `i` and `j` holds
within the new trees. -/
theorem SameRoot.of_link (h : Forest f) {E : α → α → Prop} (hE : Equivalence E) (hsub : ∀ a b, SameRoot f a b → E a b)
    (hij : E i j) {a b : α} (hab : SameRoot (Function.update f r s) a b) : E a b := by
  by_cases hrs : r = s
  · rw [hrs, Function.update_eq_self_iff.2 hj.isRoot.symm] at hab
    exact hsub a b hab
  · obtain ⟨t, ha⟩ := h a
    obtain ⟨u, hb⟩ := h b
    obtain ⟨v, ha', hb'⟩ := hab
    have hav := (ha.link hi.isRoot hj.isRoot hrs).unique ha'
    have hbv := (hb.link hi.isRoot hj.isRoot hrs).unique hb'
    have hsame : ∀ x y w, Leads f x w → Leads f y w → E x y := fun x y w hx hy => hsub x y ⟨w, hx, hy⟩
    -- `a` and `b` had the same root, or one of them that of `i` and the other that of `j`
    rw [← hbv] at hav
    split_ifs at hav with htr hur hur
    · exact hsame a b r (htr ▸ ha) (hur ▸ hb)
    · subst hav
      exact hE.trans (hsame a i r (htr ▸ ha) hi) (hE.trans hij (hsame j b s hj hb))
    · subst hav
      exact hE.trans (hsame a j t ha hj) (hE.trans (hE.symm hij) (hsame i b r hi (hur ▸ hb)))
    · exact hsame a b u (hav ▸ ha) hb

end Link

/-! ## Joining along a relation -/

/-- `g` is the forest `f` after the trees of related nodes were joined: being in one tree of `g` is the
least equivalence that contains being in one tree of `f` and the relation. -/
structure Joins (f : α → α) (R : α → α → Prop) (g : α → α) : Prop where
  forest : Forest g
  keep : ∀ {a b}, SameRoot f a b → SameRoot g a b
  pairs : ∀ {a b}, R a b → SameRoot g a b
  least : ∀ {E : α → α → Prop}, Equivalence E → (∀ a b, SameRoot f a b → E a b) → (∀ a b, R a b → E a b) →
    ∀ {a b}, SameRoot g a b → E a b

namespace Joins

variable {g k : α → α} {R S : α → α → Prop}

omit [DecidableEq α] in
theorem congr (h : Joins f R g) (hRS : ∀ a b, R a b ↔ S a b) : Joins f S g where
  forest := h.forest
  keep := h.keep
  pairs hab := h.pairs ((hRS _ _).2 hab)
  least hE hf hS := h.least hE hf fun _ _ hab => hS _ _ ((hRS _ _).1 hab)

omit [DecidableEq α] in
theorem trans (h : Joins f R g) (h' : Joins g S k) : Joins f (fun a b => R a b ∨ S a b) k where
  forest := h'.forest
  keep hab := h'.keep (h.keep hab)
  pairs hab := hab.elim (fun hR => h'.keep (h.pairs hR)) h'.pairs
  least hE hf hRS := h'.least hE (fun _ _ => h.least hE hf fun a b hR => hRS a b (.inl hR))
    fun a b hS => hRS a b (.inr hS)

omit [DecidableEq α] in
/-- Changes that leave every node its root join nothing. -/
theorem of_keeps (h : Forest f) (hkeep : ∀ a r, Leads f a r → Leads g a r) : Joins f (fun _ _ => False) g where
  forest a := by
    obtain ⟨r, hr⟩ := h a
    exact ⟨r, hkeep a r hr⟩
  keep := by
    rintro a b ⟨r, ha, hb⟩
    exact ⟨r, hkeep a r ha, hkeep b r hb⟩
  pairs := False.elim
  least := by
    rintro E - hf - a b ⟨r, ha, hb⟩
    obtain ⟨s, hs⟩ := h a
    obtain ⟨t, ht⟩ := h b
    -- the roots in `f` are the ones in `g`, and so the same
    obtain rfl := (hkeep a s hs).unique ha
    obtain rfl := (hkeep b t ht).unique hb
    exact hf a b ⟨_, hs, ht⟩

theorem link (h : Forest f) {i j r s : α} (hi : Leads f i r) (hj : Leads f j s) :
    Joins f (fun a b => a = i ∧ b = j) (Function.update f r s) where
  forest := Forest.link hi hj h
  keep := SameRoot.link hi hj
  pairs := by
    rintro a b ⟨rfl, rfl⟩
    exact SameRoot.link_pair hi hj
  least hE hf hR := SameRoot.of_link hi hj h hE hf (hR i j ⟨rfl, rfl⟩)

omit [DecidableEq α] in
theorem sameRoot_iff_eqvGen {R : α → α → Prop} (h : Joins id R g) (a b : α) :
    SameRoot g a b ↔ Relation.EqvGen R a b := by
  have hid : ∀ a b : α, SameRoot id a b → a = b := by
    rintro a b ⟨r, ha, hb⟩
    exact (ha.unique (.root rfl)).symm.trans (hb.unique (.root rfl))
  constructor
  · intro hab
    refine h.least (Relation.EqvGen.is_equivalence R) (fun a b hab => ?_) (fun a b => .rel a b) hab
    rw [hid a b hab]
    exact .refl b
  · intro hab
    have hE := SameRoot.equivalence h.forest
    induction hab with
    | rel a b hR => exact h.pairs hR
    | refl a => exact hE.refl a
    | symm a b _ ih => exact hE.symm ih
    | trans a b c _ _ ih₁ ih₂ => exact hE.trans ih₁ ih₂

omit [DecidableEq α] in
/-- A loop whose every round joins something, over any states that have a parent function. -/
theorem foldlM {σ β : Type*} (par : σ → α → α) (step : ℕ → σ → β → Option σ) (R : β → α → α → Prop) :
    ∀ (l : List β), (∀ d ∈ l, ∀ s, Forest (par s) →
        ∃ s', Returns (fun fuel => step fuel s d) s' ∧ Joins (par s) (R d) (par s')) →
      ∀ s, Forest (par s) → ∃ s', Returns (fun fuel => l.foldlM (step fuel) s) s' ∧
        Joins (par s) (fun a b => ∃ d ∈ l, R d a b) (par s')
  | [], _, s, hs => ⟨s, Returns.pure s, (of_keeps hs fun _ _ h => h).congr fun a b => by simp⟩
  | d :: l, hstep, s, hs => by
    obtain ⟨s₁, h₁, hjoin₁⟩ := hstep d List.mem_cons_self s hs
    obtain ⟨s₂, h₂, hjoin₂⟩ := foldlM par step R l (fun e he => hstep e (List.mem_cons_of_mem d he)) s₁ hjoin₁.forest
    refine ⟨s₂, h₁.bind h₂, (hjoin₁.trans hjoin₂).congr fun a b => ?_⟩
    simp only [List.mem_cons, exists_eq_or_imp]

end Joins

end GoodGoodStudy.Lib
