/-
The union-find forest of two exercises (`DistictSet` and the circles of friends have the same `parent` and
`union`), and `findCircleNum` on top of it. The list `p` of the source holds, for each of the elements
below `n`, an element below `n`: a vector of such elements.

After any sequence of calls the list is a forest, `parent` returns the root and changes no root, and
sharing a root is the equivalence closure of the united pairs.
-/
import GoodGoodStudy.Lib.Forest
import GoodGoodStudy.Lib.Loop
import GoodGoodStudy.Lib.Run
import Mathlib.Combinatorics.SimpleGraph.Connectivity.Connected
import Mathlib.Data.List.FinRange
import Mathlib.Data.Set.Card

namespace GoodGoodStudy.LeetCode.UnionFind

open GoodGoodStudy.Lib

variable {n : ℕ}

/-! ## The functions -/

/-- `p = [i for i in range(n)]`. -/
def init (n : ℕ) : Vector (Fin n) n := Vector.ofFn id

/-- A round of `while p[root] != root`. -/
def rootRound (p : Vector (Fin n) n) (root : Fin n) : Round (Fin n) (Fin n) :=
  if p[root] ≠ root then .again p[root] else .leave root

/-- A round of `while p[i] != i`, which redirects the elements passed to the root. -/
def compressRound (root : Fin n) : Vector (Fin n) n × Fin n → Round (Vector (Fin n) n × Fin n) (Vector (Fin n) n)
  | (p, i) => if p[i] ≠ i then .again (p.set i root, p[i]) else .leave p

/-- `parent`: the list after the call, and the root. -/
def parent (fuel : ℕ) (p : Vector (Fin n) n) (i : Fin n) : Option (Vector (Fin n) n × Fin n) :=
  (loop (rootRound p) fuel i).bind fun root => (loop (compressRound root) fuel (p, i)).map fun p => (p, root)

def union (fuel : ℕ) (p : Vector (Fin n) n) (i j : Fin n) : Option (Vector (Fin n) n) :=
  (parent fuel p i).bind fun (p, p1) => (parent fuel p j).map fun (p, p2) => p.set p1 p2

/-- `[self.parent(p, i) for i in is]`. -/
def parents (fuel : ℕ) (p : Vector (Fin n) n) : List (Fin n) → Option (List (Fin n))
  | [] => some []
  | i :: is => (parent fuel p i).bind fun (p, root) => (parents fuel p is).map (root :: ·)

/-- The loops that build the forest: a pair is united where the matrix has a one. -/
def uniteAll (fuel : ℕ) (M : Vector (Vector Int n) n) : Option (Vector (Fin n) n) :=
  (List.finRange n).foldlM (fun p i =>
    (List.finRange n).foldlM (fun p j => if M[i][j] = 1 then union fuel p i j else some p) p) (init n)

def findCircleNum (fuel : ℕ) (M : Vector (Vector Int n) n) : Option ℕ :=
  if n = 0 then some 0
  else (uniteAll fuel M).bind fun p => (parents fuel p (List.finRange n)).map fun a => a.dedup.length

/-! ## The list as a parent function -/

/-- The parent of each element. -/
def par (p : Vector (Fin n) n) (i : Fin n) : Fin n := p[i]

theorem par_init : par (init n) = id := by
  funext i
  simp [par, init]

theorem par_set (p : Vector (Fin n) n) (x r : Fin n) : par (p.set x r) = Function.update (par p) x r := by
  funext i
  unfold par
  by_cases h : i = x
  · subst h
    simp
  · have hne : (x : ℕ) ≠ i := fun he => h (Fin.ext he.symm)
    rw [Function.update_of_ne h]
    simp [hne]

/-! ## One call -/

theorem root_returns {p : Vector (Fin n) n} {i r : Fin n} (h : Leads (par p) i r) :
    Returns (fun fuel => loop (rootRound p) fuel i) r := by
  induction h with
  | root h => exact Returns.leave (if_neg (not_not.2 h))
  | step h _ ih => exact Returns.again (if_pos h) ih

/-- The second loop passes the chain as it was when the loop began: what lies ahead is not redirected
yet, since a chain does not come back. -/
theorem compress_returns {f : Fin n → Fin n} {i r : Fin n} (h : Leads f i r) {p : Vector (Fin n) n}
    (hahead : ∀ k : ℕ, par p (f^[k] i) = f (f^[k] i)) (hkeep : ∀ a s, Leads f a s → Leads (par p) a s) :
    ∃ p', Returns (fun fuel => loop (compressRound r) fuel (p, i)) p' ∧
      ∀ a s, Leads f a s → Leads (par p') a s := by
  induction h generalizing p with
  | @root r h =>
    have hp : p[r] = r := (hahead 0).trans h
    exact ⟨p, Returns.leave (if_neg (not_not.2 hp)), hkeep⟩
  | @step i r h hr ih =>
    have hp : p[i] = f i := hahead 0
    have hround : compressRound r (p, i) = .again (p.set i r, f i) := by
      rw [compressRound, hp, if_pos h]
    have hlead := Leads.step h hr
    have hahead' : ∀ k : ℕ, par (p.set i r) (f^[k] (f i)) = f (f^[k] (f i)) := by
      intro k
      have hne : f^[k] (f i) ≠ i := fun he => h (hlead.no_cycle (Nat.succ_pos k) he)
      rw [par_set, Function.update_of_ne hne]
      exact hahead (k + 1)
    have hkeep' : ∀ a s, Leads f a s → Leads (par (p.set i r)) a s := by
      intro a s hs
      rw [par_set]
      exact (hkeep i r hlead).compress (hkeep a s hs)
    obtain ⟨p', hp', hroots⟩ := ih hahead' hkeep'
    exact ⟨p', Returns.again hround hp', hroots⟩

/-- `parent` returns the root, and every element keeps its own. -/
theorem parent_returns {p : Vector (Fin n) n} {i r : Fin n} (h : Leads (par p) i r) :
    ∃ p', Returns (fun fuel => parent fuel p i) (p', r) ∧ ∀ a s, Leads (par p) a s → Leads (par p') a s := by
  obtain ⟨p', hp', hkeep⟩ := compress_returns h (fun _ => rfl) (fun _ _ hs => hs)
  exact ⟨p', (root_returns h).bind (hp'.map fun p => (p, r)), hkeep⟩

theorem union_returns {p : Vector (Fin n) n} (h : Forest (par p)) (i j : Fin n) :
    ∃ p', Returns (fun fuel => union fuel p i j) p' ∧ Joins (par p) (fun a b => a = i ∧ b = j) (par p') := by
  obtain ⟨r, hr⟩ := h i
  obtain ⟨p₁, hp₁, hkeep₁⟩ := parent_returns hr
  have hjoin₁ := Joins.of_keeps h hkeep₁
  obtain ⟨s, hs⟩ := hjoin₁.forest j
  obtain ⟨p₂, hp₂, hkeep₂⟩ := parent_returns hs
  have hjoin₂ := Joins.of_keeps hjoin₁.forest hkeep₂
  have hlink := Joins.link hjoin₂.forest (hkeep₂ _ _ (hkeep₁ _ _ hr)) (hkeep₂ _ _ hs)
  refine ⟨p₂.set r s, hp₁.bind (hp₂.map fun q => q.1.set r q.2), ?_⟩
  rw [par_set]
  exact ((hjoin₁.trans hjoin₂).trans hlink).congr fun a b => by simp

/-! ## Sequences of calls -/

inductive Call (n : ℕ)
  | union (i j : Fin n)
  | parent (i : Fin n)
  deriving DecidableEq, Repr

/-- A call, with the root that it returns. -/
def call (fuel : ℕ) (p : Vector (Fin n) n) : Call n → Option (Vector (Fin n) n × Option (Fin n))
  | .union i j => (union fuel p i j).map fun p => (p, none)
  | .parent i => (parent fuel p i).map fun (p, root) => (p, some root)

theorem call_returns {p : Vector (Fin n) n} (h : Forest (par p)) (c : Call n) :
    ∃ p' answer, Returns (fun fuel => call fuel p c) (p', answer) ∧
      Joins (par p) (fun a b => .union a b = c) (par p') := by
  cases c with
  | union i j =>
    obtain ⟨p', hp', hjoin⟩ := union_returns h i j
    exact ⟨p', none, hp'.map fun p => (p, none), hjoin.congr fun a b => by rw [Call.union.injEq]⟩
  | parent i =>
    obtain ⟨r, hr⟩ := h i
    obtain ⟨p', hp', hkeep⟩ := parent_returns hr
    have hcall : Returns (fun fuel => (parent fuel p i).map fun (p, root) => (p, some root)) (p', some r) :=
      hp'.map _
    exact ⟨p', some r, hcall, (Joins.of_keeps h hkeep).congr fun a b => by simp⟩

theorem run_returns {p : Vector (Fin n) n} (h : Forest (par p)) (calls : List (Call n)) :
    ∃ p' answers, Returns (fun fuel => runOut (call fuel) p calls) (p', answers) ∧
      Joins (par p) (fun a b => .union a b ∈ calls) (par p') := by
  induction calls generalizing p with
  | nil => exact ⟨p, [], Returns.pure _, (Joins.of_keeps h fun _ _ hs => hs).congr fun a b => by simp⟩
  | cons c calls ih =>
    obtain ⟨p₁, answer, hc, hjoin₁⟩ := call_returns h c
    obtain ⟨p₂, answers, hrest, hjoin₂⟩ := ih hjoin₁.forest
    refine ⟨p₂, answer :: answers, ?_, (hjoin₁.trans hjoin₂).congr fun a b => List.mem_cons.symm⟩
    exact hc.bind (hrest.bind (Returns.pure (p₂, answer :: answers)))

theorem forest_init : Forest (par (init n)) := by
  intro a
  rw [par_init]
  exact ⟨a, .root rfl⟩

/-! ## The circles of friends -/

/-- The body of the two loops. -/
theorem cell_returns (M : Vector (Vector Int n) n) (i j : Fin n) {p : Vector (Fin n) n} (h : Forest (par p)) :
    ∃ p', Returns (fun fuel => if M[i][j] = 1 then union fuel p i j else some p) p' ∧
      Joins (par p) (fun a b => M[i][j] = 1 ∧ a = i ∧ b = j) (par p') := by
  by_cases hM : M[i][j] = 1
  · obtain ⟨p', hp', hjoin⟩ := union_returns h i j
    simp only [if_pos hM]
    exact ⟨p', hp', hjoin.congr fun a b => (and_iff_right hM).symm⟩
  · simp only [if_neg hM]
    exact ⟨p, Returns.pure p, (Joins.of_keeps h fun _ _ hs => hs).congr fun a b =>
      ⟨False.elim, fun hand => hM hand.1⟩⟩

theorem uniteAll_returns (M : Vector (Vector Int n) n) :
    ∃ p, Returns (fun fuel => uniteAll fuel M) p ∧ Joins id (fun a b => M[a][b] = 1) (par p) := by
  have hrow : ∀ i ∈ List.finRange n, ∀ p, Forest (par p) → ∃ p', Returns (fun fuel => (List.finRange n).foldlM
        (fun p j => if M[i][j] = 1 then union fuel p i j else some p) p) p' ∧
      Joins (par p) (fun a b => ∃ j ∈ List.finRange n, M[i][j] = 1 ∧ a = i ∧ b = j) (par p') := fun i _ =>
    Joins.foldlM par _ _ (List.finRange n) fun j _ p hp => cell_returns M i j hp
  obtain ⟨p, hp, hjoin⟩ := Joins.foldlM par _ _ (List.finRange n) hrow (init n) forest_init
  rw [par_init] at hjoin
  refine ⟨p, hp, hjoin.congr fun a b => ⟨?_, fun hM => ?_⟩⟩
  · rintro ⟨i, -, j, -, hM, rfl, rfl⟩
    exact hM
  · exact ⟨a, List.mem_finRange a, b, List.mem_finRange b, hM, rfl, rfl⟩

/-- The roots are collected while the calls compress the paths. -/
theorem parents_returns {p : Vector (Fin n) n} {root : Fin n → Fin n} (h : ∀ a, Leads (par p) a (root a))
    (is : List (Fin n)) : Returns (fun fuel => parents fuel p is) (is.map root) := by
  induction is generalizing p with
  | nil => exact Returns.pure []
  | cons i is ih =>
    obtain ⟨p', hp', hkeep⟩ := parent_returns (h i)
    exact hp'.bind ((ih fun a => hkeep a _ (h a)).map (root i :: ·))

/-- The graph of a matrix: two different elements are neighbours where there is a one. -/
def graph (M : Vector (Vector Int n) n) : SimpleGraph (Fin n) := SimpleGraph.fromRel fun i j => M[i][j] = 1

theorem reachable_iff_sameRoot {M : Vector (Vector Int n) n} {f : Fin n → Fin n}
    (h : Joins id (fun a b => M[a][b] = 1) f) (a b : Fin n) : (graph M).Reachable a b ↔ SameRoot f a b := by
  have hE := SameRoot.equivalence h.forest
  constructor
  · intro hab
    rw [SimpleGraph.reachable_iff_reflTransGen] at hab
    induction hab with
    | refl => exact hE.refl a
    | tail _ hadj ih =>
      refine hE.trans ih ?_
      rcases ((SimpleGraph.fromRel_adj _ _ _).1 hadj).2 with hM | hM
      · exact h.pairs hM
      · exact hE.symm (h.pairs hM)
  · intro hab
    refine h.least (SimpleGraph.reachable_is_equivalence _) ?_ ?_ hab
    · rintro a b ⟨r, ha, hb⟩
      obtain rfl := ha.unique (.root rfl)
      obtain rfl := hb.unique (.root rfl)
      rfl
    · intro a b hM
      by_cases hne : a = b
      · rw [hne]
      · exact SimpleGraph.Adj.reachable ((SimpleGraph.fromRel_adj _ _ _).2 ⟨hne, .inl hM⟩)

/-- There are as many different roots as components. -/
theorem length_dedup_roots {M : Vector (Vector Int n) n} {f root : Fin n → Fin n}
    (h : Joins id (fun a b => M[a][b] = 1) f) (hroot : ∀ a, Leads f a (root a)) :
    ((List.finRange n).map root).dedup.length = Nat.card (graph M).ConnectedComponent := by
  have hsame : ∀ a b, (graph M).Reachable a b ↔ root a = root b := by
    intro a b
    rw [reachable_iff_sameRoot h]
    constructor
    · rintro ⟨r, ha, hb⟩
      exact ((hroot a).unique ha).trans (hb.unique (hroot b))
    · intro he
      exact ⟨root a, hroot a, he ▸ hroot b⟩
  let rootOf : (graph M).ConnectedComponent → Fin n :=
    SimpleGraph.ConnectedComponent.lift root fun a b walk _ => (hsame a b).1 walk.reachable
  have hinj : Function.Injective rootOf := by
    intro c d
    refine SimpleGraph.ConnectedComponent.ind₂ (fun a b he => ?_) c d
    exact SimpleGraph.ConnectedComponent.sound ((hsame a b).2 he)
  have hrange : Set.range rootOf = ((List.finRange n).map root).toFinset := by
    ext r
    constructor
    · rintro ⟨c, rfl⟩
      refine SimpleGraph.ConnectedComponent.ind (fun a => ?_) c
      simp [rootOf]
    · intro hr
      obtain ⟨a, -, rfl⟩ := List.mem_map.1 (List.mem_toFinset.1 hr)
      exact ⟨(graph M).connectedComponentMk a, rfl⟩
  rw [← Nat.card_range_of_injective hinj, hrange, ← List.card_toFinset, Nat.card_coe_set_eq, Set.ncard_coe_finset]

theorem findCircleNum_returns (M : Vector (Vector Int n) n) :
    Returns (fun fuel => findCircleNum fuel M) (Nat.card (graph M).ConnectedComponent) := by
  unfold findCircleNum
  by_cases hn : n = 0
  · subst hn
    simp only [↓reduceIte]
    have hempty : IsEmpty (graph M).ConnectedComponent :=
      ⟨fun c => SimpleGraph.ConnectedComponent.ind (fun a => a.elim0) c⟩
    rw [Nat.card_of_isEmpty]
    exact Returns.pure 0
  · simp only [if_neg hn]
    obtain ⟨p, hp, hjoin⟩ := uniteAll_returns M
    obtain ⟨root, hroot⟩ := Classical.skolem.1 hjoin.forest
    rw [← length_dedup_roots hjoin hroot]
    exact hp.bind ((parents_returns hroot (List.finRange n)).map _)

/-- After every sequence of calls from the identity, each of which returns, the forest is acyclic, two
elements have the same root exactly if they are related by the equivalence closure of the united pairs,
and a call of `parent` returns the root and leaves every element its class. So the number of circles is
that of the connected components, for every square matrix. -/
theorem unionFind_eqvClosure (n : ℕ) :
    (∀ calls : List (Call n), ∃ p answers,
      Returns (fun fuel => runOut (call fuel) (init n) calls) (p, answers) ∧
      (∀ a k, 0 < k → (par p)^[k] a = a → p[a] = a) ∧
      (∀ a b, SameRoot (par p) a b ↔ Relation.EqvGen (fun i j => Call.union i j ∈ calls) a b) ∧
      ∀ i, ∃ p' root, Returns (fun fuel => parent fuel p i) (p', root) ∧ Leads (par p) i root ∧ p[root] = root ∧
        ∀ a b, SameRoot (par p') a b ↔ SameRoot (par p) a b) ∧
    ∀ M : Vector (Vector Int n) n,
      Returns (fun fuel => findCircleNum fuel M) (Nat.card (graph M).ConnectedComponent) := by
  refine ⟨fun calls => ?_, findCircleNum_returns⟩
  obtain ⟨p, answers, hrun, hjoin⟩ := run_returns forest_init calls
  rw [par_init] at hjoin
  refine ⟨p, answers, hrun, fun a k hk hcycle => hjoin.forest.acyclic a k hk hcycle, hjoin.sameRoot_iff_eqvGen,
    fun i => ?_⟩
  obtain ⟨root, hroot⟩ := hjoin.forest i
  obtain ⟨p', hp', hkeep⟩ := parent_returns hroot
  have hsame := Joins.of_keeps hjoin.forest hkeep
  refine ⟨p', root, hp', hroot, hroot.isRoot, fun a b => ⟨fun hab => ?_, hsame.keep⟩⟩
  exact hsame.least (SameRoot.equivalence hjoin.forest) (fun _ _ h => h) (fun _ _ h => h.elim) hab

end GoodGoodStudy.LeetCode.UnionFind
