/-
Flood fill on a grid, depth first and breadth first: from an open cell, what can be reached through open cells is
written over with another tile. Both return, and the cells written over are those that a search takes out of the open
ones.
-/
import Mathlib.Data.Prod.Lex
import GoodGoodStudy.Lib.Flood
import GoodGoodStudy.Lib.Grid
import GoodGoodStudy.Lib.Loop

namespace GoodGoodStudy.Lib

variable {r c : ℕ} {α : Type*}

/-- The cells with a tile. -/
def tiles (o : α) (g : Grid r c α) : Set (Cell r c) := {p | g.get p = o}

/-! ## Written over -/

/-- The second grid is the first one with some open cells written over. -/
def Marks (o x : α) (g g' : Grid r c α) : Prop := ∀ q, g'.get q = g.get q ∨ (g.get q = o ∧ g'.get q = x)

/-- Written over is what a search from `S` takes out of the open cells. -/
structure Floods (o x : α) (g : Grid r c α) (S : Set (Cell r c)) (g' : Grid r c α) : Prop where
  marks : Marks o x g g'
  flood : Flood SharesSide (tiles o g) S (tiles o g')

section Mark

variable {o x : α} {g g' g'' : Grid r c α} {S T : Set (Cell r c)} {p : Cell r c}

theorem Marks.refl (g : Grid r c α) : Marks o x g g := fun _ => Or.inl rfl

theorem Marks.trans (hox : x ≠ o) (h : Marks o x g g') (h' : Marks o x g' g'') : Marks o x g g'' := by
  intro q
  rcases h' q with hq' | ⟨ho, hx⟩
  · rw [hq']
    exact h q
  · rcases h q with hq | ⟨-, hq⟩
    · exact Or.inr ⟨hq ▸ ho, hx⟩
    · exact absurd (hq.symm.trans ho) hox

theorem Marks.set (hp : g.get p = o ∨ g.get p = x) : Marks o x g (g.set p x) := by
  intro q
  rw [Grid.get_set]
  split_ifs with hq
  · subst hq
    rcases hp with ho | hx
    · exact Or.inr ⟨ho, rfl⟩
    · exact Or.inl hx.symm
  · exact Or.inl rfl

theorem tiles_set (hox : x ≠ o) (g : Grid r c α) (p : Cell r c) : tiles o (g.set p x) = tiles o g \ {p} := by
  ext q
  show (g.set p x).get q = o ↔ g.get q = o ∧ q ≠ p
  rw [Grid.get_set]
  split_ifs with hq
  · exact ⟨fun h => absurd h hox, fun h => absurd hq h.2⟩
  · exact (and_iff_left hq).symm

theorem ncard_tiles_set_lt (hox : x ≠ o) (hp : g.get p = o) : (tiles o (g.set p x)).ncard < (tiles o g).ncard := by
  rw [tiles_set hox]
  exact Set.ncard_lt_ncard ⟨Set.sdiff_subset, fun h => (h hp).2 rfl⟩

theorem Floods.refl (hS : ∀ p ∈ S, g.get p ≠ o) : Floods o x g S g := ⟨Marks.refl g, Flood.refl hS⟩

theorem Floods.ncard_le (h : Floods o x g S g') : (tiles o g').ncard ≤ (tiles o g).ncard :=
  Set.ncard_le_ncard h.flood.sub

theorem Floods.trans (hox : x ≠ o) (h : Floods o x g S g') (h' : Floods o x g' T g'') : Floods o x g (S ∪ T) g'' :=
  ⟨h.marks.trans hox h'.marks, h.flood.trans h'.flood⟩

/-- A loop over some cells, with a search from each of them. -/
theorem Floods.foldlM (hox : x ≠ o) (search : ℕ → Grid r c α → Cell r c → Option (Grid r c α)) (g : Grid r c α)
    (hsearch : ∀ g' p, (tiles o g').ncard ≤ (tiles o g).ncard →
      ∃ g'', Returns (fun fuel => search fuel g' p) g'' ∧ Floods o x g' {p} g'') (l : List (Cell r c)) :
    ∃ g', Returns (fun fuel => l.foldlM (search fuel) g) g' ∧ Floods o x g {q | q ∈ l} g' := by
  have hstep : ∀ pre p g', Floods o x g {q | q ∈ pre} g' →
      ∃ g'', Returns (fun fuel => search fuel g' p) g'' ∧ Floods o x g {q | q ∈ pre ++ [p]} g'' := by
    intro pre p g' hg'
    have hset : {q | q ∈ pre ++ [p]} = {q | q ∈ pre} ∪ {p} := by
      ext q
      rw [Set.mem_ofPred_eq, List.mem_append, List.mem_singleton]
      exact Iff.rfl
    obtain ⟨g'', hret, hflood⟩ := hsearch g' p hg'.ncard_le
    exact ⟨g'', hret, hset ▸ hg'.trans hox hflood⟩
  obtain ⟨g', hret, hg'⟩ := Returns.foldlM hstep l [] (Floods.refl fun p hp => by cases hp)
  exact ⟨g', hret, hg'⟩

/-- The grid is the one from the beginning with some cells written over, and the queue is what is still to be looked
at. -/
structure Searching (o x : α) (g : Grid r c α) (p : Cell r c) (s : Grid r c α × List (Cell r c)) : Prop where
  marks : Marks o x g s.1
  flooding : Flooding SharesSide (tiles o g) {p} (tiles o s.1) {q | q ∈ s.2}

theorem Searching.init (hp : g.get p = o) : Searching o x g p (g, [p]) where
  marks := Marks.refl g
  flooding := Flooding.init fun q => by
    constructor
    · intro hq
      obtain rfl := List.mem_singleton.1 hq
      exact ⟨rfl, hp⟩
    · exact fun hq => List.mem_singleton.2 hq.1

end Mark

variable [DecidableEq α]

/-- A search that is made from open cells only. -/
theorem Floods.ite {o x : α} {g : Grid r c α} {p : Cell r c}
    {search : ℕ → Grid r c α → Cell r c → Option (Grid r c α)}
    (h : g.get p = o → ∃ g', Returns (fun fuel => search fuel g p) g' ∧ Floods o x g {p} g') :
    ∃ g', Returns (fun fuel => if g.get p = o then search fuel g p else some g) g' ∧ Floods o x g {p} g' := by
  by_cases hp : g.get p = o
  · simp only [if_pos hp]
    exact h hp
  · simp only [if_neg hp]
    refine ⟨g, Returns.pure g, Floods.refl ?_⟩
    rintro q rfl
    exact hp

/-! ## Depth first -/

/-- The cell is written over before the calls for its neighbours. -/
def fillDepth (dirs : List (ℤ × ℤ)) (o x : α) : ℕ → Grid r c α → Cell r c → Option (Grid r c α)
  | 0, _, _ => none
  | fuel + 1, g, p =>
    (neighbours dirs p).foldlM (fun g q => if g.get q = o then fillDepth dirs o x fuel g q else some g) (g.set p x)

section Search

variable {dirs : List (ℤ × ℤ)} {o x : α}

/-- The induction is on the number of open cells. -/
theorem fillDepth_returns (hdirs : dirs.Perm [(-1, 0), (1, 0), (0, -1), (0, 1)]) (hox : x ≠ o) (g : Grid r c α)
    (p : Cell r c) (hp : g.get p = o) :
    ∃ g', Returns (fun fuel => fillDepth dirs o x fuel g p) g' ∧ Floods o x g {p} g' := by
  induction hk : (tiles o g).ncard using Nat.strong_induction_on generalizing g p with
  | _ k ih =>
    have hlt := ncard_tiles_set_lt hox hp
    obtain ⟨g', hret, hflood⟩ := Floods.foldlM hox
      (fun fuel g q => if g.get q = o then fillDepth dirs o x fuel g q else some g) (g.set p x)
      (fun g' q hle => Floods.ite fun hq => ih _ (hk ▸ lt_of_le_of_lt hle hlt) g' q hq rfl) (neighbours dirs p)
    refine ⟨g', Returns.call (fun fuel => rfl) hret, ?_, ?_⟩
    · exact (Marks.set (Or.inl hp)).trans hox hflood.marks
    · have hset : {q | q ∈ neighbours dirs p} = {q | SharesSide p q} := by
        ext q
        exact mem_neighbours hdirs
      have hrest := hflood.flood
      rw [tiles_set hox, hset] at hrest
      exact Flood.of_neighbours hp hrest

/-! ## Breadth first -/

/-- A round of the loop over a queue; a cell can be in the queue more than once. -/
def fillRound (dirs : List (ℤ × ℤ)) (o x : α) :
    Grid r c α × List (Cell r c) → Round (Grid r c α × List (Cell r c)) (Grid r c α)
  | (g, []) => .leave g
  | (g, p :: queue) =>
    let g := g.set p x
    .again (g, queue ++ (neighbours dirs p).filter fun q => g.get q = o)

def fillBreadth (dirs : List (ℤ × ℤ)) (o x : α) (fuel : ℕ) (g : Grid r c α) (p : Cell r c) : Option (Grid r c α) :=
  loop (fillRound dirs o x) fuel (g, [p])

/-- What the queue holds before its first open cell. -/
def ahead (o : α) (s : Grid r c α × List (Cell r c)) : ℕ := (s.2.takeWhile fun q => s.1.get q ≠ o).length

theorem Searching.round (hdirs : dirs.Perm [(-1, 0), (1, 0), (0, -1), (0, 1)]) (hox : x ≠ o) {g cur : Grid r c α}
    {p y : Cell r c} {queue : List (Cell r c)} (h : Searching o x g p (cur, y :: queue)) :
    Searching o x g p (cur.set y x, queue ++ (neighbours dirs y).filter fun q => (cur.set y x).get q = o) where
  marks := by
    refine h.marks.trans hox (Marks.set ?_)
    have ho : g.get y = o := (h.flooding.pending y List.mem_cons_self).mem
    exact (h.marks y).imp (fun hy => hy.trans ho) And.right
  flooding := by
    have hmem : ∀ z, z ∈ (neighbours dirs y).filter (fun q => (cur.set y x).get q = o) ↔
        SharesSide y z ∧ z ∈ tiles o cur \ {y} := fun z => by
      rw [List.mem_filter, mem_neighbours hdirs, decide_eq_true_iff, ← tiles_set hox]
      exact Iff.rfl
    show Flooding _ _ _ (tiles o (cur.set y x)) _
    rw [tiles_set hox]
    refine h.flooding.look List.mem_cons_self (fun z hz => ?_) (fun z hz => ?_) fun z hz hne hadj => ?_
    · exact (List.mem_cons.1 hz).imp_right fun hz => List.mem_append_left _ hz
    · rcases List.mem_append.1 hz with hz | hz
      · exact Or.inl (List.mem_cons_of_mem _ hz)
      · exact Or.inr ⟨((hmem z).1 hz).2.1, ((hmem z).1 hz).1⟩
    · exact List.mem_append_right _ ((hmem z).2 ⟨hadj, hz, hne⟩)

theorem length_takeWhile_append {β : Type*} {p : β → Bool} {l₂ : List β} (h : ∀ a ∈ l₂, p a = false) :
    ∀ l₁ : List β, ((l₁ ++ l₂).takeWhile p).length = (l₁.takeWhile p).length
  | [] => by
    cases l₂ with
    | nil => rfl
    | cons a l₂ =>
      have ha : ¬ p a = true := by rw [h a List.mem_cons_self]; decide
      rw [List.nil_append, List.takeWhile_cons_of_neg ha]
      rfl
  | a :: l₁ => by
    rw [List.cons_append]
    by_cases ha : p a = true
    · rw [List.takeWhile_cons_of_pos ha, List.takeWhile_cons_of_pos ha, List.length_cons, List.length_cons,
        length_takeWhile_append h l₁]
    · rw [List.takeWhile_cons_of_neg ha, List.takeWhile_cons_of_neg ha]

/-- A round writes over an open cell, or it leaves the open cells as they are and the queue with one cell fewer before
the first open one: the cells that it adds are open and at the end. -/
theorem fillRound_lt (dirs : List (ℤ × ℤ)) (hox : x ≠ o) (g : Grid r c α) (y : Cell r c) (queue : List (Cell r c)) :
    toLex ((tiles o (g.set y x)).ncard, ahead o (g.set y x,
        queue ++ (neighbours dirs y).filter fun q => (g.set y x).get q = o)) <
      toLex ((tiles o g).ncard, ahead o (g, y :: queue)) := by
  rw [Prod.Lex.toLex_lt_toLex]
  by_cases hy : g.get y = o
  · exact Or.inl (ncard_tiles_set_lt hox hy)
  · refine Or.inr ⟨?_, ?_⟩
    · show (tiles o (g.set y x)).ncard = (tiles o g).ncard
      rw [tiles_set hox, Set.sdiff_singleton_eq_self (show y ∉ tiles o g from hy)]
    · have hsame : ∀ q, ((g.set y x).get q ≠ o) = (g.get q ≠ o) := by
        intro q
        rw [Grid.get_set]
        split_ifs with hq
        · subst hq
          exact propext ⟨fun _ => hy, fun _ => hox⟩
        · rfl
      have hnew : ∀ q ∈ (neighbours dirs y).filter (fun q => (g.set y x).get q = o),
          decide ((g.set y x).get q ≠ o) = false := fun q hq => by
        rw [decide_eq_false_iff_not, not_not]
        exact of_decide_eq_true (List.mem_filter.1 hq).2
      have hhead : (y :: queue).takeWhile (fun q => decide (g.get q ≠ o)) =
          y :: queue.takeWhile fun q => decide (g.get q ≠ o) := List.takeWhile_cons_of_pos (decide_eq_true hy)
      show List.length (List.takeWhile _ _) < List.length (List.takeWhile _ (y :: queue))
      rw [length_takeWhile_append hnew, hhead, List.length_cons]
      simp only [hsame]
      exact Nat.lt_succ_self _

theorem fillBreadth_returns (hdirs : dirs.Perm [(-1, 0), (1, 0), (0, -1), (0, 1)]) (hox : x ≠ o) (g : Grid r c α)
    (p : Cell r c) (hp : g.get p = o) :
    ∃ g', Returns (fun fuel => fillBreadth dirs o x fuel g p) g' ∧ Floods o x g {p} g' := by
  refine Returns.loop_of_measure (fun s : Grid r c α × List (Cell r c) => toLex ((tiles o s.1).ncard, ahead o s))
    (fun s hs => ?_) (Searching.init hp : Searching o x g p (g, [p]))
  obtain ⟨g', queue⟩ := s
  cases queue with
  | nil =>
    have hempty : {q : Cell r c | q ∈ []} = ∅ := Set.eq_empty_iff_forall_notMem.2 fun q hq => List.not_mem_nil hq
    have hflood := hs.flooding
    rw [hempty] at hflood
    exact Or.inr ⟨g', rfl, hs.marks, hflood⟩
  | cons y queue => exact Or.inl ⟨_, rfl, hs.round hdirs hox, fillRound_lt dirs hox g' y queue⟩

end Search

/-! ## Counting components -/

/-- A search from every cell that is still open when the loop comes to it, and the number of these searches. -/
def countFills (o : α) (search : ℕ → Grid r c α → Cell r c → Option (Grid r c α)) (fuel : ℕ) (g : Grid r c α) :
    Option ℕ :=
  ((cells r c).foldlM (fun s p => if s.1.get p = o then (search fuel s.1 p).map fun g => (g, s.2 + 1) else some s)
    (g, 0)).map Prod.snd

/-- The searches are as many as the open cells have components. -/
theorem countFills_returns {o x : α} {search : ℕ → Grid r c α → Cell r c → Option (Grid r c α)}
    (hsearch : ∀ g p, g.get p = o → ∃ g', Returns (fun fuel => search fuel g p) g' ∧ Floods o x g {p} g')
    (g : Grid r c α) :
    Returns (fun fuel => countFills o search fuel g) (components SharesSide (tiles o g)).ncard := by
  let P : List (Cell r c) → Grid r c α × ℕ → Prop := fun pre s => (∀ p ∈ pre, s.1.get p ≠ o) ∧
    s.2 + (components SharesSide (tiles o s.1)).ncard = (components SharesSide (tiles o g)).ncard
  have hstep : ∀ pre p s, P pre s → ∃ s', Returns (fun fuel =>
      if s.1.get p = o then (search fuel s.1 p).map fun g => (g, s.2 + 1) else some s) s' ∧ P (pre ++ [p]) s' := by
    rintro pre p s ⟨hpassed, hcount⟩
    by_cases hp : s.1.get p = o
    · obtain ⟨g', hret, hflood⟩ := hsearch s.1 p hp
      have hone := hflood.flood.ncard_components (fun _ _ h => SharesSide.symm h) (show p ∈ tiles o s.1 from hp)
      simp only [if_pos hp]
      refine ⟨_, hret.map _, fun q hq hopen => ?_, ?_⟩
      · rcases List.mem_append.1 hq with hq | hq
        · exact hpassed q hq (hflood.flood.sub hopen)
        · exact hflood.flood.starts q (List.mem_singleton.1 hq) hopen
      · rw [← hcount, ← hone]
        exact Nat.succ_add_eq_add_succ _ _
    · simp only [if_neg hp]
      refine ⟨s, Returns.pure s, fun q hq => ?_, hcount⟩
      rcases List.mem_append.1 hq with hq | hq
      · exact hpassed q hq
      · exact List.mem_singleton.1 hq ▸ hp
  obtain ⟨⟨g', k⟩, hret, hpassed, hcount⟩ := Returns.foldlM hstep (cells r c) [] (s := (g, 0))
    ⟨fun p hp => absurd hp List.not_mem_nil, Nat.zero_add _⟩
  have hnone : components SharesSide (tiles o g') = ∅ := by
    refine Set.eq_empty_iff_forall_notMem.2 ?_
    rintro C ⟨p, hp, -⟩
    exact hpassed p (mem_cells p) hp
  simp only [hnone, Set.ncard_empty, Nat.add_zero] at hcount
  rw [← hcount]
  exact hret.map Prod.snd

end GoodGoodStudy.Lib
