/-
Doubly linked lists in a heap: the two pointers of every location, what it means for a list of
locations to be linked in both directions, and the two pointer surgeries, unlinking a location and
linking a fresh one between two neighbours. Walking the forward pointers from the first location
and the backward pointers from the last one visits the same locations in opposite orders.
-/
import Mathlib.Data.List.Chain
import Mathlib.Data.List.Nodup
import Mathlib.Logic.Function.Basic

namespace GoodGoodStudy.Lib

variable {L : Type*}

/-- The forward and backward pointer of every location. -/
structure Links (L : Type*) where
  next : L → Option L
  pre : L → Option L

namespace Links

variable [DecidableEq L]

def setNext (h : Links L) (l : L) (v : Option L) : Links L := { h with next := Function.update h.next l v }

def setPre (h : Links L) (l : L) (v : Option L) : Links L := { h with pre := Function.update h.pre l v }

@[simp] theorem setNext_next (h : Links L) (l m : L) (v : Option L) :
    (h.setNext l v).next m = if m = l then v else h.next m := by
  simp [setNext, Function.update_apply]

@[simp] theorem setNext_pre (h : Links L) (l : L) (v : Option L) : (h.setNext l v).pre = h.pre := rfl

@[simp] theorem setPre_pre (h : Links L) (l m : L) (v : Option L) :
    (h.setPre l v).pre m = if m = l then v else h.pre m := by
  simp [setPre, Function.update_apply]

@[simp] theorem setPre_next (h : Links L) (l : L) (v : Option L) : (h.setPre l v).next = h.next := rfl

end Links

/-! ## Following pointers to the end -/

/-- Following `f` from a location visits the locations of the list and then ends. -/
inductive Walk (f : L → Option L) : L → List L → Prop
  | stop {a : L} : f a = none → Walk f a [a]
  | step {a b : L} {ls : List L} : f a = some b → Walk f b ls → Walk f a (a :: ls)

/-! ## Linked lists -/

/-- Two locations point at each other. -/
def Adjacent (h : Links L) (a b : L) : Prop := h.next a = some b ∧ h.pre b = some a

/-- The locations form a doubly linked list: neighbours point at each other, nothing precedes the
first and nothing follows the last, and no location occurs twice. -/
structure Linked (h : Links L) (ls : List L) : Prop where
  chain : ls.IsChain (Adjacent h)
  nodup : ls.Nodup
  first : ∀ a ∈ ls.head?, h.pre a = none
  last : ∀ a ∈ ls.getLast?, h.next a = none

/-- Pointers that no pair of neighbours uses may change. -/
theorem isChain_congr {h h' : Links L} {ls : List L} (hc : ls.IsChain (Adjacent h))
    (hn : ∀ l ∈ ls.dropLast, h'.next l = h.next l) (hp : ∀ l ∈ ls.tail, h'.pre l = h.pre l) :
    ls.IsChain (Adjacent h') := by
  induction ls with
  | nil => exact .nil
  | cons a ls ih =>
    cases ls with
    | nil => exact List.isChain_singleton a
    | cons b ls =>
      rw [List.isChain_cons_cons] at hc ⊢
      refine ⟨⟨?_, ?_⟩, ih hc.2 (fun l hl => hn l ?_) fun l hl => hp l ?_⟩
      · rw [hn a (by simp)]; exact hc.1.1
      · rw [hp b (by simp)]; exact hc.1.2
      · rw [List.dropLast_cons_cons]; exact List.mem_cons_of_mem _ hl
      · exact List.mem_cons_of_mem _ hl

namespace Linked

/-- A heap that agrees on the pointers of the locations links them too. -/
theorem congr {h h' : Links L} {ls : List L} (d : Linked h ls) (hn : ∀ l ∈ ls, h'.next l = h.next l)
    (hp : ∀ l ∈ ls, h'.pre l = h.pre l) : Linked h' ls where
  chain := isChain_congr d.chain (fun l hl => hn l ((List.dropLast_sublist _).subset hl))
    fun l hl => hp l (List.mem_of_mem_tail hl)
  nodup := d.nodup
  first a ha := (hp a (List.mem_of_mem_head? ha)).trans (d.first a ha)
  last a ha := (hn a (List.mem_of_mem_getLast? ha)).trans (d.last a ha)

variable {h : Links L} {u v : List L} {p x n : L}

theorem walk_next_of_chain : ∀ {a : L} {ls : List L}, (a :: ls).IsChain (Adjacent h) →
    (∀ z ∈ (a :: ls).getLast?, h.next z = none) → Walk h.next a (a :: ls)
  | a, [], _, hl => .stop (hl a rfl)
  | a, b :: ls, hc, hl => by
    rw [List.isChain_cons_cons] at hc
    exact .step hc.1.1 (walk_next_of_chain hc.2 fun z hz => hl z (by rwa [List.getLast?_cons_cons]))

/-- The walk along the forward pointers. -/
theorem walk_next {a : L} {ls : List L} (d : Linked h (a :: ls)) : Walk h.next a (a :: ls) :=
  walk_next_of_chain d.chain d.last

/-- Exchanging the two pointers reverses a linked list. -/
theorem reverse {ls : List L} (d : Linked h ls) : Linked ⟨h.pre, h.next⟩ ls.reverse := by
  refine ⟨?_, List.nodup_reverse.2 d.nodup, ?_, ?_⟩
  · rw [List.isChain_reverse]
    exact d.chain.imp fun a b hab => ⟨hab.2, hab.1⟩
  · rw [List.head?_reverse]; exact d.last
  · rw [List.getLast?_reverse]; exact d.first

/-- The walk along the backward pointers. -/
theorem walk_pre {z : L} {ls : List L} (d : Linked h (ls ++ [z])) : Walk h.pre z (ls ++ [z]).reverse := by
  have d' := d.reverse
  rw [List.reverse_append, List.reverse_singleton, List.singleton_append] at d' ⊢
  exact d'.walk_next

theorem adjacent (d : Linked h (u ++ p :: n :: v)) : Adjacent h p n := by
  have := (List.isChain_append.1 d.chain).2.1
  rw [List.isChain_cons_cons] at this
  exact this.1

theorem split_nodup {ls : List L} (hn : (u ++ p :: ls).Nodup) :
    p ∉ u ∧ p ∉ ls ∧ ∀ a ∈ u, a ∉ ls := by
  rw [List.nodup_append, List.nodup_cons] at hn
  obtain ⟨-, ⟨h1, -⟩, h2⟩ := hn
  refine ⟨?_, h1, ?_⟩
  · intro hm
    exact h2 p hm p (by simp) rfl
  · intro a ha hm
    exact h2 a ha a (List.mem_cons_of_mem _ hm) rfl

theorem mem_append_cons {a : L} (ha : a ∈ u ++ [p]) : a ∈ u ++ p :: v := by
  rw [show u ++ p :: v = (u ++ [p]) ++ v by simp]
  exact List.mem_append_left _ ha

/-- Rejoining the two ends of a linked list over a new middle: outside it no pointer of a
neighbour changed. -/
theorem rejoin {h' : Links L} {m : List L} (hu : (u ++ [p]).IsChain (Adjacent h))
    (hv : (n :: v).IsChain (Adjacent h)) (hm : (p :: (m ++ [n])).IsChain (Adjacent h'))
    (hnd : (u ++ p :: (m ++ n :: v)).Nodup)
    (hnext : ∀ l ∈ u ++ n :: v, h'.next l = h.next l) (hpre : ∀ l ∈ u ++ p :: v, h'.pre l = h.pre l)
    (first : ∀ a ∈ (u ++ [p]).head?, h.pre a = none) (last : ∀ a ∈ (n :: v).getLast?, h.next a = none) :
    Linked h' (u ++ p :: (m ++ n :: v)) := by
  have hu' : (u ++ [p]).IsChain (Adjacent h') := isChain_congr hu
    (fun l hl => hnext l (by rw [List.dropLast_concat] at hl; exact List.mem_append_left _ hl))
    fun l hl => hpre l (mem_append_cons (List.mem_of_mem_tail hl))
  have hv' : (n :: v).IsChain (Adjacent h') := isChain_congr hv
    (fun l hl => hnext l (List.mem_append_right _ ((List.dropLast_sublist _).subset hl)))
    fun l hl => hpre l (List.mem_append_right _ (List.mem_cons_of_mem _ hl))
  have hsplit : u ++ p :: (m ++ n :: v) = (u ++ [p] ++ m) ++ [n] ++ v := by simp
  refine ⟨?_, hnd, fun a ha => ?_, fun a ha => ?_⟩
  · -- three chains, glued where they overlap, in `p` and in `n`
    have h1 : (u ++ [p] ++ (m ++ [n])).IsChain (Adjacent h') := hu'.append_overlap hm (by simp)
    rw [← List.append_assoc] at h1
    rw [hsplit]
    exact h1.append_overlap hv' (by simp)
  · have ha' : a ∈ (u ++ [p]).head? := by cases u <;> exact ha
    rw [hpre a (mem_append_cons (List.mem_of_mem_head? ha'))]
    exact first a ha'
  · rw [hsplit, List.append_assoc, List.singleton_append, List.getLast?_append_cons] at ha
    rw [hnext a (List.mem_append_right _ (List.mem_of_mem_getLast? ha))]
    exact last a ha

theorem chains (d : Linked h (u ++ p :: v)) :
    (u ++ [p]).IsChain (Adjacent h) ∧ v.IsChain (Adjacent h) := by
  have hc : ((u ++ [p]) ++ v).IsChain (Adjacent h) := by simpa using d.chain
  exact ⟨(List.isChain_append.1 hc).1, (List.isChain_append.1 hc).2.1⟩

theorem first_of_append (d : Linked h (u ++ p :: v)) : ∀ a ∈ (u ++ [p]).head?, h.pre a = none :=
  fun a ha => d.first a (by cases u <;> exact ha)

theorem last_of_append (d : Linked h (u ++ n :: v)) : ∀ a ∈ (n :: v).getLast?, h.next a = none :=
  fun a ha => d.last a (by rwa [List.getLast?_append_cons])

variable [DecidableEq L]

/-- Unlinking a location: its neighbours are pointed at each other. -/
theorem unlink (d : Linked h (u ++ p :: x :: n :: v)) :
    Linked ((h.setNext p (some n)).setPre n (some p)) (u ++ p :: n :: v) := by
  have hnd : (u ++ p :: n :: v).Nodup := by
    refine d.nodup.sublist (List.Sublist.append (List.Sublist.refl u) ?_)
    exact (List.sublist_cons_self x (n :: v)).cons_cons p
  obtain ⟨hpu, hpv, huv⟩ := split_nodup hnd
  have hnv : n ∉ v := (List.nodup_cons.1 (List.nodup_cons.1 (List.nodup_append.1 hnd).2.1).2).1
  have hnu : n ∉ u := fun hm => huv n hm List.mem_cons_self
  have hpn : p ≠ n := fun e => hpv (e ▸ List.mem_cons_self)
  have d' : Linked h ((u ++ [p, x]) ++ n :: v) := by simpa using d
  -- nothing is between `p` and `n` any more
  refine rejoin (m := []) d.chains.1 (List.isChain_cons_cons.1 d.chains.2).2 ?_ hnd (fun l hl => ?_) (fun l hl => ?_)
    d.first_of_append d'.last_of_append
  · simp [Adjacent]
  · have : l ≠ p := by rintro rfl; simp only [List.mem_append] at hl; tauto
    simp [this]
  · have : l ≠ n := by rintro rfl; simp only [List.mem_append, List.mem_cons] at hl; aesop
    simp [this]

/-- Linking a new location between two neighbours. -/
theorem link (d : Linked h (u ++ p :: n :: v)) (hx : x ∉ u ++ p :: n :: v) :
    Linked ((((h.setPre x (some p)).setNext x (some n)).setPre n (some x)).setNext p (some x))
      (u ++ p :: x :: n :: v) := by
  have hxn : x ≠ n := fun e => hx (by simp [e])
  have hxp : x ≠ p := fun e => hx (by simp [e])
  obtain ⟨hpu, hpv, huv⟩ := split_nodup d.nodup
  have hnv : n ∉ v := (List.nodup_cons.1 (List.nodup_cons.1 (List.nodup_append.1 d.nodup).2.1).2).1
  have hnu : n ∉ u := fun hm => huv n hm List.mem_cons_self
  have hpn : p ≠ n := fun e => hpv (e ▸ List.mem_cons_self)
  have hnd : (u ++ p :: x :: n :: v).Nodup := by
    have hperm : (u ++ p :: x :: n :: v).Perm (x :: (u ++ p :: n :: v)) := by
      rw [show u ++ p :: x :: n :: v = (u ++ [p]) ++ x :: n :: v by simp]
      exact List.perm_middle.trans (by simp)
    exact hperm.nodup_iff.2 (List.nodup_cons.2 ⟨hx, d.nodup⟩)
  have d' : Linked h ((u ++ [p]) ++ n :: v) := by simpa using d
  -- only the new location is between `p` and `n`
  refine rejoin (m := [x]) d.chains.1 d.chains.2 ?_ hnd (fun l hl => ?_) (fun l hl => ?_)
    d.first_of_append d'.last_of_append
  · simp [Adjacent, hxn, hxp]
  · have h1 : l ≠ p := by rintro rfl; simp only [List.mem_append] at hl; tauto
    have h2 : l ≠ x := by rintro rfl; simp only [List.mem_append, List.mem_cons] at hl hx; tauto
    simp [h1, h2]
  · have h1 : l ≠ n := by rintro rfl; simp only [List.mem_append, List.mem_cons] at hl; aesop
    have h2 : l ≠ x := by rintro rfl; simp only [List.mem_append, List.mem_cons] at hl hx; tauto
    simp [h1, h2]

/-- Unlinking a location strictly between the ends, found through its own pointers. -/
theorem unlink_inner {a z : L} {xs ys : List L} (d : Linked h (a :: (xs ++ x :: (ys ++ [z])))) :
    ∃ p n, h.pre x = some p ∧ h.next x = some n ∧ p ≠ x ∧ n ≠ x ∧
      Linked ((h.setNext p (some n)).setPre n (some p)) (a :: (xs ++ (ys ++ [z]))) := by
  obtain ⟨u, p, hup⟩ : ∃ u p, a :: xs = u ++ [p] :=
    ⟨(a :: xs).dropLast, (a :: xs).getLast (by simp), (List.dropLast_concat_getLast _).symm⟩
  obtain ⟨n, v, hnv⟩ : ∃ n v, ys ++ [z] = n :: v := by cases ys <;> exact ⟨_, _, rfl⟩
  have hfull : a :: (xs ++ x :: (ys ++ [z])) = u ++ p :: x :: n :: v := by
    rw [← List.cons_append, hup, hnv]; simp
  have hrest : a :: (xs ++ (ys ++ [z])) = u ++ p :: n :: v := by
    rw [← List.cons_append, hup, hnv]; simp
  rw [hfull] at d
  have d' : Linked h ((u ++ [p]) ++ x :: n :: v) := by simpa using d
  obtain ⟨-, hx, -⟩ := split_nodup d.nodup
  obtain ⟨-, hn, -⟩ := split_nodup d'.nodup
  rw [hrest]
  exact ⟨p, n, d.adjacent.2, d'.adjacent.1, fun e => hx (by simp [e]), fun e => hn (by simp [e]), d.unlink⟩

end Linked

end GoodGoodStudy.Lib
