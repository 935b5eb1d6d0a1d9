/-
Insertion-ordered finite maps, the dictionaries of a scripting language: an association list with
distinct keys, in the order in which the keys were first inserted. Overwriting a key keeps its
place; deleting a key and inserting it again moves it to the end.

Besides lookup, update and deletion the module has the multimap idiom `push` (append to the list
stored under a key, created on first use) and its iteration `pushAll`, with the law that a key is
sent to the values pushed under it, in order.
-/
import Mathlib.Data.List.Nodup
import Mathlib.Data.List.Infix
import Mathlib.Data.List.Perm.Basic

namespace GoodGoodStudy.Lib

/-- A finite map in insertion order. -/
structure Dict (α β : Type*) where
  items : List (α × β)
  nodupKeys : (items.map Prod.fst).Nodup

namespace Dict

variable {α β : Type*}

def empty : Dict α β := ⟨[], List.nodup_nil⟩

def keys (d : Dict α β) : List α := d.items.map Prod.fst

/-- The same keys with other values. -/
def mapValues {γ : Type*} (f : β → γ) (d : Dict α β) : Dict α γ :=
  ⟨d.items.map fun p => (p.1, f p.2), by rw [List.map_map]; exact d.nodupKeys⟩

variable [DecidableEq α]

def get? (d : Dict α β) (k : α) : Option β := d.items.lookup k

def contains (d : Dict α β) (k : α) : Bool := (d.get? k).isSome

/-! ## Lookup and membership -/

theorem lookup_eq_some {l : List (α × β)} (hl : (l.map Prod.fst).Nodup) {k : α} {v : β} :
    l.lookup k = some v ↔ (k, v) ∈ l := by
  induction l with
  | nil => simp
  | cons p l ih =>
    obtain ⟨k', v'⟩ := p
    rw [List.map_cons, List.nodup_cons] at hl
    rw [List.lookup_cons]
    by_cases hk : k = k'
    · subst hk
      have hno : ∀ w, (k, w) ∉ l := fun w hw => hl.1 (List.mem_map.2 ⟨_, hw, rfl⟩)
      simp [hno, eq_comm]
    · rw [beq_eq_false_iff_ne.2 hk]
      simp [ih hl.2, hk]

theorem lookup_eq_none {l : List (α × β)} {k : α} : l.lookup k = none ↔ k ∉ l.map Prod.fst := by
  induction l with
  | nil => simp
  | cons p l ih =>
    rw [List.lookup_cons]
    by_cases hk : k = p.1
    · simp [hk]
    · rw [beq_eq_false_iff_ne.2 hk]
      simpa [hk] using ih

theorem get?_eq_some {d : Dict α β} {k : α} {v : β} : d.get? k = some v ↔ (k, v) ∈ d.items :=
  lookup_eq_some d.nodupKeys

@[simp] theorem get?_empty (k : α) : (empty : Dict α β).get? k = none := rfl

/-! ## Update -/

/-- Overwrite in place, or append a new key. -/
def set (d : Dict α β) (k : α) (v : β) : Dict α β :=
  if h : k ∈ d.keys then
    ⟨d.items.map fun p => if p.1 = k then (k, v) else p, by
      have hm : (d.items.map fun p => if p.1 = k then (k, v) else p).map Prod.fst = d.keys := by
        rw [List.map_map, keys]
        refine List.map_congr_left fun p _ => ?_
        simp only [Function.comp_apply]
        split <;> simp_all
      rw [hm]; exact d.nodupKeys⟩
  else
    ⟨d.items ++ [(k, v)], by
      rw [List.map_append, List.map_cons, List.map_nil]
      exact List.nodup_append.2 ⟨d.nodupKeys, List.nodup_singleton _, fun a ha b hb hab => by
        rw [List.mem_singleton] at hb; subst hab; subst hb; exact h ha⟩⟩

/-- Delete a key. -/
def erase (d : Dict α β) (k : α) : Dict α β :=
  ⟨d.items.filter fun p => decide (p.1 ≠ k), by
    refine d.nodupKeys.sublist (List.Sublist.map _ ?_)
    exact List.filter_sublist⟩

theorem lookup_map_set (l : List (α × β)) (k k' : α) (v : β) :
    (l.map fun p => if p.1 = k then (k, v) else p).lookup k' =
      if k' = k ∧ k ∈ l.map Prod.fst then some v else l.lookup k' := by
  induction l with
  | nil => simp
  | cons p l ih =>
    obtain ⟨a, b⟩ := p
    rw [List.map_cons, List.lookup_cons (k := a)]
    by_cases ha : a = k
    · subst ha
      rw [if_pos rfl, List.lookup_cons, ih]
      by_cases hk : k' = a
      · simp [hk]
      · simp [hk, beq_eq_false_iff_ne.2 hk]
    · rw [if_neg ha, List.lookup_cons, ih]
      by_cases hk : k' = k
      · subst hk
        simp [Ne.symm ha, beq_eq_false_iff_ne.2 (Ne.symm ha), -List.mem_map]
      · simp [hk]

@[simp] theorem get?_set (d : Dict α β) (k k' : α) (v : β) :
    (d.set k v).get? k' = if k' = k then some v else d.get? k' := by
  unfold set
  split
  · rename_i h
    simp only [get?]
    rw [lookup_map_set]
    simp only [keys] at h
    simp [h]
  · rename_i h
    simp only [get?]
    rw [List.lookup_append]
    by_cases hk : k' = k
    · subst hk
      have : d.items.lookup k' = none := lookup_eq_none.2 h
      simp [this]
    · have : [(k, v)].lookup k' = none := by rw [lookup_eq_none]; simpa using hk
      simp [this, hk]

theorem lookup_filter (l : List (α × β)) (k k' : α) :
    (l.filter fun p => decide (p.1 ≠ k)).lookup k' = if k' = k then none else l.lookup k' := by
  induction l with
  | nil => simp
  | cons p l ih =>
    obtain ⟨a, b⟩ := p
    by_cases ha : a = k
    · subst ha
      rw [List.filter_cons_of_neg (by simp), ih, List.lookup_cons]
      by_cases hk : k' = a
      · simp [hk]
      · simp [hk, beq_eq_false_iff_ne.2 hk]
    · rw [List.filter_cons_of_pos (by simpa using ha), List.lookup_cons, ih, List.lookup_cons]
      by_cases hk : k' = k
      · subst hk; simp [beq_eq_false_iff_ne.2 (Ne.symm ha)]
      · simp [hk]

@[simp] theorem get?_erase (d : Dict α β) (k k' : α) :
    (d.erase k).get? k' = if k' = k then none else d.get? k' := lookup_filter d.items k k'

/-- Set pairs one after the other. -/
def setAll (d : Dict α β) (ps : List (α × β)) : Dict α β := ps.foldl (fun d p => d.set p.1 p.2) d

/-- After setting pairs a key holds the value of one of its pairs, or what it held if it has none. -/
theorem get?_setAll (d : Dict α β) (ps : List (α × β)) (k : α) :
    (∃ v, (k, v) ∈ ps ∧ (d.setAll ps).get? k = some v) ∨
      (k ∉ ps.map Prod.fst ∧ (d.setAll ps).get? k = d.get? k) := by
  induction ps generalizing d with
  | nil => exact .inr ⟨List.not_mem_nil, rfl⟩
  | cons p ps ih =>
    rw [show d.setAll (p :: ps) = (d.set p.1 p.2).setAll ps from rfl]
    obtain ⟨v, hv, hget⟩ | ⟨hk, hget⟩ := ih (d.set p.1 p.2)
    · exact .inl ⟨v, List.mem_cons_of_mem _ hv, hget⟩
    · rw [get?_set] at hget
      by_cases hp : k = p.1
      · rw [if_pos hp] at hget
        exact .inl ⟨p.2, hp ▸ List.mem_cons_self, hget⟩
      · rw [if_neg hp] at hget
        refine .inr ⟨?_, hget⟩
        rw [List.map_cons, List.mem_cons, not_or]
        exact ⟨hp, hk⟩

/-! ## Multimaps -/

/-- Append a value to the list stored under `k`, the empty list when there is none. -/
def push (d : Dict α (List β)) (k : α) (v : β) : Dict α (List β) :=
  d.set k ((d.get? k).getD [] ++ [v])

/-- Push pairs one after the other. -/
def pushAll (d : Dict α (List β)) (ps : List (α × β)) : Dict α (List β) :=
  ps.foldl (fun d p => d.push p.1 p.2) d

/-- The values paired with `k`, in order. -/
def valuesOf (k : α) (ps : List (α × β)) : List β :=
  ps.filterMap fun p => if p.1 = k then some p.2 else none

@[simp] theorem valuesOf_nil (k : α) : valuesOf k ([] : List (α × β)) = [] := rfl

theorem valuesOf_cons (k : α) (p : α × β) (ps : List (α × β)) :
    valuesOf k (p :: ps) = if p.1 = k then p.2 :: valuesOf k ps else valuesOf k ps := by
  unfold valuesOf
  rw [List.filterMap_cons]
  split <;> split <;> simp_all

theorem valuesOf_eq (k : α) (ps : List (α × β)) :
    valuesOf k ps = (ps.filter fun p => decide (p.1 = k)).map Prod.snd := by
  induction ps with
  | nil => rfl
  | cons p ps ih =>
    rw [valuesOf_cons, List.filter_cons, ih]
    by_cases hp : p.1 = k <;> simp [hp]

theorem valuesOf_eq_nil {k : α} {ps : List (α × β)} : valuesOf k ps = [] ↔ k ∉ ps.map Prod.fst := by
  induction ps with
  | nil => simp
  | cons p ps ih =>
    rw [valuesOf_cons]
    by_cases hp : p.1 = k
    · simp [hp]
    · rw [if_neg hp, ih]
      simp [Ne.symm hp]

/-- Pairs with the keys of the first of some other pairs, and with all their values, are these. -/
theorem eq_of_valuesOf_eq {ps qs : List (α × β)} (hkeys : ps.map Prod.fst <+: qs.map Prod.fst)
    (h : ∀ k ∈ qs.map Prod.fst, valuesOf k ps = valuesOf k qs) : ps = qs := by
  induction qs generalizing ps with
  | nil => simpa using hkeys
  | cons q qs ih =>
    obtain ⟨k, v⟩ := q
    have hk := h k (by simp)
    rw [valuesOf_cons, if_pos rfl] at hk
    cases ps with
    | nil => cases hk
    | cons p ps =>
      obtain ⟨k', v'⟩ := p
      obtain ⟨rfl, hrest⟩ := List.cons_prefix_cons.1 hkeys
      rw [valuesOf_cons, if_pos rfl] at hk
      obtain ⟨hv, -⟩ := List.cons.inj hk
      rw [ih hrest fun j hj => ?_]
      · exact congrArg (fun w => (k', w) :: qs) hv
      · have hj := h j (List.mem_cons_of_mem _ hj)
        rw [valuesOf_cons, valuesOf_cons] at hj
        by_cases hkj : k' = j
        · rw [if_pos hkj, if_pos hkj] at hj
          exact (List.cons.inj hj).2
        · rwa [if_neg hkj, if_neg hkj] at hj

/-- After pushing pairs a key holds what it held, followed by the values pushed under it. -/
theorem get?_pushAll (d : Dict α (List β)) (ps : List (α × β)) (k : α) :
    (d.pushAll ps).get? k =
      if k ∈ ps.map Prod.fst then some ((d.get? k).getD [] ++ valuesOf k ps) else d.get? k := by
  induction ps generalizing d with
  | nil => simp [pushAll]
  | cons p ps ih =>
    rw [show d.pushAll (p :: ps) = (d.push p.1 p.2).pushAll ps from rfl, ih, push, get?_set, valuesOf_cons]
    by_cases hp : p.1 = k
    · subst hp
      by_cases hm : p.1 ∈ ps.map Prod.fst
      · simp [hm]
      · simp [hm, valuesOf_eq_nil.2 hm]
    · have hp' : ¬ k = p.1 := fun h => hp h.symm
      simp [hp, hp', -List.mem_map]

/-- The map built from pairs sends each key of a pair to its values in order. -/
theorem get?_pushAll_empty_of_mem {ps : List (α × β)} {k : α} (hk : k ∈ ps.map Prod.fst) :
    ((empty : Dict α (List β)).pushAll ps).get? k = some (valuesOf k ps) := by
  rw [get?_pushAll, if_pos hk]; simp

/-- The map built from pairs has no other keys. -/
theorem get?_pushAll_empty_of_not_mem {ps : List (α × β)} {k : α} (hk : k ∉ ps.map Prod.fst) :
    ((empty : Dict α (List β)).pushAll ps).get? k = none := by
  rw [get?_pushAll, if_neg hk]; rfl

end Dict

end GoodGoodStudy.Lib
