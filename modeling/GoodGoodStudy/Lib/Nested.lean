/-
Nested dictionaries: a value is a leaf, or a dictionary whose entries are values again, in the order in which their
keys came. `walk` goes down along a list of keys. The rules say where the paths of a dictionary lead after an entry was
set or deleted.
-/
import GoodGoodStudy.Lib.Dict

namespace GoodGoodStudy.Lib

inductive Nested (κ β : Type)
  | leaf (b : β)
  | dict (items : List (κ × Nested κ β))

namespace Nested

section Items

variable {κ ν : Type} [DecidableEq κ]

/-- Overwrite in place, or append a new key. -/
def setItem (items : List (κ × ν)) (k : κ) (v : ν) : List (κ × ν) :=
  if k ∈ items.map Prod.fst then items.map fun p => if p.1 = k then (k, v) else p else items ++ [(k, v)]

/-- Delete a key. -/
def eraseItem (items : List (κ × ν)) (k : κ) : List (κ × ν) := items.filter fun p => decide (p.1 ≠ k)

theorem lookup_setItem (items : List (κ × ν)) (k k' : κ) (v : ν) :
    (setItem items k v).lookup k' = if k' = k then some v else items.lookup k' := by
  unfold setItem
  split_ifs with h hk hk
  · rw [Dict.lookup_map_set, if_pos ⟨hk, h⟩]
  · rw [Dict.lookup_map_set, if_neg fun hand => hk hand.1]
  · rw [List.lookup_append, hk, Dict.lookup_eq_none.2 h, Option.none_or, List.lookup_cons_self]
  · have hone : [(k, v)].lookup k' = none := Dict.lookup_eq_none.2 (by simpa using hk)
    rw [List.lookup_append, hone, Option.or_none]

/-- Overwriting an entry that was just put there. -/
theorem setItem_setItem {items : List (κ × ν)} {k : κ} (h : items.lookup k = none) (v w : ν) :
    setItem (setItem items k v) k w = setItem items k w := by
  have hk : k ∉ items.map Prod.fst := Dict.lookup_eq_none.1 h
  have hsame : items.map (fun p => if p.1 = k then (k, w) else p) = items := by
    refine (List.map_congr_left fun p hp => ?_).trans (List.map_id items)
    have hne : p.1 ≠ k := fun he => hk (he ▸ List.mem_map_of_mem hp)
    exact if_neg hne
  unfold setItem
  rw [if_neg hk, if_neg hk, if_pos (by simp), List.map_append, hsame]
  simp

theorem lookup_eraseItem (items : List (κ × ν)) (k k' : κ) :
    (eraseItem items k).lookup k' = if k' = k then none else items.lookup k' := Dict.lookup_filter items k k'

end Items

variable {κ β : Type} [DecidableEq κ]

/-- The value under a key. -/
def get? : Nested κ β → κ → Option (Nested κ β)
  | leaf _, _ => none
  | dict items, k => items.lookup k

@[simp] theorem get?_dict (items : List (κ × Nested κ β)) (k : κ) : (dict items).get? k = items.lookup k := rfl

/-- The value at the end of a path. -/
def walk : Nested κ β → List κ → Option (Nested κ β)
  | t, [] => some t
  | t, k :: path => (t.get? k).bind fun child => child.walk path

@[simp] theorem walk_nil (t : Nested κ β) : t.walk [] = some t := by cases t <;> rfl

theorem walk_cons (t : Nested κ β) (k : κ) (path : List κ) :
    t.walk (k :: path) = (t.get? k).bind fun child => child.walk path := by cases t <;> rfl

theorem walk_cons_of_get {t child : Nested κ β} {k : κ} (h : t.get? k = some child) (path : List κ) :
    t.walk (k :: path) = child.walk path := by
  rw [walk_cons, h, Option.bind_some]

theorem walk_cons_of_none {t : Nested κ β} {k : κ} (h : t.get? k = none) (path : List κ) :
    t.walk (k :: path) = none := by
  rw [walk_cons, h, Option.bind_none]

theorem walk_empty {path : List κ} (h : path ≠ []) : (dict [] : Nested κ β).walk path = none := by
  cases path with
  | nil => exact absurd rfl h
  | cons k path => exact walk_cons_of_none rfl path

/-- A path through the entry that was set goes on in the new value, and the others go where they went. -/
theorem walk_setItem (items : List (κ × Nested κ β)) (k k' : κ) (v : Nested κ β) (path : List κ) :
    (dict (setItem items k v)).walk (k' :: path) = if k' = k then v.walk path else (dict items).walk (k' :: path) := by
  rw [walk_cons, walk_cons, get?_dict, get?_dict, lookup_setItem]
  split_ifs
  · rw [Option.bind_some]
  · rfl

end Nested

end GoodGoodStudy.Lib
