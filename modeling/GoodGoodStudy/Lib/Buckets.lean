/-
Tables of buckets. Every element has its bucket; a table in which each element stands in its own one finds it there and
nowhere else. Writing one bucket leaves the elements of the others as they are.
-/
import Mathlib.Data.List.Flatten
import Mathlib.Data.List.Perm.Basic

namespace GoodGoodStudy.Lib

variable {α : Type*} {place : α → ℕ} {table : List (List α)} {i : ℕ} {b b' : List α}

/-- Each element stands in its own bucket. -/
def Placed (place : α → ℕ) (table : List (List α)) : Prop := ∀ i b, table[i]? = some b → ∀ a ∈ b, place a = i

theorem mem_flatten_of_getElem? (hi : table[i]? = some b) {a : α} (ha : a ∈ b) : a ∈ table.flatten :=
  List.mem_flatten_of_mem (List.mem_of_getElem? hi) ha

theorem Placed.mem_flatten_iff (h : Placed place table) {a : α} :
    a ∈ table.flatten ↔ ∃ b, table[place a]? = some b ∧ a ∈ b := by
  constructor
  · intro ha
    obtain ⟨b, hb, hab⟩ := List.mem_flatten.1 ha
    obtain ⟨i, hi⟩ := List.getElem?_of_mem hb
    exact ⟨b, (h i b hi a hab).symm ▸ hi, hab⟩
  · rintro ⟨b, hb, hab⟩
    exact mem_flatten_of_getElem? hb hab

/-- An element of the table stands in the bucket in which it is looked up. -/
theorem Placed.mem_bucket (h : Placed place table) {a : α} (ha : a ∈ table.flatten) (hb : table[place a]? = some b) :
    a ∈ b := by
  obtain ⟨b', hb', hab⟩ := h.mem_flatten_iff.1 ha
  rw [hb] at hb'
  cases hb'
  exact hab

theorem Placed.set (h : Placed place table) (hb' : ∀ a ∈ b', place a = i) : Placed place (table.set i b') := by
  intro j c hj a ha
  rw [List.getElem?_set] at hj
  split_ifs at hj with hij hlt
  · cases hj
    exact (hb' a ha).trans hij
  · exact h j c hj a ha

theorem placed_replicate (n : ℕ) : Placed place (List.replicate n []) := by
  intro i b hi a ha
  rw [List.eq_of_mem_replicate (List.mem_of_getElem? hi)] at ha
  cases ha

/-- The elements of one bucket and those of the others. -/
theorem flatten_set_perm (hi : table[i]? = some b) :
    ∃ rest, table.flatten.Perm (b ++ rest) ∧ ∀ b', (table.set i b').flatten.Perm (b' ++ rest) := by
  obtain ⟨hlt, rfl⟩ := List.getElem?_eq_some_iff.1 hi
  have hset : ∀ b' : List α, (table.set i b').flatten.Perm (b' ++ ((table.take i).flatten ++ (table.drop (i + 1)).flatten)) := by
    intro b'
    rw [List.set_eq_take_append_cons_drop, if_pos hlt, List.flatten_append, List.flatten_cons]
    exact List.perm_append_comm_assoc _ _ _
  refine ⟨_, ?_, hset⟩
  have hself := hset table[i]
  rwa [List.set_getElem_self] at hself

end GoodGoodStudy.Lib
