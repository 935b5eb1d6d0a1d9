/-
Dictionaries that count the letters of a list, and windows of a list: a list has the letters of another one if no letter
occurs in it less often, and with the same length it is a permutation of it.
-/
import Mathlib.Data.List.Perm.Subperm
import GoodGoodStudy.Lib.Dict
import GoodGoodStudy.Lib.Loop

namespace GoodGoodStudy.Lib

variable {α : Type*} [DecidableEq α]

namespace Dict

/-- Count a letter once more; a letter that is not there is set to 1. -/
def incr (d : Dict α ℤ) (a : α) : Dict α ℤ := d.set a ((d.get? a).getD 0 + 1)

/-- Count all letters. -/
def tally (l : List α) : Dict α ℤ := l.foldl incr empty

theorem get?_tally (l : List α) (a : α) : (tally l).get? a = if a ∈ l then some (l.count a : ℤ) else none := by
  have hall : ∀ a, (tally l).get? a = if a ∈ l then some (l.count a : ℤ) else none :=
    foldl_mem (P := fun pre (d : Dict α ℤ) => ∀ a, d.get? a = if a ∈ pre then some (pre.count a : ℤ) else none) l
      (fun pre b _ d h a => by
        rw [incr, get?_set, h b, List.count_append]
        by_cases ha : a = b
        · subst ha
          by_cases hmem : a ∈ pre
          · simp [hmem]
          · simp [hmem, List.count_eq_zero_of_not_mem hmem]
        · rw [if_neg ha, h a]
          simp [ha, Ne.symm ha]) [] fun a => rfl
  exact hall a

theorem getD_tally (l : List α) (a : α) : ((tally l).get? a).getD 0 = l.count a := by
  rw [get?_tally]
  split_ifs with ha
  · rfl
  · rw [List.count_eq_zero_of_not_mem ha]
    rfl

theorem mem_keys_iff {β : Type*} {d : Dict α β} {a : α} : a ∈ d.keys ↔ (d.get? a).isSome := by
  rw [← not_iff_not, Option.not_isSome_iff_eq_none]
  exact lookup_eq_none.symm

theorem mem_keys_tally {l : List α} {a : α} : a ∈ (tally l).keys ↔ a ∈ l := by
  rw [mem_keys_iff, get?_tally]
  by_cases ha : a ∈ l <;> simp [ha]

section Same

variable {β : Type*} [DecidableEq β] {d d' : Dict α β}

/-- The same keys with the same values, in whatever order. -/
def same (d d' : Dict α β) : Bool :=
  d.items.length == d'.items.length && d.items.all fun p => d'.get? p.1 == some p.2

theorem same_iff : d.same d' = true ↔ ∀ a, d.get? a = d'.get? a := by
  simp only [same, Bool.and_eq_true, beq_iff_eq, List.all_eq_true]
  constructor
  · rintro ⟨hlen, hall⟩ a
    have hsub : d.keys ⊆ d'.keys := by
      intro b hb
      obtain ⟨p, hp, rfl⟩ := List.mem_map.1 hb
      rw [mem_keys_iff, hall p hp]
      rfl
    have hperm : d.keys.Perm d'.keys :=
      (d.nodupKeys.subperm hsub).perm_of_length_le (by simp [keys, hlen])
    cases hget : d.get? a with
    | some v => exact (hall (a, v) (get?_eq_some.1 hget)).symm
    | none =>
      have hnot : a ∉ d'.keys := fun hmem => by
        rw [← hperm.mem_iff, mem_keys_iff, hget] at hmem
        cases hmem
      rw [mem_keys_iff, Option.not_isSome_iff_eq_none] at hnot
      exact hnot.symm
  · intro h
    have hperm : d.keys.Perm d'.keys := by
      refine (List.perm_ext_iff_of_nodup d.nodupKeys d'.nodupKeys).2 fun a => ?_
      have hsome : (d.get? a).isSome ↔ (d'.get? a).isSome := by rw [h a]
      exact mem_keys_iff.trans (hsome.trans mem_keys_iff.symm)
    refine ⟨by simpa [keys] using hperm.length_eq, fun p hp => ?_⟩
    rw [← h p.1]
    exact get?_eq_some.2 hp

end Same

/-- Two lists have the same letters if these are counted alike. -/
theorem same_tally_iff {l l' : List α} : (tally l).same (tally l') = true ↔ l.Perm l' := by
  rw [same_iff, List.perm_iff_count]
  refine forall_congr' fun a => ⟨fun h => ?_, fun h => ?_⟩
  · rw [← Int.ofNat_inj, ← getD_tally, ← getD_tally, h]
  · have hmem : a ∈ l ↔ a ∈ l' := by rw [← List.count_pos_iff, h, List.count_pos_iff]
    rw [get?_tally, get?_tally, h, if_congr hmem rfl rfl]

end Dict

/-! ## As many letters -/

section Subperm

variable {α : Type*} {w p : List α}

/-- A list that is not longer has all letters if it is a permutation. -/
theorem perm_iff_subperm (hlen : w.length ≤ p.length) : w.Perm p ↔ p.Subperm w :=
  ⟨fun h => h.symm.subperm, fun h => (h.perm_of_length_le hlen).symm⟩

theorem not_subperm_nil (hp : p ≠ []) : ¬ p.Subperm [] := fun h =>
  hp (List.eq_nil_of_length_eq_zero (Nat.le_zero.1 h.length_le))

end Subperm

/-- How many elements have a property, if one of them may have changed. -/
theorem countP_change {l : List α} (hl : l.Nodup) {f g : α → Bool} {a : α} (ha : a ∈ l) (h : ∀ b, b ≠ a → f b = g b) :
    l.countP g + (if f a then 1 else 0) = l.countP f + if g a then 1 else 0 := by
  have hperm := List.perm_cons_erase ha
  have hrest : (l.erase a).countP f = (l.erase a).countP g := by
    refine List.countP_congr fun b hb => ?_
    rw [h b (hl.mem_erase_iff.1 hb).1]
  rw [hperm.countP_eq, hperm.countP_eq f, List.countP_cons, List.countP_cons, hrest]
  omega

/-! ## Windows -/

section Window

variable {α : Type*} {l : List α} {i j : ℕ} {a : α}

/-- The letters from `i` up to `j`. -/
def window (l : List α) (i j : ℕ) : List α := (l.take j).drop i

theorem length_window (hj : j ≤ l.length) : (window l i j).length = j - i := by
  rw [window, List.length_drop, List.length_take, min_eq_left hj]

theorem mem_window_iff : a ∈ window l i j ↔ ∃ t, i ≤ t ∧ t < j ∧ l[t]? = some a := by
  rw [window, List.mem_iff_getElem?]
  simp only [List.getElem?_drop, List.getElem?_take]
  constructor
  · rintro ⟨k, hk⟩
    obtain ⟨hlt, hget⟩ := Option.ite_none_right_eq_some.1 hk
    exact ⟨i + k, Nat.le_add_right i k, hlt, hget⟩
  · rintro ⟨t, hle, hlt, hget⟩
    refine ⟨t - i, ?_⟩
    rw [Nat.add_sub_cancel' hle, if_pos hlt, hget]

theorem length_window_le : (window l i (i + j)).length ≤ j := by
  rw [window, List.length_drop, List.length_take]
  omega

theorem window_succ (hij : i ≤ j) (ha : l[j]? = some a) : window l i (j + 1) = window l i j ++ [a] := by
  rw [window, List.take_add_one, ha, List.drop_append_of_le_length]
  · rfl
  · rw [List.length_take, min_eq_left (List.getElem?_eq_some_iff.1 ha).1.le]
    exact hij

theorem window_eq_cons (hij : i < j) (ha : l[i]? = some a) : window l i j = a :: window l (i + 1) j := by
  have hi : (l.take j)[i]? = some a := by rw [List.getElem?_take_of_lt hij, ha]
  obtain ⟨hlen, rfl⟩ := List.getElem?_eq_some_iff.1 hi
  exact List.drop_eq_getElem_cons hlen

theorem window_sublist {i' : ℕ} (hi : i ≤ i') : (window l i' j).Sublist (window l i j) := by
  rw [window, window, ← Nat.sub_add_cancel hi, Nat.add_comm, ← List.drop_drop]
  exact List.drop_sublist _ _

theorem window_infix (l : List α) (i j : ℕ) : window l i j <:+: l :=
  (List.drop_suffix i _).isInfix.trans (List.take_prefix j l).isInfix

theorem exists_window {v : List α} (hv : v <:+: l) : ∃ i j, i ≤ j ∧ j ≤ l.length ∧ v = window l i j := by
  obtain ⟨pre, post, rfl⟩ := hv
  refine ⟨pre.length, (pre ++ v).length, by simp, by simp, ?_⟩
  rw [window, List.take_left, List.drop_left]

end Window

end GoodGoodStudy.Lib
