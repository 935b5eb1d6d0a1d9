/-
The greatest total value of some items of a list whose total weight is bounded. Items are told apart by their places in
the list. They are chosen from the last one to the first, and it may depend on the capacity that is left whether an item
can be chosen at all (`room`); with room for every capacity only the total weight matters.
-/
import Mathlib.Algebra.BigOperators.Group.List.Basic
import Mathlib.Algebra.Order.Group.Nat
import Mathlib.Algebra.Order.Sub.Basic
import Mathlib.Order.Bounds.Basic

namespace GoodGoodStudy.Lib

variable {ι M V : Type*}

/-- The items can be chosen one after the other. -/
def Packs [LE M] [Sub M] (room : M → Prop) (weight : ι → M) : List ι → M → Prop
  | [], _ => True
  | a :: ts, c => room c ∧ weight a ≤ c ∧ Packs room weight ts (c - weight a)

/-- The greatest total value of a choice of items. -/
def IsBest [LE M] [Sub M] [AddMonoid V] [LE V] (room : M → Prop) (weight : ι → M) (value : ι → V) (items : List ι)
    (c : M) : V → Prop :=
  IsGreatest {x | ∃ ts : List ι, ts.Sublist items ∧ Packs room weight ts.reverse c ∧ (ts.map value).sum = x}

section Best

variable [LE M] [Sub M] [AddCommMonoid V] [LinearOrder V] {room : M → Prop} {weight : ι → M} {value : ι → V}
  {items : List ι} {a : ι} {c : M} {v v' : V}

theorem isBest_nil : IsBest room weight value [] c 0 := by
  refine ⟨⟨[], .slnil, trivial, rfl⟩, ?_⟩
  rintro x ⟨ts, hts, -, rfl⟩
  rw [List.sublist_nil.1 hts, List.map_nil, List.sum_nil]

/-- Where there is no room, there is none for a first item. -/
theorem isBest_of_not_room (hno : ¬ room c) : IsBest room weight value items c 0 := by
  refine ⟨⟨[], List.nil_sublist items, trivial, rfl⟩, ?_⟩
  rintro x ⟨ts, -, hpacks, rfl⟩
  cases hts : ts.reverse with
  | nil =>
    rw [List.reverse_eq_nil_iff.1 hts]
    exact le_rfl
  | cons a us =>
    rw [hts] at hpacks
    exact absurd hpacks.1 hno

theorem sublist_concat_iff {ts : List ι} :
    ts.Sublist (items ++ [a]) ↔ ts.Sublist items ∨ ∃ us, ts = us ++ [a] ∧ us.Sublist items := by
  rw [List.sublist_append_iff]
  constructor
  · rintro ⟨us, vs, rfl, hus, hvs⟩
    rcases List.sublist_singleton.1 hvs with rfl | rfl
    · exact Or.inl (by rwa [List.append_nil])
    · exact Or.inr ⟨us, rfl, hus⟩
  · rintro (h | ⟨us, rfl, hus⟩)
    · exact ⟨ts, [], (List.append_nil ts).symm, h, List.nil_sublist _⟩
    · exact ⟨us, [a], rfl, hus, List.Sublist.refl _⟩

/-- The last item is not chosen, or it is chosen first. -/
theorem packs_concat_iff {ts : List ι} :
    ts.Sublist (items ++ [a]) ∧ Packs room weight ts.reverse c ↔
      (ts.Sublist items ∧ Packs room weight ts.reverse c) ∨
        ∃ us, ts = us ++ [a] ∧ us.Sublist items ∧ room c ∧ weight a ≤ c ∧
          Packs room weight us.reverse (c - weight a) := by
  rw [sublist_concat_iff, or_and_right]
  refine or_congr_right ⟨?_, ?_⟩
  · rintro ⟨⟨us, rfl, hus⟩, hpacks⟩
    rw [List.reverse_append, List.reverse_singleton] at hpacks
    exact ⟨us, rfl, hus, hpacks⟩
  · rintro ⟨us, rfl, hus, hpacks⟩
    refine ⟨⟨us, rfl, hus⟩, ?_⟩
    rw [List.reverse_append, List.reverse_singleton]
    exact hpacks

theorem IsBest.concat_skip (h : IsBest room weight value items c v) (hno : ¬ (room c ∧ weight a ≤ c)) :
    IsBest room weight value (items ++ [a]) c v := by
  obtain ⟨⟨ts, hts, hpacks, hsum⟩, hle⟩ := h
  refine ⟨⟨ts, hts.trans (List.sublist_append_left _ _), hpacks, hsum⟩, ?_⟩
  rintro x ⟨us, hus, hpacks', rfl⟩
  rcases packs_concat_iff.1 ⟨hus, hpacks'⟩ with ⟨hus, hpacks'⟩ | ⟨_, -, -, hroom, hweight, -⟩
  · exact hle ⟨us, hus, hpacks', rfl⟩
  · exact absurd ⟨hroom, hweight⟩ hno

theorem IsBest.concat_take [IsOrderedAddMonoid V] (h : IsBest room weight value items c v)
    (h' : IsBest room weight value items (c - weight a) v') (hroom : room c) (hweight : weight a ≤ c) :
    IsBest room weight value (items ++ [a]) c (max v (v' + value a)) := by
  obtain ⟨⟨ts, hts, hpacks, hsum⟩, hle⟩ := h
  obtain ⟨⟨ts', hts', hpacks', hsum'⟩, hle'⟩ := h'
  constructor
  · rcases max_choice v (v' + value a) with hmax | hmax
    · rw [hmax]
      exact ⟨ts, hts.trans (List.sublist_append_left _ _), hpacks, hsum⟩
    · rw [hmax]
      obtain ⟨hsub, hpack⟩ := packs_concat_iff.2 (Or.inr ⟨ts', rfl, hts', hroom, hweight, hpacks'⟩)
      exact ⟨ts' ++ [a], hsub, hpack, by rw [List.map_append, List.sum_append, hsum']; simp⟩
  · rintro x ⟨us, hus, hpack, rfl⟩
    rcases packs_concat_iff.1 ⟨hus, hpack⟩ with ⟨hus, hpack⟩ | ⟨us, rfl, hus, -, -, hpack⟩
    · exact le_max_of_le_left (hle ⟨us, hus, hpack, rfl⟩)
    · refine le_max_of_le_right ?_
      rw [List.map_append, List.sum_append, List.map_singleton, List.sum_singleton]
      exact add_le_add_left (hle' ⟨us, hus, hpack, rfl⟩) _

end Best

section Weight

variable [AddCommMonoid M] [PartialOrder M] [CanonicallyOrderedAdd M] [Sub M] [OrderedSub M] [AddLeftReflectLE M]
  [AddLeftMono M] {room : M → Prop} {weight : ι → M}

/-- The items can be chosen one after the other if they are not too heavy together, and if there is room for each of
them beside those that are chosen before it. -/
theorem packs_iff {ts : List ι} {c : M} : Packs room weight ts c ↔
    (ts.map weight).sum ≤ c ∧ ∀ us a vs, ts = us ++ a :: vs → room (c - (us.map weight).sum) := by
  induction ts generalizing c with
  | nil => simp [Packs]
  | cons b ts ih =>
    rw [Packs, ih, List.map_cons, List.sum_cons]
    constructor
    · rintro ⟨hroom, hb, hsum, h⟩
      refine ⟨(le_tsub_iff_left hb).1 hsum, fun us a vs hsplit => ?_⟩
      cases us with
      | nil => rwa [List.map_nil, List.sum_nil, tsub_zero]
      | cons u us =>
        obtain ⟨rfl, rfl⟩ := List.cons.inj hsplit
        rw [List.map_cons, List.sum_cons, tsub_add_eq_tsub_tsub]
        exact h us a vs rfl
    · rintro ⟨hsum, h⟩
      have hb : weight b ≤ c := le_self_add.trans hsum
      refine ⟨?_, hb, (le_tsub_iff_left hb).2 hsum, fun us a vs hsplit => ?_⟩
      · simpa using h [] b ts rfl
      · have hroom := h (b :: us) a vs (by rw [hsplit]; rfl)
        rwa [List.map_cons, List.sum_cons, tsub_add_eq_tsub_tsub] at hroom

/-- Items that come behind one another in a list, chosen from the last one to the first. -/
theorem packs_reverse_iff {ts : List ι} {c : M} : Packs room weight ts.reverse c ↔
    (ts.map weight).sum ≤ c ∧ ∀ us a vs, ts = us ++ a :: vs → room (c - (vs.map weight).sum) := by
  rw [packs_iff, List.map_reverse, List.sum_reverse]
  refine and_congr_right fun _ => ⟨fun h us a vs hsplit => ?_, fun h us a vs hsplit => ?_⟩
  · have hroom := h vs.reverse a us.reverse (by rw [hsplit]; simp)
    rwa [List.map_reverse, List.sum_reverse] at hroom
  · have hroom := h vs.reverse a us.reverse (by rw [← List.reverse_reverse ts, hsplit]; simp)
    rwa [List.map_reverse, List.sum_reverse] at hroom

theorem packs_true_iff {ts : List ι} {c : M} : Packs (fun _ => True) weight ts c ↔ (ts.map weight).sum ≤ c := by
  rw [packs_iff]
  simp

end Weight

end GoodGoodStudy.Lib
