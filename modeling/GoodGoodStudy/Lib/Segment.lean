/-
Singly linked lists: the pointer of every location, and what it means that the pointers from one location to another
pass through a list of locations. A list that ends passes through no location twice.
-/
import Mathlib.Data.List.Nodup
import GoodGoodStudy.Lib.Loop

namespace GoodGoodStudy.Lib

variable {L : Type*}

/-- The pointers from `p` on pass through the locations of the list and then come to `q`. -/
def Segment (next : L → Option L) : Option L → List L → Option L → Prop
  | p, [], q => p = q
  | p, x :: xs, q => p = some x ∧ Segment next (next x) xs q

variable {next next' : L → Option L} {p q : Option L} {xs ys : List L}

theorem segment_append : ∀ {xs : List L} {p : Option L},
    Segment next p (xs ++ ys) q ↔ ∃ mid, Segment next p xs mid ∧ Segment next mid ys q
  | [], p => ⟨fun h => ⟨p, rfl, h⟩, fun ⟨_, hp, h⟩ => hp ▸ h⟩
  | x :: xs, p => by
    simp only [List.cons_append, Segment, and_assoc, exists_and_left]
    exact and_congr_right fun _ => segment_append

namespace Segment

/-- The pointers of other locations may change. -/
theorem congr (hsame : ∀ x ∈ xs, next' x = next x) (h : Segment next p xs q) : Segment next' p xs q := by
  induction xs generalizing p with
  | nil => exact h
  | cons x xs ih =>
    refine ⟨h.1, ?_⟩
    rw [hsame x List.mem_cons_self]
    exact ih (fun y hy => hsame y (List.mem_cons_of_mem x hy)) h.2

theorem eq_of_none (h : Segment next p xs none) (h' : Segment next p ys none) : xs = ys := by
  induction xs generalizing p ys with
  | nil =>
    cases ys with
    | nil => rfl
    | cons y ys => exact absurd (h.symm.trans h'.1) (Option.some_ne_none y).symm
  | cons x xs ih =>
    cases ys with
    | nil => exact absurd (h'.symm.trans h.1) (Option.some_ne_none x).symm
    | cons y ys =>
      obtain rfl : x = y := Option.some.inj (h.1.symm.trans h'.1)
      rw [ih h.2 h'.2]

/-- A location that came twice would come again and again. -/
theorem nodup (h : Segment next p xs none) : xs.Nodup := by
  induction xs generalizing p with
  | nil => exact List.nodup_nil
  | cons x xs ih =>
    refine List.nodup_cons.2 ⟨fun hx => ?_, ih h.2⟩
    obtain ⟨as, bs, rfl⟩ := List.append_of_mem hx
    obtain ⟨mid, -, hmid⟩ := segment_append.1 h.2
    have heq := eq_of_none h.2 hmid.2
    have hlen := congrArg List.length heq
    simp at hlen
    omega

/-- No location is passed before. -/
theorem not_mem_passed {pre rest : List L} {x : L} (h : Segment next p xs none) (hxs : pre ++ x :: rest = xs) :
    x ∉ pre := by
  intro hx
  have hnodup := h.nodup
  rw [← hxs, List.nodup_append] at hnodup
  exact hnodup.2.2 x hx x List.mem_cons_self rfl

theorem head_mem {x : L} (h : Segment next (some x) xs none) : x ∈ xs := by
  cases xs with
  | nil => exact absurd h (Option.some_ne_none x)
  | cons y xs =>
    obtain rfl : x = y := Option.some.inj h.1
    exact List.mem_cons_self

/-- The list goes on to its own locations. -/
theorem next_mem (h : Segment next p xs none) : ∀ x ∈ xs, ∀ y, next x = some y → y ∈ xs := by
  intro x hx y hy
  obtain ⟨as, bs, rfl⟩ := List.append_of_mem hx
  obtain ⟨_, -, -, hbs⟩ := segment_append.1 h
  rw [hy] at hbs
  exact List.mem_append_right as (List.mem_cons_of_mem x hbs.head_mem)

/-- A copy of the locations. -/
theorem map {M : Type*} {next' : M → Option M} (f : L → M) (h : Segment next p xs q)
    (hnext : ∀ x ∈ xs, next' (f x) = (next x).map f) : Segment next' (p.map f) (xs.map f) (q.map f) := by
  induction xs generalizing p with
  | nil => exact congrArg (Option.map f) h
  | cons x xs ih =>
    refine ⟨congrArg (Option.map f) h.1, ?_⟩
    rw [hnext x List.mem_cons_self]
    exact ih h.2 fun y hy => hnext y (List.mem_cons_of_mem x hy)

end Segment

section Through

variable {σ ρ : Type*} {round : Option L × σ → Round (Option L × σ) ρ} {P : List L → σ → Prop} (finish : σ → ρ)

theorem Returns.through_append {all : List L} (hend : ∀ s, round (none, s) = .leave (finish s))
    (hround : ∀ pre x rest s, pre ++ x :: rest = all → P pre s →
      ∃ s', round (some x, s) = .again (next x, s') ∧ P (pre ++ [x]) s') :
    ∀ (xs pre : List L) {p : Option L} {s : σ}, pre ++ xs = all → Segment next p xs none → P pre s →
      ∃ s', Returns (fun fuel => loop round fuel (p, s)) (finish s') ∧ P all s'
  | [], pre, _, s, hall, rfl, hs => by
    rw [List.append_nil] at hall
    exact ⟨s, Returns.leave (hend s), hall ▸ hs⟩
  | x :: xs, pre, _, s, hall, ⟨rfl, hseg⟩, hs => by
    obtain ⟨s₁, heq, hs₁⟩ := hround pre x xs s hall hs
    obtain ⟨s', hreturns, hs'⟩ := through_append hend hround xs (pre ++ [x]) (by simpa using hall) hseg hs₁
    exact ⟨s', Returns.again heq hreturns, hs'⟩

/-- A loop that goes through a list that ends: what every round extends by the location that it passes holds of all of
them in the end. -/
theorem Returns.through (hend : ∀ s, round (none, s) = .leave (finish s)) (hseg : Segment next p xs none)
    (hround : ∀ pre x rest s, pre ++ x :: rest = xs → P pre s →
      ∃ s', round (some x, s) = .again (next x, s') ∧ P (pre ++ [x]) s') {s : σ} (hs : P [] s) :
    ∃ s', Returns (fun fuel => loop round fuel (p, s)) (finish s') ∧ P xs s' :=
  through_append finish hend hround xs [] rfl hseg hs

end Through

end GoodGoodStudy.Lib
