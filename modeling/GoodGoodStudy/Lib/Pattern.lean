/-
Matching a text with a sequence of items, as a backtracking matcher does it: a repetition takes as much as it can, and
gives a character back only if what follows does not match otherwise.
-/
import Mathlib.Data.List.DropRight
import Mathlib.Data.List.TakeWhile

namespace GoodGoodStudy.Lib

variable {α : Type*}

/-- `^`, which matches at the beginning only, and a class of characters followed by `?` or by `+`. -/
inductive Item (α : Type*)
  | start
  | optional (c : α → Bool)
  | repeated (c : α → Bool)

/-- Any number of characters of a class; `k` matches what is behind them. -/
def many (c : α → Bool) (k : ℕ → List α → Option (List α)) : ℕ → List α → Option (List α)
  | pos, [] => k pos []
  | pos, x :: s => if c x then ((many c k (pos + 1) s).map (x :: ·)).or (k pos (x :: s)) else k pos (x :: s)

/-- The text that is matched at a position, whose rest is given. -/
def matchAt : List (Item α) → ℕ → List α → Option (List α)
  | [], _, _ => some []
  | .start :: items, pos, s => if pos = 0 then matchAt items pos s else none
  | .optional _ :: items, pos, [] => matchAt items pos []
  | .optional c :: items, pos, x :: s =>
    if c x then ((matchAt items (pos + 1) s).map (x :: ·)).or (matchAt items pos (x :: s))
    else matchAt items pos (x :: s)
  | .repeated _ :: _, _, [] => none
  | .repeated c :: items, pos, x :: s => if c x then (many c (matchAt items) (pos + 1) s).map (x :: ·) else none

/-- All matches from a position on that do not overlap, for items that do not match the empty text. The first `skip`
characters belong to the last match. -/
def findall (items : List (Item α)) : ℕ → ℕ → List α → List (List α)
  | _, _, [] => []
  | skip + 1, pos, _ :: s => findall items skip (pos + 1) s
  | 0, pos, x :: s =>
    match matchAt items pos (x :: s) with
    | none => findall items 0 (pos + 1) s
    | some m => m :: findall items (m.length - 1) (pos + 1) s

/-- If nothing has to follow, all that can be taken is taken. -/
theorem many_nil (c : α → Bool) (pos : ℕ) (s : List α) : many c (matchAt []) pos s = some (s.takeWhile c) := by
  induction s generalizing pos with
  | nil => rfl
  | cons x s ih =>
    unfold many
    rw [ih, List.takeWhile_cons]
    split_ifs
    · rfl
    · rfl

theorem matchAt_repeated (c : α → Bool) (pos : ℕ) (s : List α) :
    matchAt [.repeated c] pos s = if s.takeWhile c = [] then none else some (s.takeWhile c) := by
  cases s with
  | nil => rfl
  | cons x s =>
    unfold matchAt
    rw [many_nil, List.takeWhile_cons]
    split_ifs <;> simp_all

/-- A class that has no character in common with the one behind it. -/
theorem matchAt_optional_repeated {c d : α → Bool} (h : ∀ x, c x = true → d x = false) (pos : ℕ) (x : α) (s : List α) :
    matchAt [.optional c, .repeated d] pos (x :: s) =
      if c x then (matchAt [.repeated d] (pos + 1) s).map (x :: ·) else matchAt [.repeated d] pos (x :: s) := by
  rw [matchAt]
  split_ifs with hc
  · have hnot : matchAt [.repeated d] pos (x :: s) = none := by simp [matchAt, h x hc]
    rw [hnot, Option.or_none]
  · rfl

theorem findall_start_behind (items : List (Item α)) (skip pos : ℕ) (s : List α) :
    findall (.start :: items) skip (pos + 1) s = [] := by
  induction s generalizing skip pos with
  | nil => unfold findall; rfl
  | cons x s ih =>
    cases skip with
    | zero =>
      unfold findall
      simp only [matchAt, if_neg (Nat.succ_ne_zero pos)]
      exact ih 0 (pos + 1)
    | succ skip => exact ih skip (pos + 1)

/-- At most one match can begin where the text begins. -/
theorem findall_start (items : List (Item α)) {s : List α} (hs : s ≠ []) :
    findall (.start :: items) 0 0 s = (matchAt items 0 s).toList := by
  cases s with
  | nil => exact (hs rfl).elim
  | cons x s =>
    unfold findall
    simp only [matchAt, if_pos, findall_start_behind]
    cases matchAt items 0 (x :: s) <;> rfl

theorem rdropWhile_cons_of_not {p : α → Bool} {x : α} (hx : p x = false) (s : List α) :
    (x :: s).rdropWhile p = x :: s.rdropWhile p := by
  induction s using List.reverseRecOn with
  | nil => simp [List.rdropWhile_singleton, hx]
  | append_singleton s y ih =>
    rw [← List.cons_append]
    by_cases hy : p y = true
    · rw [List.rdropWhile_concat_pos _ _ _ hy, List.rdropWhile_concat_pos _ _ _ hy, ih]
    · rw [List.rdropWhile_concat_neg _ _ _ hy, List.rdropWhile_concat_neg _ _ _ hy]
      rfl

/-- What is removed at the end does not change how the text begins. -/
theorem takeWhile_rdropWhile {p q : α → Bool} (h : ∀ x, p x = true → q x = false) (s : List α) :
    (s.rdropWhile p).takeWhile q = s.takeWhile q := by
  induction s using List.reverseRecOn with
  | nil => simp
  | append_singleton s x ih =>
    by_cases hx : p x = true
    · rw [List.rdropWhile_concat_pos _ _ _ hx, ih, List.takeWhile_append]
      split_ifs with hall
      · simp only [List.takeWhile_cons, h x hx, Bool.false_eq_true, if_false, List.append_nil]
        exact (List.takeWhile_prefix q).eq_of_length hall
      · rfl
    · rw [List.rdropWhile_concat_neg _ _ _ hx]

end GoodGoodStudy.Lib
