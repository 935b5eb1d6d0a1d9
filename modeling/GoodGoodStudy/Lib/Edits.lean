/-
Edit scripts: insertions, deletions and replacements of single letters, anywhere in a word and in any order. A script
can be brought into the order of the letters, with no more edits (`Aligned`), and then the last letters of the two words
say what its last edit is.
-/
import Mathlib.Order.Bounds.Basic
import Mathlib.Order.MinMax

namespace GoodGoodStudy.Lib

variable {α : Type*}

inductive Edit : List α → List α → Prop
  | insert (pre : List α) (a : α) (post : List α) : Edit (pre ++ post) (pre ++ a :: post)
  | delete (pre : List α) (a : α) (post : List α) : Edit (pre ++ a :: post) (pre ++ post)
  | replace (pre : List α) (a b : α) (post : List α) : Edit (pre ++ a :: post) (pre ++ b :: post)

/-- So many edits lead from one word to the other. -/
inductive Edits : ℕ → List α → List α → Prop
  | done (s : List α) : Edits 0 s s
  | step {n : ℕ} {s t u : List α} (h : Edit s t) (hrest : Edits n t u) : Edits (n + 1) s u

/-- An edit script from the left to the right. -/
inductive Aligned : ℕ → List α → List α → Prop
  | nil : Aligned 0 [] []
  | keep {n : ℕ} {s t : List α} (a : α) (h : Aligned n s t) : Aligned n (a :: s) (a :: t)
  | replace {n : ℕ} {s t : List α} (a b : α) (h : Aligned n s t) : Aligned (n + 1) (a :: s) (b :: t)
  | insert {n : ℕ} {s t : List α} (a : α) (h : Aligned n s t) : Aligned (n + 1) s (a :: t)
  | delete {n : ℕ} {s t : List α} (a : α) (h : Aligned n s t) : Aligned (n + 1) (a :: s) t

variable {s t u : List α} {m n : ℕ} {a b : α}

/-! ## Scripts in the order of the letters -/

theorem aligned_refl (s : List α) : Aligned 0 s s := by
  induction s with
  | nil => exact .nil
  | cons a s ih => exact .keep a ih

theorem Aligned.append (pre : List α) (h : Aligned n s t) : Aligned n (pre ++ s) (pre ++ t) := by
  induction pre with
  | nil => exact h
  | cons a pre ih => exact .keep a ih

theorem Edit.aligned (h : Edit s t) : Aligned 1 s t := by
  cases h with
  | insert pre a post => exact (Aligned.insert a (aligned_refl post)).append pre
  | delete pre a post => exact (Aligned.delete a (aligned_refl post)).append pre
  | replace pre a b post => exact (Aligned.replace a b (aligned_refl post)).append pre

/-- Two scripts one after the other. A letter that is inserted and deleted again, or changed twice, saves edits. -/
theorem Aligned.trans : ∀ {m n : ℕ} {s t u : List α}, Aligned m s t → Aligned n t u → ∃ k ≤ m + n, Aligned k s u
  | _, _, _, _, _, .delete a h, h' =>
    have ⟨k, hk, h''⟩ := h.trans h'
    ⟨k + 1, by omega, .delete a h''⟩
  | _, _, _, _, _, h, .insert a h' =>
    have ⟨k, hk, h''⟩ := h.trans h'
    ⟨k + 1, by omega, .insert a h''⟩
  | _, _, _, _, _, .nil, .nil => ⟨0, Nat.le_refl 0, .nil⟩
  | _, _, _, _, _, .keep a h, .keep _ h' =>
    have ⟨k, hk, h''⟩ := h.trans h'
    ⟨k, hk, .keep a h''⟩
  | _, _, _, _, _, .keep a h, .replace _ c h' =>
    have ⟨k, hk, h''⟩ := h.trans h'
    ⟨k + 1, by omega, .replace a c h''⟩
  | _, _, _, _, _, .keep a h, .delete _ h' =>
    have ⟨k, hk, h''⟩ := h.trans h'
    ⟨k + 1, by omega, .delete a h''⟩
  | _, _, _, _, _, .replace a b h, .keep _ h' =>
    have ⟨k, hk, h''⟩ := h.trans h'
    ⟨k + 1, by omega, .replace a b h''⟩
  | _, _, _, _, _, .replace a _ h, .replace _ c h' =>
    have ⟨k, hk, h''⟩ := h.trans h'
    ⟨k + 1, by omega, .replace a c h''⟩
  | _, _, _, _, _, .replace a _ h, .delete _ h' =>
    have ⟨k, hk, h''⟩ := h.trans h'
    ⟨k + 1, by omega, .delete a h''⟩
  | _, _, _, _, _, .insert b h, .keep _ h' =>
    have ⟨k, hk, h''⟩ := h.trans h'
    ⟨k + 1, by omega, .insert b h''⟩
  | _, _, _, _, _, .insert _ h, .replace _ c h' =>
    have ⟨k, hk, h''⟩ := h.trans h'
    ⟨k + 1, by omega, .insert c h''⟩
  | _, _, _, _, _, .insert _ h, .delete _ h' =>
    have ⟨k, hk, h''⟩ := h.trans h'
    ⟨k, by omega, h''⟩
  termination_by _ _ s t u => s.length + t.length + u.length

/-! ## Edits in any order -/

theorem Edit.cons (a : α) (h : Edit s t) : Edit (a :: s) (a :: t) := by
  cases h with
  | insert pre b post => exact .insert (a :: pre) b post
  | delete pre b post => exact .delete (a :: pre) b post
  | replace pre b c post => exact .replace (a :: pre) b c post

theorem Edits.cons (a : α) (h : Edits n s t) : Edits n (a :: s) (a :: t) := by
  induction h with
  | done s => exact .done (a :: s)
  | step h _ ih => exact .step (h.cons a) ih

theorem Aligned.edits (h : Aligned n s t) : Edits n s t := by
  induction h with
  | nil => exact .done []
  | keep a _ ih => exact ih.cons a
  | replace a b _ ih => exact .step (.replace [] a b _) (ih.cons b)
  | insert a _ ih => exact .step (.insert [] a _) (ih.cons a)
  | delete a _ ih => exact .step (.delete [] a _) ih

theorem Edits.aligned (h : Edits n s t) : ∃ k ≤ n, Aligned k s t := by
  induction h with
  | done s => exact ⟨0, Nat.le_refl 0, aligned_refl s⟩
  | step h _ ih =>
    obtain ⟨k, hk, hrest⟩ := ih
    obtain ⟨k', hk', h'⟩ := h.aligned.trans hrest
    exact ⟨k', by omega, h'⟩

/-- The least number of edits is that of a script in the order of the letters. -/
theorem isLeast_edits_iff : IsLeast {k | Edits k s t} n ↔ IsLeast {k | Aligned k s t} n := by
  constructor
  · rintro ⟨hn, hleast⟩
    obtain ⟨k, hk, h⟩ := Edits.aligned hn
    have hnk : n ≤ k := hleast h.edits
    exact ⟨Nat.le_antisymm hk hnk ▸ h, fun k' hk' => hleast (Aligned.edits hk')⟩
  · rintro ⟨hn, hleast⟩
    refine ⟨Aligned.edits hn, fun k hk => ?_⟩
    obtain ⟨k', hk', h⟩ := Edits.aligned hk
    exact (hleast h).trans hk'

theorem Edit.reverse (h : Edit s t) : Edit s.reverse t.reverse := by
  cases h with
  | insert pre a post => simpa using Edit.insert post.reverse a pre.reverse
  | delete pre a post => simpa using Edit.delete post.reverse a pre.reverse
  | replace pre a b post => simpa using Edit.replace post.reverse a b pre.reverse

theorem Edits.reverse (h : Edits n s t) : Edits n s.reverse t.reverse := by
  induction h with
  | done s => exact .done s.reverse
  | step h _ ih => exact .step h.reverse ih

theorem edits_reverse_iff : Edits n s.reverse t.reverse ↔ Edits n s t :=
  ⟨fun h => by simpa using h.reverse, Edits.reverse⟩

theorem isLeast_iff_reverse : IsLeast {k | Edits k s t} n ↔ IsLeast {k | Aligned k s.reverse t.reverse} n := by
  rw [← isLeast_edits_iff]
  simp only [edits_reverse_iff]

/-! ## The least number of edits -/

theorem Aligned.nil_left (h : Aligned n [] t) : n = t.length := by
  induction t generalizing n with
  | nil =>
    cases h
    rfl
  | cons a t ih =>
    cases h with
    | insert a h => rw [ih h, List.length_cons]

theorem Aligned.nil_right (h : Aligned n s []) : n = s.length := by
  induction s generalizing n with
  | nil =>
    cases h
    rfl
  | cons a s ih =>
    cases h with
    | delete a h => rw [ih h, List.length_cons]

theorem aligned_nil_left (t : List α) : Aligned t.length [] t := by
  induction t with
  | nil => exact .nil
  | cons a t ih => exact .insert a ih

theorem aligned_nil_right (s : List α) : Aligned s.length s [] := by
  induction s with
  | nil => exact .nil
  | cons a s ih => exact .delete a ih

theorem isLeast_edits_nil_left (t : List α) : IsLeast {k | Edits k [] t} t.length :=
  isLeast_edits_iff.2 ⟨aligned_nil_left t, fun _ hk => (Aligned.nil_left hk).ge⟩

theorem isLeast_edits_nil_right (s : List α) : IsLeast {k | Edits k s []} s.length :=
  isLeast_edits_iff.2 ⟨aligned_nil_right s, fun _ hk => (Aligned.nil_right hk).ge⟩

/-- A first letter that both words have can be kept. -/
theorem Aligned.tail (h : Aligned n (a :: s) (a :: t)) : ∃ k ≤ n, Aligned k s t := by
  cases h with
  | keep _ h => exact ⟨n, Nat.le_refl n, h⟩
  | replace _ _ h => exact ⟨_, Nat.le_succ _, h⟩
  | insert _ h =>
    obtain ⟨k, hk, h'⟩ := (Aligned.insert a (aligned_refl s)).trans h
    exact ⟨k, by omega, h'⟩
  | delete _ h => exact h.trans (Aligned.delete a (aligned_refl t))

theorem isLeast_aligned_keep (a : α) (h : IsLeast {k | Aligned k s t} n) :
    IsLeast {k | Aligned k (a :: s) (a :: t)} n := by
  refine ⟨.keep a h.1, fun k hk => ?_⟩
  obtain ⟨k', hk', h'⟩ := Aligned.tail hk
  exact (h.2 h').trans hk'

/-- Different first letters: one of them is deleted or inserted, or one replaced by the other. -/
theorem isLeast_aligned_change {n₁ n₂ n₃ : ℕ} (hab : a ≠ b) (h₁ : IsLeast {k | Aligned k s (b :: t)} n₁)
    (h₂ : IsLeast {k | Aligned k (a :: s) t} n₂) (h₃ : IsLeast {k | Aligned k s t} n₃) :
    IsLeast {k | Aligned k (a :: s) (b :: t)} (min (min (n₁ + 1) (n₂ + 1)) (n₃ + 1)) := by
  have hdelete := Aligned.delete a h₁.1
  have hinsert := Aligned.insert b h₂.1
  have hreplace := Aligned.replace a b h₃.1
  constructor
  · rcases min_choice (min (n₁ + 1) (n₂ + 1)) (n₃ + 1) with h | h <;> rw [h]
    · rcases min_choice (n₁ + 1) (n₂ + 1) with h | h <;> rw [h]
      · exact hdelete
      · exact hinsert
    · exact hreplace
  · intro k hk
    rcases hk with _ | ⟨_, h⟩ | ⟨_, _, h⟩ | ⟨_, h⟩ | ⟨_, h⟩
    · exact absurd rfl hab
    · have hle := h₃.2 h
      omega
    · have hle := h₂.2 h
      omega
    · have hle := h₁.2 h
      omega

/-- The same for the last letters, since a script is as long from the right to the left. -/
theorem isLeast_edits_concat (a b : α) [Decidable (a = b)] {n₁ n₂ n₃ : ℕ}
    (h₁ : IsLeast {k | Edits k s (t ++ [b])} n₁) (h₂ : IsLeast {k | Edits k (s ++ [a]) t} n₂)
    (h₃ : IsLeast {k | Edits k s t} n₃) :
    IsLeast {k | Edits k (s ++ [a]) (t ++ [b])}
      (if a = b then n₃ else min (min (n₁ + 1) (n₂ + 1)) (n₃ + 1)) := by
  rw [isLeast_iff_reverse, List.reverse_append] at h₁ h₂
  rw [isLeast_iff_reverse] at h₃
  rw [isLeast_iff_reverse, List.reverse_append, List.reverse_append]
  split_ifs with hab
  · exact hab ▸ isLeast_aligned_keep a h₃
  · exact isLeast_aligned_change hab h₁ h₂ h₃

end GoodGoodStudy.Lib
