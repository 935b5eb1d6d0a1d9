/-
Searching in a list for a fixed pattern: splitting at its occurrences, the position of the first
one, and the search for a literal followed by a capture, as regular expression engines do it. An
occurrence is always taken leftmost, and occurrences do not overlap.

The rules say how a search passes over text in which no occurrence can start, so that the search
in an assembled text is computed piece by piece.
-/
import Mathlib.Data.List.Infix
import Mathlib.Data.List.TakeWhile

namespace GoodGoodStudy.Lib

variable {α β : Type*} [DecidableEq α]

/-! ## Splitting -/

/-- Split at the occurrences of `sep`, after passing over `skip` more elements of the last one. -/
def splitFrom (sep : List α) : Nat → List α → List (List α)
  | _, [] => [[]]
  | skip + 1, _ :: l => splitFrom sep skip l
  | 0, a :: l =>
    if sep <+: a :: l then [] :: splitFrom sep (sep.length - 1) l
    else (splitFrom sep 0 l).modifyHead (a :: ·)

/-- `bytes.split` and its kin. -/
def splitOnSub (sep l : List α) : List (List α) := splitFrom sep 0 l

@[simp] theorem splitOnSub_nil (sep : List α) : splitOnSub sep [] = [[]] := rfl

theorem splitFrom_append (sep p l : List α) : splitFrom sep p.length (p ++ l) = splitOnSub sep l := by
  induction p with
  | nil => rfl
  | cons a p ih => exact ih

theorem splitOnSub_cons {sep : List α} {a : α} {l : List α} (h : ¬ sep <+: a :: l) :
    splitOnSub sep (a :: l) = (splitOnSub sep l).modifyHead (a :: ·) := by
  simp [splitOnSub, splitFrom, h]

/-- At an occurrence a piece ends and the next one starts behind it. -/
theorem splitOnSub_sep (a : α) (t l : List α) : splitOnSub (a :: t) (a :: t ++ l) = [] :: splitOnSub (a :: t) l := by
  have h : a :: t <+: a :: (t ++ l) := ⟨l, rfl⟩
  rw [splitOnSub, List.cons_append, splitFrom, if_pos h, List.length_cons, Nat.add_sub_cancel, splitFrom_append]

omit [DecidableEq α] in
theorem modifyHead_append (p q : List α) (ls : List (List α)) :
    (ls.modifyHead (q ++ ·)).modifyHead (p ++ ·) = ls.modifyHead (p ++ q ++ ·) := by
  cases ls with
  | nil => rfl
  | cons l ls => simp

/-- No occurrence starts in text without the first element of the separator. -/
theorem splitOnSub_skip {a : α} {t p : List α} (h : a ∉ p) (l : List α) :
    splitOnSub (a :: t) (p ++ l) = (splitOnSub (a :: t) l).modifyHead (p ++ ·) := by
  induction p with
  | nil => cases h' : splitOnSub (a :: t) l <;> simp [h']
  | cons b p ih =>
    obtain ⟨hb, hp⟩ := not_or.1 (mt List.mem_cons.2 h)
    have hnot : ¬ a :: t <+: b :: (p ++ l) := fun hp => hb (List.cons_prefix_cons.1 hp).1
    rw [List.cons_append, splitOnSub_cons hnot, ih hp]
    exact modifyHead_append [b] p _

omit [DecidableEq α] in
/-- A separator whose first element does not come back in it cannot straddle the end of a piece
that is followed by it. -/
theorem no_start_before_sep {a b : α} {t p l : List α} (ha : a ∉ t) (h : ¬ a :: t <:+: b :: p) :
    ¬ a :: t <+: b :: (p ++ (a :: t ++ l)) := by
  intro hp
  obtain ⟨rfl, hpre⟩ := List.cons_prefix_cons.1 hp
  -- the rest of the occurrence ends in the piece, or begins the separator a second time
  rcases List.prefix_or_prefix_of_prefix hpre (List.prefix_append p _) with ht | ht
  · exact h (List.cons_prefix_cons.2 ⟨rfl, ht⟩).isInfix
  · obtain ⟨u, rfl⟩ := ht
    have hu := (List.prefix_append_right_inj p).1 hpre
    cases u with
    | nil => exact h (by simp)
    | cons c u => exact ha (by simp [(List.cons_prefix_cons.1 hu).1])

/-- A piece in which the separator does not occur is cut off whole. -/
theorem splitOnSub_piece {a : α} {t : List α} (ha : a ∉ t) {p : List α} (h : ¬ a :: t <:+: p) (l : List α) :
    splitOnSub (a :: t) (p ++ (a :: t ++ l)) = p :: splitOnSub (a :: t) l := by
  induction p with
  | nil => exact splitOnSub_sep a t l
  | cons b p ih =>
    rw [List.cons_append, splitOnSub_cons (no_start_before_sep ha h), ih fun hi => h (hi.trans (List.infix_cons List.infix_rfl))]
    rfl

/-- Without an occurrence there is one piece. -/
theorem splitOnSub_of_not_infix {sep l : List α} (h : ¬ sep <:+: l) : splitOnSub sep l = [l] := by
  induction l with
  | nil => rfl
  | cons a l ih =>
    rw [splitOnSub_cons fun hp => h hp.isInfix, ih fun hi => h (hi.trans (List.infix_cons List.infix_rfl))]
    rfl

/-- Joining with one element and splitting at it. -/
theorem splitOnSub_intercalate {a : α} {pieces : List (List α)} (hne : pieces ≠ []) (h : ∀ p ∈ pieces, a ∉ p) :
    splitOnSub [a] ([a].intercalate pieces) = pieces := by
  induction pieces with
  | nil => exact absurd rfl hne
  | cons p pieces ih =>
    have hp : a ∉ p := h p List.mem_cons_self
    by_cases hpieces : pieces = []
    · subst hpieces
      rw [List.intercalate_singleton]
      exact splitOnSub_of_not_infix fun hi => hp (hi.mem List.mem_cons_self)
    · rw [List.intercalate_cons_of_ne_nil hpieces, List.append_assoc, splitOnSub_skip hp, splitOnSub_sep,
        ih hpieces fun q hq => h q (List.mem_cons_of_mem p hq)]
      simp

omit [DecidableEq α] in
/-- An occurrence behind text without the first element of the pattern lies behind all of it. -/
theorem infix_skip {a : α} {t p : List α} (h : a ∉ p) (l : List α) : a :: t <:+: p ++ l ↔ a :: t <:+: l := by
  induction p with
  | nil => rfl
  | cons b p ih =>
    obtain ⟨hb, hp⟩ := not_or.1 (mt List.mem_cons.2 h)
    rw [List.cons_append, List.infix_cons_iff, ih hp, List.cons_prefix_cons]
    exact or_iff_right fun hpre => hb hpre.1

/-! ## The first occurrence -/

/-- The position of the first occurrence: `bytes.find`, with `none` for -1. -/
def findSub (pat : List α) : List α → Option Nat
  | [] => if pat = [] then some 0 else none
  | a :: l => if pat <+: a :: l then some 0 else (findSub pat l).map (· + 1)

theorem findSub_cons {pat : List α} {a : α} {l : List α} (h : ¬ pat <+: a :: l) :
    findSub pat (a :: l) = (findSub pat l).map (· + 1) := by simp [findSub, h]

theorem findSub_prefix (a : α) (t l : List α) : findSub (a :: t) (a :: t ++ l) = some 0 := by
  have h : a :: t <+: a :: (t ++ l) := ⟨l, rfl⟩
  rw [List.cons_append, findSub, if_pos h]

theorem findSub_skip {a : α} {t p : List α} (h : a ∉ p) (l : List α) :
    findSub (a :: t) (p ++ l) = (findSub (a :: t) l).map (· + p.length) := by
  induction p with
  | nil => simp
  | cons b p ih =>
    obtain ⟨hb, hp⟩ := not_or.1 (mt List.mem_cons.2 h)
    have hnot : ¬ a :: t <+: b :: (p ++ l) := fun hp => hb (List.cons_prefix_cons.1 hp).1
    rw [List.cons_append, findSub_cons hnot, ih hp, Option.map_map]
    congr 1

/-! ## A literal and a capture -/

/-- The leftmost occurrence of `lit` behind which the capture succeeds. -/
def search (lit : List α) (capture : List α → Option β) : List α → Option β
  | [] => if lit = [] then capture [] else none
  | a :: l => if lit <+: a :: l then (capture ((a :: l).drop lit.length)).or (search lit capture l)
      else search lit capture l

variable {capture : List α → Option β}

/-- A literal at the very beginning is found, if the capture behind it succeeds. -/
theorem search_prefix {lit l : List α} {r : β} (hlit : lit ≠ []) (h : capture l = some r) :
    search lit capture (lit ++ l) = some r := by
  obtain ⟨a, t, rfl⟩ := List.exists_cons_of_ne_nil hlit
  have hp : a :: t <+: a :: (t ++ l) := ⟨l, rfl⟩
  rw [List.cons_append, search, if_pos hp, ← List.cons_append, List.drop_left, h, Option.some_or]

omit [DecidableEq α] in
/-- A literal whose only `q` is its last element occurs right in front of the first `q`, or not
before it. -/
theorem mark_prefix {t p l : List α} {q : α} (ht : q ∉ t) (hp : q ∉ p) :
    t ++ [q] <+: p ++ q :: l ↔ t = p := by
  constructor
  · rintro ⟨u, hu⟩
    rw [List.append_assoc, List.singleton_append] at hu
    rcases List.append_eq_append_iff.1 hu with ⟨v, rfl, hv⟩ | ⟨v, rfl, hv⟩ <;> rcases v with - | ⟨c, v⟩
    · simp
    · exact absurd (by simp [(List.cons.inj hv).1]) hp
    · simp
    · exact absurd (by simp [(List.cons.inj hv).1]) ht
  · rintro rfl
    exact ⟨l, by simp⟩

/-- Up to the first `q`, a literal whose only `q` is its last element occurs at most once. -/
theorem search_mark {t p : List α} {q : α} (ht : q ∉ t) (hp : q ∉ p) (l : List α) :
    search (t ++ [q]) capture (p ++ q :: l) =
      if t <:+ p then (capture l).or (search (t ++ [q]) capture l) else search (t ++ [q]) capture l := by
  induction p with
  | nil =>
    have h := mark_prefix (l := l) ht hp
    rw [List.nil_append] at h ⊢
    simp only [search, h, List.suffix_nil]
    split
    · rename_i h; simp [h]
    · rfl
  | cons b p ih =>
    have h := mark_prefix (l := l) ht hp
    rw [List.cons_append] at h ⊢
    simp only [search, h, List.suffix_cons_iff]
    rw [ih (fun hq => hp (List.mem_cons_of_mem _ hq))]
    by_cases htb : t = b :: p
    · have hs : ¬ t <:+ p := fun hs => by
        have := hs.length_le
        rw [htb, List.length_cons] at this
        omega
      simp [htb, htb ▸ hs]
    · simp [htb]

/-! ## Captures -/

/-- `(.*?)q`: up to the first `q`, within the line. -/
def lazyUntil (q eol : α) : List α → Option (List α)
  | [] => none
  | a :: l => if a = q then some [] else if a = eol then none else (lazyUntil q eol l).map (a :: ·)

/-- `(.*)q`: up to the last `q` of the line. -/
def greedyUntil (q eol : α) : List α → Option (List α)
  | [] => none
  | a :: l => ((if a = eol then none else greedyUntil q eol l).map (a :: ·)).or (if a = q then some [] else none)

/-- `(.*)`: the rest of the line. -/
def restOfLine (eol : α) (l : List α) : Option (List α) := some (l.takeWhile fun a => a ≠ eol)

theorem restOfLine_eq {eol : α} {l : List α} (h : eol ∉ l) : restOfLine eol l = some l := by
  rw [restOfLine, List.takeWhile_eq_self_iff.2]
  exact fun a ha => decide_eq_true fun he => h (he ▸ ha)

theorem lazyUntil_eq {q eol : α} {p : List α} (hq : q ∉ p) (he : eol ∉ p) (l : List α) :
    lazyUntil q eol (p ++ q :: l) = some p := by
  induction p with
  | nil => simp [lazyUntil]
  | cons a p ih =>
    simp only [List.mem_cons, not_or] at hq he
    simp [lazyUntil, Ne.symm hq.1, Ne.symm he.1, ih hq.2 he.2]

theorem greedyUntil_eq_none {q eol : α} {l : List α} (h : q ∉ l) : greedyUntil q eol l = none := by
  induction l with
  | nil => rfl
  | cons a l ih =>
    simp only [List.mem_cons, not_or] at h
    simp [greedyUntil, Ne.symm h.1, ih h.2]

theorem greedyUntil_eq {q eol : α} {p l : List α} (he : eol ∉ p) (h : q ∉ l) :
    greedyUntil q eol (p ++ q :: l) = some p := by
  induction p with
  | nil => simp [greedyUntil, greedyUntil_eq_none h]
  | cons a p ih =>
    simp only [List.mem_cons, not_or] at he
    simp [greedyUntil, Ne.symm he.1, ih he.2]

end GoodGoodStudy.Lib
