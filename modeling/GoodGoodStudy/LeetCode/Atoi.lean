/-
The two parsers of integers, exercise 8 with a pattern and exercise 67 with a loop over the characters.
-/
import GoodGoodStudy.Lib.Pattern
import Mathlib.Algebra.Ring.Int.Defs
import Mathlib.Data.Nat.Digits.Defs

namespace GoodGoodStudy.LeetCode.Atoi

open GoodGoodStudy.Lib

abbrev Ascii := {c : Char // c.toNat < 128}

def ord (ch : Ascii) : ℕ := ch.1.toNat

def isdigit (ch : Ascii) : Bool := '0' ≤ ch.1 && ch.1 ≤ '9'

def isspace (ch : Ascii) : Bool :=
  ch.1 ∈ [' ', '\t', '\n', '\x0b', '\x0c', '\r', '\x1c', '\x1d', '\x1e', '\x1f']

def strip (s : List Ascii) : List Ascii := (s.dropWhile isspace).rdropWhile isspace

/-- The number that a run of digits stands for. -/
def decimal (run : List Ascii) : ℕ := Nat.ofDigits 10 (run.reverse.map fun ch => ord ch - 48)

/-- One sign, if there is one, and what is behind it. -/
def signed : List Ascii → ℤ × List Ascii
  | [] => (1, [])
  | ch :: s => if ch.1 = '-' then (-1, s) else if ch.1 = '+' then (1, s) else (1, ch :: s)

/-- `int(s)`, for texts without blanks and underscores. It raises an exception if there is something else than a sign
and digits, or if there are more digits than the limit of the interpreter; 0 stands for no limit. -/
def int (limit : ℕ) (s : List Ascii) : Option ℤ :=
  let run := (signed s).2
  if run ≠ [] ∧ run.all isdigit ∧ (limit = 0 ∨ run.length ≤ limit) then some ((signed s).1 * decimal run) else none

/-- `^[\+\-]?\d+` -/
def pattern : List (Item Ascii) := [.start, .optional fun ch => ch.1 = '+' || ch.1 = '-', .repeated isdigit]

def myAtoi (limit : ℕ) (str : List Ascii) : Option ℤ :=
  if str = [] then some 0
  else
    match findall pattern 0 0 (strip str) with
    | [] => some 0
    | m :: _ => do
      let res ← int limit m
      if res > 2 ^ 31 - 1 then some (2 ^ 31 - 1)
      else if res < -2 ^ 31 then some (-2 ^ 31)
      else some res

namespace strToInt

/-- `for i in range(len(strs))`, from an index on, with `res` and `sign`. -/
def scan : ℕ → List Ascii → ℤ → ℤ → ℤ × ℤ
  | _, [], res, sign => (res, sign)
  | i, ch :: strs, res, sign =>
    if i = 0 ∧ (ch.1 = '-' ∨ ch.1 = '+') then
      let sign := if ch.1 = '-' then -1 else sign
      let sign := if ch.1 = '+' then 1 else sign
      scan (i + 1) strs res sign
    else if !isdigit ch then (res, sign)
    else scan (i + 1) strs (res * 10 + ord ch - 48) sign

end strToInt

def strToInt (strs : List Ascii) : ℤ :=
  let (res, sign) := strToInt.scan 0 (strip strs) 0 1
  if res * sign < -2 ^ 31 then -2 ^ 31
  else if res * sign > 2 ^ 31 - 1 then 2 ^ 31 - 1
  else sign * res

/-! ## What is read -/

/-- The longest run of digits behind the sign. -/
def digits (s : List Ascii) : List Ascii := (signed s).2.takeWhile isdigit

/-- The integer that a text begins with, behind its blanks, brought into the range of 32 bits. -/
def number (s : List Ascii) : ℤ :=
  let s := s.dropWhile isspace
  if digits s = [] then 0 else max (-2 ^ 31) (min (2 ^ 31 - 1) ((signed s).1 * decimal (digits s)))

theorem not_isdigit_of_isspace (ch : Ascii) (h : isspace ch = true) : isdigit ch = false := by
  unfold isspace at h
  unfold isdigit
  simp only [List.mem_cons, List.not_mem_nil, or_false, decide_eq_true_eq] at h
  rcases h with h | h | h | h | h | h | h | h | h | h <;> rw [h] <;> rfl

theorem not_isdigit_of_sign (ch : Ascii) (h : (decide (ch.1 = '+') || decide (ch.1 = '-')) = true) :
    isdigit ch = false := by
  unfold isdigit
  rcases Bool.or_eq_true_iff.1 h with h | h <;> rw [of_decide_eq_true h] <;> rfl

/-- A text begins with a sign, or what is behind the sign is the text itself. -/
theorem signed_cons (ch : Ascii) :
    ((ch.1 = '-' ∨ ch.1 = '+') ∧ ∀ s, signed (ch :: s) = (if ch.1 = '-' then -1 else 1, s)) ∨
      (¬ (ch.1 = '-' ∨ ch.1 = '+') ∧ ∀ s, signed (ch :: s) = (1, ch :: s)) := by
  by_cases hch : ch.1 = '-' ∨ ch.1 = '+'
  · refine .inl ⟨hch, fun s => ?_⟩
    rw [signed]
    rcases hch with h | h
    · rw [if_pos h, if_pos h]
    · have hne : ch.1 ≠ '-' := by rw [h]; decide
      rw [if_neg hne, if_neg hne, if_pos h]
  · refine .inr ⟨hch, fun s => ?_⟩
    rw [not_or] at hch
    rw [signed, if_neg hch.1, if_neg hch.2]

/-- What `strip` removes at the end is not read. -/
theorem strip_reads (s : List Ascii) :
    digits (strip s) = digits (s.dropWhile isspace) ∧
      (digits (strip s) ≠ [] → (signed (strip s)).1 = (signed (s.dropWhile isspace)).1) := by
  unfold strip
  cases hs : s.dropWhile isspace with
  | nil => exact ⟨rfl, fun h => (h rfl).elim⟩
  | cons ch rest =>
    have hch : isspace ch = false := by
      have hhead := List.head?_dropWhile_not isspace s
      rw [hs] at hhead
      simpa using hhead
    rw [rdropWhile_cons_of_not hch]
    unfold digits
    rcases signed_cons ch with ⟨-, hsigned⟩ | ⟨-, hsigned⟩
    · rw [hsigned, hsigned]
      exact ⟨takeWhile_rdropWhile not_isdigit_of_isspace rest, fun _ => rfl⟩
    · rw [hsigned, hsigned, List.takeWhile_cons, List.takeWhile_cons, takeWhile_rdropWhile not_isdigit_of_isspace rest]
      exact ⟨rfl, fun _ => rfl⟩

theorem decimal_concat (run : List Ascii) (ch : Ascii) : decimal (run ++ [ch]) = decimal run * 10 + (ord ch - 48) := by
  unfold decimal
  rw [List.reverse_append, List.reverse_singleton, List.singleton_append, List.map_cons, Nat.ofDigits_cons]
  omega

theorem le_ord_of_isdigit {ch : Ascii} (h : isdigit ch = true) : 48 ≤ ord ch := by
  unfold isdigit at h
  rw [Bool.and_eq_true, decide_eq_true_eq] at h
  exact h.1

/-! ## The pattern -/

/-- What the pattern matches is the sign and the digits, if there are digits. -/
theorem findall_pattern (s : List Ascii) :
    (digits s = [] ∧ findall pattern 0 0 s = []) ∨
      (digits s ≠ [] ∧ ∃ m, findall pattern 0 0 s = [m] ∧ signed m = ((signed s).1, digits s)) := by
  cases s with
  | nil => exact .inl ⟨rfl, rfl⟩
  | cons ch s =>
    unfold pattern
    rw [findall_start _ (List.cons_ne_nil ch s), matchAt_optional_repeated not_isdigit_of_sign, matchAt_repeated,
      matchAt_repeated]
    unfold digits
    rcases signed_cons ch with ⟨hch, hsigned⟩ | ⟨hch, hsigned⟩
    · have hclass : (decide (ch.1 = '+') || decide (ch.1 = '-')) = true := by simpa [or_comm] using hch
      rw [hsigned, if_pos hclass]
      by_cases hrun : s.takeWhile isdigit = []
      · exact .inl ⟨hrun, by rw [if_pos hrun]; rfl⟩
      · refine .inr ⟨hrun, ch :: s.takeWhile isdigit, by rw [if_neg hrun]; rfl, hsigned _⟩
    · have hclass : ¬ (decide (ch.1 = '+') || decide (ch.1 = '-')) = true := by simpa [or_comm] using hch
      rw [hsigned, if_neg hclass]
      by_cases hrun : (ch :: s).takeWhile isdigit = []
      · exact .inl ⟨hrun, by rw [if_pos hrun]; rfl⟩
      · refine .inr ⟨hrun, (ch :: s).takeWhile isdigit, by rw [if_neg hrun]; rfl, ?_⟩
        rw [List.takeWhile_cons] at hrun ⊢
        split_ifs at hrun ⊢
        · exact hsigned _
        · exact (hrun rfl).elim

theorem int_of_signed {limit : ℕ} {m run : List Ascii} {sign : ℤ} (hm : signed m = (sign, run)) (hrun : run ≠ [])
    (hall : run.all isdigit) (hlimit : limit = 0 ∨ run.length ≤ limit) : int limit m = some (sign * decimal run) := by
  unfold int
  simp only [hm]
  rw [if_pos ⟨hrun, hall, hlimit⟩]

theorem myAtoi_eq (limit : ℕ) (str : List Ascii)
    (hlimit : limit = 0 ∨ (digits (str.dropWhile isspace)).length ≤ limit) :
    myAtoi limit str = some (number str) := by
  obtain ⟨hdigits, hsign⟩ := strip_reads str
  unfold myAtoi number
  by_cases hstr : str = []
  · rw [if_pos hstr, hstr]
    rfl
  · rw [if_neg hstr]
    rcases findall_pattern (strip str) with ⟨hnone, hfind⟩ | ⟨hsome, m, hfind, hm⟩
    · rw [hfind]
      simp only [hdigits ▸ hnone, if_true]
    · have hint : int limit m = some ((signed (strip str)).1 * decimal (digits (strip str))) :=
        int_of_signed hm hsome List.all_takeWhile (hdigits ▸ hlimit)
      rw [hfind]
      simp only [hint, Option.bind_eq_bind, Option.bind_some, hsign hsome, hdigits, if_neg (hdigits ▸ hsome)]
      generalize (signed (str.dropWhile isspace)).1 * (decimal (digits (str.dropWhile isspace)) : ℤ) = v
      split_ifs <;> rw [Option.some.injEq] <;> omega

/-! ## The loop -/

namespace strToInt

theorem scan_succ (i : ℕ) (strs : List Ascii) (res sign : ℤ) : scan (i + 1) strs res sign =
    ((strs.takeWhile isdigit).foldl (fun (res : ℤ) ch => res * 10 + ord ch - 48) res, sign) := by
  induction strs generalizing i res with
  | nil => rfl
  | cons ch strs ih =>
    rw [scan, if_neg (fun h => Nat.succ_ne_zero i h.1), List.takeWhile_cons]
    cases isdigit ch with
    | false => rfl
    | true => exact ih (i + 1) _

theorem foldl_digits (run : List Ascii) (hall : ∀ ch ∈ run, isdigit ch = true) :
    run.foldl (fun (res : ℤ) ch => res * 10 + ord ch - 48) 0 = decimal run := by
  induction run using List.reverseRecOn with
  | nil => rfl
  | append_singleton run ch ih =>
    have hch := le_ord_of_isdigit (hall ch (by simp))
    rw [List.foldl_append, ih fun c hc => hall c (by simp [hc]), decimal_concat]
    simp only [List.foldl_cons, List.foldl_nil]
    omega

theorem scan_zero (strs : List Ascii) : scan 0 strs 0 1 = ((decimal (digits strs) : ℤ), (signed strs).1) := by
  have hdecimal := foldl_digits (digits strs) fun ch hch => List.mem_takeWhile_imp hch
  cases strs with
  | nil => rfl
  | cons ch strs =>
    rcases signed_cons ch with ⟨hch, hsigned⟩ | ⟨hch, hsigned⟩
    · unfold digits at hdecimal ⊢
      rw [hsigned] at hdecimal ⊢
      rw [scan, if_pos ⟨rfl, hch⟩, scan_succ, hdecimal]
      rcases hch with h | h
      · have hne : ch.1 ≠ '+' := by rw [h]; decide
        rw [if_neg hne]
      · have hne : ch.1 ≠ '-' := by rw [h]; decide
        rw [if_pos h, if_neg hne]
    · unfold digits at hdecimal ⊢
      rw [hsigned] at hdecimal ⊢
      rw [← hdecimal, scan, if_neg fun h => hch h.2, List.takeWhile_cons]
      cases isdigit ch with
      | false => rfl
      | true => exact scan_succ 0 strs _ 1

end strToInt

theorem strToInt_eq (strs : List Ascii) : strToInt strs = number strs := by
  obtain ⟨hdigits, hsign⟩ := strip_reads strs
  unfold strToInt number
  rw [strToInt.scan_zero]
  by_cases hnone : digits (strip strs) = []
  · simp only [hnone, hdigits ▸ hnone, if_true]
    simp [decimal]
  · simp only [hsign hnone, hdigits, if_neg (hdigits ▸ hnone)]
    rw [Int.mul_comm]
    generalize (signed (strs.dropWhile isspace)).1 * (decimal (digits (strs.dropWhile isspace)) : ℤ) = v
    split_ifs <;> omega

/-- The two parsers read the same integer, unless a run of digits is too long to be converted. -/
theorem parsers_agree (limit : ℕ) (s : List Ascii)
    (hlimit : limit = 0 ∨ (digits (s.dropWhile isspace)).length ≤ limit) :
    myAtoi limit s = some (number s) ∧ strToInt s = number s :=
  ⟨myAtoi_eq limit s hlimit, strToInt_eq s⟩

/-- ` -42 ` -/
theorem parsers_agree_blanks :
    (digits ([⟨' ', by decide⟩, ⟨'-', by decide⟩, ⟨'4', by decide⟩, ⟨'2', by decide⟩].dropWhile isspace)).length ≤ 4300 ∧
      myAtoi 4300 [⟨' ', by decide⟩, ⟨'-', by decide⟩, ⟨'4', by decide⟩, ⟨'2', by decide⟩] = some (-42) ∧
      strToInt [⟨' ', by decide⟩, ⟨'-', by decide⟩, ⟨'4', by decide⟩, ⟨'2', by decide⟩] = -42 :=
  ⟨by decide, parsers_agree 4300 _ (.inr (by decide))⟩

end GoodGoodStudy.LeetCode.Atoi
