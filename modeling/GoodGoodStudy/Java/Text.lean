/-
The part of Java's text library that the request parser of `internet/httpServer` stands on: strings as
lists of UTF-16 code units, `trim`, `split` at one character, `Integer.parseInt`, and `readLine` of a
`BufferedReader`, a reader being the characters that are still to be read.

The digits of scripts other than ASCII are the business of `Character.digit`, a parameter.
-/
import GoodGoodStudy.Lib.Search
import Mathlib.Data.List.DropRight

namespace GoodGoodStudy.Java

open GoodGoodStudy.Lib

/-- A `char` is a UTF-16 code unit. -/
abbrev JChar := UInt16

abbrev JString := List JChar

/-- The text of a literal. -/
def str (s : String) : JString := s.toList.map fun c => c.toNat.toUInt16

def newline : JChar := 10
def carriageReturn : JChar := 13
def space : JChar := 32
def plus : JChar := 43
def minus : JChar := 45
def zero : JChar := 48
def nine : JChar := 57
def colon : JChar := 58

/-- The end of a line as a client writes it. -/
def lineEnd : JString := [carriageReturn, newline]

/-- The exceptions that the modelled methods throw. -/
inductive Exc
  | nullPointer
  | arrayIndexOutOfBounds
  | numberFormat
  deriving DecidableEq, Repr

/-- `strs[i]`. -/
def item (strs : List JString) (i : Nat) : Except Exc JString :=
  match strs[i]? with
  | some s => .ok s
  | none => .error .arrayIndexOutOfBounds

/-! ## Trimming -/

/-- `String.trim` drops the characters up to the space at both ends. -/
def trim (s : JString) : JString := (s.dropWhile fun c => c ≤ space).rdropWhile fun c => c ≤ space

theorem mem_of_mem_trim {c : JChar} {s : JString} (h : c ∈ trim s) : c ∈ s :=
  (List.dropWhile_sublist _).mem ((List.rdropWhile_prefix _ _).mem h)

theorem trim_space (s : JString) : trim (space :: s) = trim s := by
  rw [trim, List.dropWhile_cons_of_pos (by decide), trim]

theorem trim_eq_self {s : JString} (h : ∀ c ∈ s, ¬ c ≤ space) : trim s = s := by
  have hl : s.dropWhile (fun c => c ≤ space) = s := by
    cases s with
    | nil => rfl
    | cons c s => exact List.dropWhile_cons_of_neg (by simpa using h c List.mem_cons_self)
  rw [trim, hl, List.rdropWhile_eq_self_iff]
  intro hne
  simpa using h _ (List.getLast_mem hne)

/-! ## Splitting -/

/-- `String.split` at a character: the pieces without the empty ones at the end, and the string itself
where there is no such character. -/
def split (sep : JChar) (s : JString) : List JString :=
  if sep ∈ s then (splitOnSub [sep] s).rdropWhile List.isEmpty else [s]

theorem splitOnSub_two {sep : JChar} {a b : JString} (ha : sep ∉ a) :
    splitOnSub [sep] (a ++ sep :: b) = a :: splitOnSub [sep] b := by
  have hsep := splitOnSub_sep sep [] b
  rw [splitOnSub_skip ha, show sep :: b = [sep] ++ b from rfl, hsep]
  simp

theorem splitOnSub_one {sep : JChar} {a : JString} (ha : sep ∉ a) : splitOnSub [sep] a = [a] :=
  splitOnSub_of_not_infix fun h => ha (h.mem List.mem_cons_self)

/-- The first piece ends at the first occurrence. -/
theorem splitOnSub_head (sep : JChar) (b : JString) :
    ∃ rest, splitOnSub [sep] b = b.takeWhile (fun c => c ≠ sep) :: rest := by
  by_cases hsep : sep ∈ b
  · obtain ⟨p, q, rfl, hp⟩ := List.eq_append_cons_of_mem hsep
    refine ⟨splitOnSub [sep] q, ?_⟩
    rw [splitOnSub_two hp, List.takeWhile_append_of_pos (fun c hc => by simpa using ne_of_mem_of_not_mem hc hp),
      List.takeWhile_cons_of_neg (by simp), List.append_nil]
  · refine ⟨[], ?_⟩
    rw [splitOnSub_one hsep, List.takeWhile_eq_self_iff.2 (fun c hc => by simpa using ne_of_mem_of_not_mem hc hsep)]

/-- Dropping at the end does not reach behind a piece that stays. -/
theorem rdropWhile_append {p : JString → Bool} {l : List JString} (hl : l.rdropWhile p = l) (r : List JString) :
    ∃ rest, (l ++ r).rdropWhile p = l ++ rest := by
  induction r using List.reverseRecOn with
  | nil => exact ⟨[], by rw [List.append_nil, hl]⟩
  | append_singleton r x ih =>
    rw [← List.append_assoc]
    by_cases hx : p x
    · rw [List.rdropWhile_concat_pos _ _ _ hx]
      exact ih
    · exact ⟨r ++ [x], by rw [List.rdropWhile_concat_neg _ _ _ hx, List.append_assoc]⟩

/-- The piece before a character, and the next piece up to the same character if it is not empty. -/
theorem split_two {sep : JChar} {a b : JString} (ha : sep ∉ a) (hb : b.takeWhile (fun c => c ≠ sep) ≠ []) :
    ∃ rest, split sep (a ++ sep :: b) = a :: b.takeWhile (fun c => c ≠ sep) :: rest := by
  obtain ⟨pieces, hpieces⟩ := splitOnSub_head sep b
  have hkeep : [a, b.takeWhile fun c => c ≠ sep].rdropWhile List.isEmpty = [a, b.takeWhile fun c => c ≠ sep] :=
    List.rdropWhile_eq_self_iff.2 fun _ => by simpa using hb
  obtain ⟨rest, hrest⟩ := rdropWhile_append hkeep pieces
  refine ⟨rest, ?_⟩
  rw [split, if_pos (by simp), splitOnSub_two ha, hpieces]
  exact hrest

/-! ## Numbers -/

/-- `Character.digit(c, 10)` gives the ASCII digits their values. -/
def ReadsDecimal (digit : JChar → Option Nat) : Prop :=
  ∀ c, zero ≤ c → c ≤ nine → digit c = some (c.toNat - zero.toNat)

/-- The number that digits continue. -/
def digitsValue (digit : JChar → Option Nat) (n : Nat) : JString → Option Nat
  | [] => some n
  | c :: s => (digit c).bind fun d => digitsValue digit (10 * n + d) s

/-- The sign of a number and its digits. -/
def signed : JString → Bool × JString
  | [] => (false, [])
  | c :: s => if c = minus then (true, s) else if c = plus then (false, s) else (false, c :: s)

/-- `Integer.MAX_VALUE`; the least `int` is one further from zero. -/
def maxInt : Nat := 2147483647

/-- `Integer.parseInt`. -/
def parseInt (digit : JChar → Option Nat) (s : JString) : Except Exc Int :=
  let (negative, digits) := signed s
  if digits = [] then .error .numberFormat
  else match digitsValue digit 0 digits with
    | none => .error .numberFormat
    | some n =>
      let value : Int := if negative then -n else n
      if -(maxInt + 1 : Int) ≤ value ∧ value ≤ (maxInt : Int) then .ok value else .error .numberFormat

/-- A decimal numeral without a sign, leading zeros allowed. -/
def IsDecimal (s : JString) : Prop := s ≠ [] ∧ ∀ c ∈ s, zero ≤ c ∧ c ≤ nine

instance (s : JString) : Decidable (IsDecimal s) :=
  decidable_of_iff (s ≠ [] ∧ s.all (fun c => zero ≤ c ∧ c ≤ nine) = true) (by simp [IsDecimal])

/-- The number that a decimal numeral writes. -/
def decimalValue (s : JString) : Nat := s.foldl (fun n c => 10 * n + (c.toNat - zero.toNat)) 0

theorem digitsValue_decimal {digit : JChar → Option Nat} (hdigit : ReadsDecimal digit) {s : JString}
    (hs : ∀ c ∈ s, zero ≤ c ∧ c ≤ nine) (n : Nat) :
    digitsValue digit n s = some (s.foldl (fun n c => 10 * n + (c.toNat - zero.toNat)) n) := by
  induction s generalizing n with
  | nil => rfl
  | cons c s ih =>
    obtain ⟨hlow, hhigh⟩ := hs c List.mem_cons_self
    rw [digitsValue, hdigit c hlow hhigh, Option.bind_some, ih fun c hc => hs c (List.mem_cons_of_mem _ hc)]
    rfl

theorem parseInt_decimal {digit : JChar → Option Nat} (hdigit : ReadsDecimal digit) {s : JString}
    (hs : IsDecimal s) :
    parseInt digit s = if decimalValue s ≤ maxInt then .ok (decimalValue s : Int) else .error .numberFormat := by
  obtain ⟨hne, hdigits⟩ := hs
  have hsigned : signed s = (false, s) := by
    cases s with
    | nil => exact absurd rfl hne
    | cons c s =>
      have hlow := (hdigits c List.mem_cons_self).1
      have hminus : c ≠ minus := fun h => absurd (h ▸ hlow) (by decide)
      have hplus : c ≠ plus := fun h => absurd (h ▸ hlow) (by decide)
      rw [signed, if_neg hminus, if_neg hplus]
  -- no sign, so the value is not negative and only the upper bound can fail
  simp only [parseInt, hsigned, if_neg hne, digitsValue_decimal hdigit hdigits 0, Bool.false_eq_true, if_false]
  rw [← decimalValue]
  by_cases h : decimalValue s ≤ maxInt
  · rw [if_pos h, if_pos (by omega)]
  · rw [if_neg h, if_neg (by omega)]

/-- A numeral has no blanks at its ends. -/
theorem trim_decimal {s : JString} (hs : IsDecimal s) : trim s = s :=
  trim_eq_self fun c hc h => absurd (UInt16.le_trans (hs.2 c hc).1 h) (by decide)

theorem colon_not_mem_decimal {s : JString} (hs : IsDecimal s) : colon ∉ s :=
  fun h => absurd (hs.2 colon h).2 (by decide)

/-! ## Reading lines -/

/-- Behind a carriage return a line feed belongs to the same end of line. -/
def skipNewline : JString → JString
  | c :: reader => if c = newline then reader else c :: reader
  | [] => []

/-- `BufferedReader.readLine`: the line without its end, `null` at the end of the stream. -/
def readLine : JString → Option JString × JString
  | [] => (none, [])
  | c :: reader =>
    if c = newline then (some [], reader)
    else if c = carriageReturn then (some [], skipNewline reader)
    else
      let (line, reader) := readLine reader
      (some (c :: line.getD []), reader)

/-- Text inside a line. -/
def InLine (s : JString) : Prop := carriageReturn ∉ s ∧ newline ∉ s

instance (s : JString) : Decidable (InLine s) := inferInstanceAs (Decidable (_ ∧ _))

theorem readLine_lineEnd {line : JString} (h : InLine line) (reader : JString) :
    readLine (line ++ lineEnd ++ reader) = (some line, reader) := by
  induction line with
  | nil => rfl
  | cons c line ih =>
    obtain ⟨hr, hn⟩ := h
    rw [List.mem_cons, not_or] at hr hn
    rw [List.cons_append, List.cons_append, readLine, if_neg (Ne.symm hn.1), if_neg (Ne.symm hr.1), ih ⟨hr.2, hn.2⟩]
    rfl

theorem skipNewline_length (reader : JString) : (skipNewline reader).length ≤ reader.length := by
  cases reader with
  | nil => exact le_rfl
  | cons c reader =>
    rw [skipNewline]
    split
    · exact Nat.le_succ _
    · exact le_rfl

theorem readLine_snd_length (c : JChar) (reader : JString) : (readLine (c :: reader)).2.length ≤ reader.length := by
  induction reader generalizing c with
  | nil =>
    rw [readLine]
    split
    · exact le_rfl
    · split <;> exact le_rfl
  | cons d reader ih =>
    rw [readLine]
    split
    · exact le_rfl
    · split
      · exact skipNewline_length (d :: reader)
      · exact Nat.le_succ_of_le (ih d)

/-- A line that is read leaves less to read. -/
theorem readLine_length {reader rest : JString} {line : JString} (h : readLine reader = (some line, rest)) :
    rest.length < reader.length := by
  cases reader with
  | nil => cases h
  | cons c reader =>
    have hlength := readLine_snd_length c reader
    rw [h] at hlength
    exact Nat.lt_succ_of_le hlength

end GoodGoodStudy.Java
