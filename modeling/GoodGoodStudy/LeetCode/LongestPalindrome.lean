/-
The two `longestPalindrome` of the exercise 5: one goes from every centre to both sides, the other fills a table whose
cell `(i, j)` says whether the part from `i` to `j` is a palindrome.
-/
import GoodGoodStudy.Lib.Loop
import GoodGoodStudy.Lib.Palindrome

namespace GoodGoodStudy.LeetCode.LongestPalindrome

open GoodGoodStudy.Lib

variable {α : Type} [DecidableEq α] (s : List α)

namespace Centre

/-- A round of `while left >= 0 and right < len(s) and s[left] == s[right]` -/
def round : ℤ × ℤ → Round (ℤ × ℤ) (ℤ × ℤ)
  | (left, right) =>
    if 0 ≤ left ∧ right < s.length ∧ item? s left = item? s right then .again (left - 1, right + 1)
    else .leave (left + 1, right - 1)

def expandAroundCenter (left right : ℤ) (fuel : ℕ) : Option (ℤ × ℤ) := loop (round s) fuel (left, right)

/-- A round of `for i in range(len(s))`, with `start` and `end`. -/
def step (fuel : ℕ) (best : ℤ × ℤ) (i : ℕ) : Option (ℤ × ℤ) := do
  let (left1, right1) ← expandAroundCenter s i i fuel
  let (left2, right2) ← expandAroundCenter s i (i + 1) fuel
  let best := if right1 - left1 > best.2 - best.1 then (left1, right1) else best
  let best := if right2 - left2 > best.2 - best.1 then (left2, right2) else best
  some best

def longestPalindrome (fuel : ℕ) : Option (List α) := do
  let (start, stop) ← (List.range s.length).foldlM (step s fuel) (0, 0)
  some (slice s start (stop + 1))

end Centre

namespace Table

variable {s} {n : ℕ}

/-- The table, `max_len` and `start`. -/
abbrev State (n : ℕ) := Grid n n Bool × ℤ × ℤ

/-- What is written into `dp[i][j]`. `none` is an index out of range. -/
def cell (s : List α) (dp : Grid n n Bool) (i j : ℕ) : Option Bool := do
  if (← item? s i) = (← item? s j) then
    if (j : ℤ) - i < 3 then some true else dp.item? (i + 1) (j - 1)
  else some false

/-- The body of the two loops. -/
def fill (s : List α) (j : ℕ) : State n → ℕ → Option (State n)
  | (dp, max_len, start), i => do
    let dp ← dp.setItem? i j (← cell s dp i j)
    if ← dp.item? i j then
      let cur_len := (j : ℤ) - i + 1
      if cur_len > max_len then some (dp, cur_len, i) else some (dp, max_len, start)
    else some (dp, max_len, start)

def longestPalindrome (s : List α) : Option (List α) :=
  let size := s.length
  if size < 2 then some s
  else do
    let dp ← (List.range size).foldlM (fun dp i => dp.setItem? i i true) (Grid.replicate size size false)
    let (_, max_len, start) ← (List.range' 1 (size - 1)).foldlM (fun st j => (List.range j).foldlM (fill s j) st)
      (dp, 1, 0)
    some (slice s start (start + max_len))

end Table

/-! ## The centres -/

namespace Centre

/-- No palindrome with the same centre is longer. -/
structure Widest (c : ℤ) (p : ℤ × ℤ) : Prop where
  span : PalindromeSpan s p.1 p.2
  le_succ : p.1 ≤ p.2 + 1
  widest : ∀ i j, PalindromeSpan s i j → i + j = c → j - i ≤ p.2 - p.1

theorem expandAroundCenter_returns (left right : ℤ) (hl : 0 ≤ left) (hr : left ≤ right) (hr' : right ≤ left + 1)
    (hlen : left < s.length) :
    ∃ span, Returns (expandAroundCenter s left right) span ∧ Widest s (left + right) span := by
  refine Returns.loop_of_measure (fun t => (t.1 + 1).toNat)
    (I := fun t => t.1 + t.2 = left + right ∧ t.1 ≤ t.2 ∧ PalindromeSpan s (t.1 + 1) (t.2 - 1))
    (fun t ht => ?_) (s := (left, right)) ⟨rfl, hr, palindromeSpan_of_le (by omega) (by omega) (by omega)⟩
  obtain ⟨l, r⟩ := t
  obtain ⟨hsum, hle, hspan⟩ := ht
  simp only at hsum hle hspan
  by_cases hgo : 0 ≤ l ∧ r < s.length ∧ item? s l = item? s r
  · refine .inl ⟨(l - 1, r + 1), by rw [round, if_pos hgo], ⟨by omega, by omega, ?_⟩, by simp only; omega⟩
    rw [Int.sub_add_cancel, Int.add_sub_cancel]
    exact (palindromeSpan_iff hgo.1 hgo.2.1 hle).2 ⟨hgo.2.2, hspan⟩
  · have hne : l ≠ r := by
      rintro rfl
      exact hgo ⟨by omega, by omega, rfl⟩
    refine .inr ⟨(l + 1, r - 1), by rw [round, if_neg hgo], hspan, by simp only; omega, fun i j h hij => ?_⟩
    -- a longer one would go on to `l` and `r`
    by_contra hlong
    simp only [not_le] at hlong
    have hi := h.nonneg
    have hj := h.lt_length
    exact hgo ⟨by omega, by omega, h.mirror l r (by omega) (by omega) (by omega)⟩

/-- The longest palindrome among those whose centre was tried. -/
structure Best (t : ℕ) (best : ℤ × ℤ) : Prop where
  span : PalindromeSpan s best.1 best.2
  le : best.1 ≤ best.2
  longest : ∀ i j, PalindromeSpan s i j → i ≤ j → i + j < 2 * t → j - i ≤ best.2 - best.1

omit [DecidableEq α] in
/-- Of two palindromes the longer one is kept. -/
theorem longer {span best : ℤ × ℤ} (hspan : PalindromeSpan s span.1 span.2) (hbest : PalindromeSpan s best.1 best.2)
    (hle : best.1 ≤ best.2) : ∃ best', (if span.2 - span.1 > best.2 - best.1 then span else best) = best' ∧
      PalindromeSpan s best'.1 best'.2 ∧ best'.1 ≤ best'.2 ∧ span.2 - span.1 ≤ best'.2 - best'.1 ∧
      best.2 - best.1 ≤ best'.2 - best'.1 := by
  by_cases hlt : span.2 - span.1 > best.2 - best.1
  · exact ⟨span, if_pos hlt, hspan, by omega, le_rfl, hlt.le⟩
  · exact ⟨best, if_neg hlt, hbest, hle, not_lt.1 hlt, le_rfl⟩

theorem step_returns {t : ℕ} (ht : t < s.length) {best : ℤ × ℤ} (h : Best s t best) :
    ∃ best', Returns (fun fuel => step s fuel best t) best' ∧ Best s (t + 1) best' := by
  obtain ⟨odd, hodd, hodd'⟩ := expandAroundCenter_returns s t t (by omega) (by omega) (by omega) (by omega)
  obtain ⟨even, heven, heven'⟩ := expandAroundCenter_returns s t (t + 1) (by omega) (by omega) (by omega)
    (by omega)
  obtain ⟨best₁, heq₁, hspan₁, hle₁, hodd₁, hbest₁⟩ := longer s hodd'.span h.span h.le
  obtain ⟨best₂, heq₂, hspan₂, hle₂, heven₂, hbest₂⟩ := longer s heven'.span hspan₁ hle₁
  refine ⟨best₂, ?_, hspan₂, hle₂, fun i j hij hle hlt => ?_⟩
  · obtain ⟨n₁, h₁⟩ := hodd
    obtain ⟨n₂, h₂⟩ := heven
    refine ⟨max n₁ n₂, fun fuel hfuel => ?_⟩
    unfold step
    simp only [h₁ fuel (le_trans (le_max_left n₁ n₂) hfuel), h₂ fuel (le_trans (le_max_right n₁ n₂) hfuel),
      Option.bind_eq_bind, Option.bind_some, heq₁, heq₂]
  · rcases lt_or_ge (i + j) (2 * t) with hold | hnew
    · have hlong := h.longest i j hij hle hold
      omega
    · obtain hc | hc : i + j = t + t ∨ i + j = t + (t + 1) := by omega
      · have hlong := hodd'.widest i j hij hc
        omega
      · have hlong := heven'.widest i j hij hc
        omega

theorem longestPalindrome_returns : ∃ t, Returns (longestPalindrome s) t ∧ IsLongestPalindrome s t := by
  rcases s.eq_nil_or_concat with rfl | ⟨rest, a, hs⟩
  · refine ⟨[], ⟨0, fun _ _ => rfl⟩, List.infix_rfl, List.Palindrome.nil, fun u hu _ => ?_⟩
    exact hu.length_le
  · have hpos : 0 < s.length := by rw [hs, List.concat_eq_append]; simp
    obtain ⟨best, hreturns, h⟩ := Returns.foldlM_range (f := step s) (P := fun t best => Best s t best) s.length
      (fun t ht best h => step_returns s ht h) (s := (0, 0))
      ⟨palindromeSpan_of_le le_rfl (by simpa using hpos) le_rfl, le_rfl, fun i j h hij hlt => by
        have hnonneg := h.nonneg
        omega⟩
    refine ⟨slice s best.1 (best.2 + 1), hreturns.bind
      (g := fun (best : ℤ × ℤ) _ => some (slice s best.1 (best.2 + 1))) (Returns.pure _), ?_⟩
    apply h.span.isLongest (by have hle := h.le; omega)
    intro i j hij
    rcases le_or_gt i j with hle | hgt
    · have hlt := hij.lt_length
      exact h.longest i j hij hle (by omega)
    · have hle := h.le
      omega

end Centre

/-! ## The table -/

namespace Table

variable {s} {dp : Grid s.length s.length Bool} {max_len start : ℤ}

/-- The cells that the loops have passed when they come to `(u, t)`. -/
def Passed (t u i j : ℕ) : Prop := i < j ∧ (j < t ∨ j = t ∧ i < u)

/-- The cells passed tell palindromes from the other parts, and the longest one is kept. -/
structure Filled (s : List α) (passed : ℕ → ℕ → Prop) (st : State s.length) : Prop where
  cells : ∀ p : Cell s.length s.length, passed p.1 p.2 → (st.1.get p = true ↔ PalindromeSpan s (p.1 : ℕ) (p.2 : ℕ))
  span : PalindromeSpan s st.2.2 (st.2.2 + st.2.1 - 1)
  pos : 1 ≤ st.2.1
  longest : ∀ i j : ℕ, passed i j → PalindromeSpan s i j → (j : ℤ) - i + 1 ≤ st.2.1

omit [DecidableEq α] in
theorem Filled.congr {passed passed' : ℕ → ℕ → Prop} {st : State s.length} (h : Filled s passed st)
    (heq : ∀ i j, passed' i j → passed i j) : Filled s passed' st :=
  ⟨fun p hp => h.cells p (heq _ _ hp), h.span, h.pos, fun i j hij => h.longest i j (heq i j hij)⟩

theorem Passed.cases {t u i j : ℕ} (h : Passed t (u + 1) i j) : (i = u ∧ j = t) ∨ Passed t u i j := by
  obtain ⟨hij, hj | ⟨rfl, hi⟩⟩ := h
  · exact .inr ⟨hij, .inl hj⟩
  · rcases Nat.lt_succ_iff_lt_or_eq.1 hi with hi | rfl
    · exact .inr ⟨hij, .inr ⟨rfl, hi⟩⟩
    · exact .inl ⟨rfl, rfl⟩

omit [DecidableEq α] in
/-- The cell is set to what it is to tell. -/
theorem Filled.cells_set {t u : ℕ} {st : State s.length} (h : Filled s (Passed t u) st) (hu : u < s.length)
    (ht : t < s.length) {b : Bool} (hb : b = true ↔ PalindromeSpan s u t) (q : Cell s.length s.length)
    (hq : Passed t (u + 1) q.1 q.2) :
    (st.1.set (⟨u, hu⟩, ⟨t, ht⟩) b).get q = true ↔ PalindromeSpan s (q.1 : ℕ) (q.2 : ℕ) := by
  rw [Grid.get_set]
  split_ifs with hqp
  · rw [hqp]
    exact hb
  · refine h.cells q (hq.cases.resolve_left fun heq => hqp ?_)
    exact Prod.ext (Fin.ext heq.1) (Fin.ext heq.2)

/-- What is computed for a cell, from the one for the part without its ends. -/
theorem cell_eq {i j : ℕ} (hij : i < j) (hj : j < s.length)
    (hinner : ∀ p : Cell s.length s.length, (p.1 : ℕ) = i + 1 → (p.2 : ℕ) + 1 = j → (i : ℕ) + 3 ≤ j →
      (dp.get p = true ↔ PalindromeSpan s (p.1 : ℕ) (p.2 : ℕ))) :
    ∃ b, cell s dp i j = some b ∧ (b = true ↔ PalindromeSpan s i j) := by
  have hends := palindromeSpan_iff (s := s) (i := i) (j := j) (by omega) (by omega) (by omega)
  rw [item?_natCast (hij.trans hj), item?_natCast hj, Option.some_inj] at hends
  unfold cell
  rw [item?_natCast (hij.trans hj), item?_natCast hj]
  simp only [Option.bind_eq_bind, Option.bind_some]
  by_cases heq : s[i] = s[j]
  · rw [if_pos heq]
    by_cases hnear : (j : ℤ) - i < 3
    · refine ⟨true, if_pos hnear, iff_of_true rfl (hends.2 ⟨heq, ?_⟩)⟩
      exact palindromeSpan_of_le (by omega) (by omega) (by omega)
    · let p : Cell s.length s.length := (⟨i + 1, by omega⟩, ⟨j - 1, by omega⟩)
      have hp : ((i : ℤ) + 1 = (p.1 : ℕ)) ∧ ((j : ℤ) - 1 = (p.2 : ℕ)) := ⟨by simp [p], by simp only [p]; omega⟩
      refine ⟨dp.get p, ?_, ?_⟩
      · rw [if_neg hnear, hp.1, hp.2]
        exact Grid.item?_cell dp p
      · rw [hinner p rfl (Nat.sub_add_cancel (by omega)) (by omega), hends, ← hp.1, ← hp.2]
        exact (and_iff_right heq).symm
  · refine ⟨false, if_neg heq, iff_of_false Bool.false_ne_true fun h => heq (hends.1 h).1⟩

theorem fill_eq {t u : ℕ} (hu : u < t) (ht : t < s.length) {st : State s.length} (h : Filled s (Passed t u) st) :
    ∃ st', fill s t st u = some st' ∧ Filled s (Passed t (u + 1)) st' := by
  obtain ⟨dp, max_len, start⟩ := st
  obtain ⟨b, hcell, hiff⟩ : ∃ b, cell s dp u t = some b ∧ (b = true ↔ PalindromeSpan s u t) :=
    cell_eq hu ht fun p hp hp' _ => h.cells p ⟨by omega, .inl (by omega)⟩
  let p : Cell s.length s.length := (⟨u, by omega⟩, ⟨t, ht⟩)
  have hset : dp.setItem? u t b = some (dp.set p b) := Grid.setItem?_cell dp p b
  have hget : (dp.set p b).item? u t = some b := by
    rw [show (dp.set p b).item? u t = some ((dp.set p b).get p) from Grid.item?_cell _ p, Grid.get_set, if_pos rfl]
  have hcells := h.cells_set p.1.isLt ht hiff
  -- whether the part from `u` to `t` takes the place of the longest one
  by_cases hlong : b = true ∧ (t : ℤ) - u + 1 > max_len
  · refine ⟨(dp.set p b, (t : ℤ) - u + 1, (u : ℤ)), ?_, hcells, ?_, by simp only; omega, fun i j hij hspan => ?_⟩
    · unfold fill
      simp only [hcell, hset, hget, Option.bind_eq_bind, Option.bind_some]
      rw [if_pos hlong.1, if_pos hlong.2]
    · simp only
      rw [show (u : ℤ) + ((t : ℤ) - u + 1) - 1 = t by omega]
      exact hiff.1 hlong.1
    · rcases hij.cases with ⟨rfl, rfl⟩ | hij
      · exact le_rfl
      · exact (h.longest i j hij hspan).trans hlong.2.le
  · refine ⟨(dp.set p b, max_len, start), ?_, hcells, h.span, h.pos, fun i j hij hspan => ?_⟩
    · unfold fill
      simp only [hcell, hset, hget, Option.bind_eq_bind, Option.bind_some]
      by_cases hb : b = true
      · rw [if_pos hb, if_neg fun hgt => hlong ⟨hb, hgt⟩]
      · rw [if_neg hb]
    · rcases hij.cases with ⟨rfl, rfl⟩ | hij
      · exact not_lt.1 fun hgt => hlong ⟨hiff.2 hspan, hgt⟩
      · exact h.longest i j hij hspan

/-- The loops fill the table column by column. -/
theorem loops_eq (hs : 0 < s.length) (dp : Grid s.length s.length Bool) : ∃ st,
    (List.range' 1 (s.length - 1)).foldlM (fun st j => (List.range j).foldlM (fill s j) st) (dp, 1, 0) = some st ∧
      Filled s (Passed s.length 0) st := by
  have hfirst : Filled s (Passed 1 0) (dp, 1, 0) :=
    ⟨fun p hp => by obtain ⟨hij, hj | ⟨-, hi⟩⟩ := hp <;> omega, palindromeSpan_of_le le_rfl (by simpa using hs) le_rfl,
      le_rfl, fun i j hp => by obtain ⟨hij, hj | ⟨-, hi⟩⟩ := hp <;> omega⟩
  rw [List.range'_eq_map_range, List.foldlM_map]
  obtain ⟨st, hst, h⟩ := exists_foldlM_range
    (f := fun st j => (List.range (1 + j)).foldlM (fill s (1 + j)) st) (P := fun t st => Filled s (Passed (1 + t) 0) st)
    (s.length - 1) (fun t ht st h => by
      obtain ⟨st', hst', h'⟩ := exists_foldlM_range (f := fill s (1 + t))
        (P := fun u st => Filled s (Passed (1 + t) u) st)
        (1 + t) (fun u hu st h => fill_eq hu (by omega) h) h
      refine ⟨st', hst', h'.congr fun i j hp => ?_⟩
      obtain ⟨hij, hj | ⟨-, hi⟩⟩ := hp
      · exact ⟨hij, by omega⟩
      · omega) hfirst
  refine ⟨st, hst, ?_⟩
  rwa [Nat.add_sub_cancel' (Nat.succ_le_of_lt hs)] at h

omit [DecidableEq α] in
/-- The diagonal is in range. -/
theorem diagonal_eq (dp : Grid s.length s.length Bool) :
    ∃ dp', (List.range s.length).foldlM (fun dp (i : ℕ) => Grid.setItem? dp i i true) dp = some dp' := by
  obtain ⟨dp', h, -⟩ := exists_foldlM_range
    (f := fun dp (i : ℕ) => Grid.setItem? dp i i true) (P := fun _ _ => True) s.length
    (fun i hi dp _ => ⟨_, Grid.setItem?_cell dp (⟨i, hi⟩, ⟨i, hi⟩) true, trivial⟩) (s := dp) trivial
  exact ⟨dp', h⟩

theorem longestPalindrome_eq (s : List α) : ∃ t, longestPalindrome s = some t ∧ IsLongestPalindrome s t := by
  unfold longestPalindrome
  by_cases hsize : s.length < 2
  · refine ⟨s, if_pos hsize, List.infix_rfl, ?_, fun u hu _ => hu.length_le⟩
    rcases s with _ | ⟨a, _ | ⟨b, s⟩⟩
    · exact List.Palindrome.nil
    · exact List.Palindrome.singleton a
    · exact absurd hsize (by simp)
  · obtain ⟨dp, hdp⟩ := diagonal_eq (s := s) (Grid.replicate s.length s.length false)
    obtain ⟨⟨dp', max_len, start⟩, hst, h⟩ := loops_eq (s := s) (by omega) dp
    refine ⟨slice s start (start + max_len - 1 + 1), ?_, ?_⟩
    · rw [if_neg hsize]
      simp only [hdp, hst, Option.bind_eq_bind, Option.bind_some, Int.sub_add_cancel]
    · have hspan : PalindromeSpan s start (start + max_len - 1) := h.span
      have hpos : 1 ≤ max_len := h.pos
      apply hspan.isLongest (by omega)
      intro i j hij
      have hi := hij.nonneg
      have hj := hij.lt_length
      rcases lt_or_ge i j with hlt | hge
      · have hlong : (j.toNat : ℤ) - i.toNat + 1 ≤ max_len := h.longest i.toNat j.toNat ⟨by omega, .inl (by omega)⟩
          (by rwa [Int.toNat_of_nonneg hi, Int.toNat_of_nonneg (hi.trans hlt.le)])
        omega
      · omega

end Table

/-- The two functions return longest palindromes. -/
theorem longestPalindrome_longest : (∃ t, Returns (Centre.longestPalindrome s) t ∧ IsLongestPalindrome s t) ∧
    ∃ t, Table.longestPalindrome s = some t ∧ IsLongestPalindrome s t :=
  ⟨Centre.longestPalindrome_returns s, Table.longestPalindrome_eq s⟩

end GoodGoodStudy.LeetCode.LongestPalindrome
