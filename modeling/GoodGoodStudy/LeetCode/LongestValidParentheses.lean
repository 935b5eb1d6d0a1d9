/-
32. 最长有效括号: the length of the longest valid string of brackets in a string. `dp` has the length of the longest one
that ends at an index. The recurrence reads the number in front of the bracket that is closed; if this bracket is the
first one, the index is -1, and the last number is read, which is still 0.
-/
import Mathlib.Order.Bounds.Defs
import GoodGoodStudy.Lib.Brackets
import GoodGoodStudy.Lib.Loop
import GoodGoodStudy.Lib.Sequence

namespace GoodGoodStudy.LeetCode.LongestValidParentheses

open GoodGoodStudy.Lib

/-- A round of the loop. -/
def fill (s : List Char) (dp : List ℕ) (i : ℕ) : Option (List ℕ) := do
  let a ← item? s i
  if a = '(' then setItem? dp i 0
  else if a = ')' then
    let b ← item? s (i - 1)
    if b = '(' then
      if (i : ℤ) - 2 ≥ 0 then setItem? dp i ((← item? dp (i - 2)) + 2)
      else setItem? dp i 2
    else if b = ')' then
      let k := (i : ℤ) - (← item? dp (i - 1)) - 1
      if k ≥ 0 then
        if (← item? s k) = '(' then setItem? dp i ((← item? dp (i - 1)) + (← item? dp (k - 1)) + 2)
        else return dp
      else return dp
    else return dp
  else return dp

/-- `dp` when the loop comes to the index `i`. -/
def table (s : List Char) (i : ℕ) : Option (List ℕ) := do
  let dp := List.replicate s.length 0
  let dp ← setItem? dp 0 0
  (List.range' 1 (i - 1)).foldlM (fill s) dp

def longestValidParentheses (s : List Char) : Option ℕ :=
  if s = [] then return 0
  else do
    let dp ← table s s.length
    dp.max?

example : longestValidParentheses "()(())".toList = some 6 := by decide

variable {s rest : List Char} {dp : List ℕ} {i j n : ℕ}

abbrev Valid (w : List Char) : Prop := Balanced '(' ')' w

theorem open_ne_close : '(' ≠ ')' := by decide

/-- The longest valid string that ends in front of the index `j` has `n` letters. -/
def EndsAt (s : List Char) (j n : ℕ) : Prop := ∃ q b, s.take j = q ++ b ∧ LongestEnd '(' ')' q b ∧ b.length = n

/-- `dp` has its numbers in front of the index `i`, and is 0 from there on. -/
structure Filled (s : List Char) (i : ℕ) (dp : List ℕ) : Prop where
  length_eq : dp.length = s.length
  before : ∀ j < i, ∀ n, dp[j]? = some n → EndsAt s (j + 1) n
  behind : ∀ j, i ≤ j → j < s.length → dp[j]? = some 0

theorem endsAt_zero (s : List Char) : EndsAt s 0 0 := ⟨[], [], by simp, longestEnd_nil, rfl⟩

/-- The last number has not been set before the last round. -/
theorem Filled.last (h : Filled s i dp) (hi : i < s.length) : item? dp (-1) = some 0 := by
  have hlen : 1 ≤ dp.length := by rw [h.length_eq]; omega
  have hneg := item?_neg Nat.one_pos hlen
  rw [List.getElem?_reverse hlen, h.length_eq, h.behind _ (by omega) (by omega)] at hneg
  exact hneg

/-- The number that is read at the index in front of `j`, although that may be -1. -/
theorem Filled.read (h : Filled s i dp) (hj : j ≤ i) (hi : i < s.length) :
    ∃ n, item? dp ((j : ℤ) - 1) = some n ∧ EndsAt s j n := by
  cases j with
  | zero => exact ⟨0, h.last hi, endsAt_zero s⟩
  | succ j =>
    have hlt : j < dp.length := by rw [h.length_eq]; omega
    have hindex : ((j + 1 : ℕ) : ℤ) - 1 = j := by omega
    rw [hindex]
    exact ⟨dp[j], item?_natCast hlt, h.before j hj _ (List.getElem?_eq_getElem hlt)⟩

/-- A number is set. -/
theorem Filled.set (h : Filled s i dp) (hi : i < s.length) (hn : EndsAt s (i + 1) n) :
    ∃ dp', setItem? dp i n = some dp' ∧ Filled s (i + 1) dp' := by
  have hlt : i < dp.length := h.length_eq ▸ hi
  refine ⟨dp.set i n, setItem?_natCast hlt n, by rw [List.length_set, h.length_eq], fun j hj m hm => ?_,
    fun j hj hlen => ?_⟩
  · rcases Nat.lt_succ_iff_lt_or_eq.1 hj with hj | rfl
    · rw [List.getElem?_set_ne (Nat.ne_of_gt hj)] at hm
      exact h.before j hj m hm
    · rw [List.getElem?_set_self hlt] at hm
      exact Option.some.inj hm ▸ hn
  · rw [List.getElem?_set_ne (by omega)]
    exact h.behind j (by omega) hlen

/-- The number is left at 0. -/
theorem Filled.keep (h : Filled s i dp) (hi : i < s.length) (hn : EndsAt s (i + 1) 0) : Filled s (i + 1) dp where
  length_eq := h.length_eq
  before j hj m hm := by
    rcases Nat.lt_succ_iff_lt_or_eq.1 hj with hj | rfl
    · exact h.before j hj m hm
    · rw [h.behind j le_rfl hi] at hm
      exact Option.some.inj hm ▸ hn
  behind j hj hlen := h.behind j (by omega) hlen

/-! ## The recurrence -/

theorem endsAt_open (hi : s[i]? = some '(') : EndsAt s (i + 1) 0 := by
  refine ⟨s.take i ++ ['('], [], ?_, longestEnd_opening open_ne_close _, rfl⟩
  rw [List.append_nil, List.take_add_one, hi]
  rfl

/-- The bracket at `i` closes the one in front of the longest string that ends there. -/
theorem EndsAt.close {m : ℕ} (h : EndsAt s i n) (hi : s[i]? = some ')') (hsum : j + n + 1 = i) (hj : s[j]? = some '(')
    (h' : EndsAt s j m) : EndsAt s (i + 1) (n + m + 2) := by
  obtain ⟨q, b, hq, hlong, rfl⟩ := h
  obtain ⟨q', b', hq', hlong', rfl⟩ := h'
  have hlt : i < s.length := (List.getElem?_eq_some_iff.1 hi).1
  have hlen : q.length = j + 1 := by
    have hlen := congrArg List.length hq
    rw [List.length_take, List.length_append] at hlen
    omega
  have hq'' : q = q' ++ b' ++ ['('] := by
    have htake : q = s.take (j + 1) := by
      have hpre : q <+: s := (List.prefix_append q b).trans (hq ▸ List.take_prefix i s)
      rw [← hlen]
      exact List.prefix_iff_eq_take.1 hpre
    rw [htake, List.take_add_one, hj, hq']
    rfl
  subst hq''
  refine ⟨q', b' ++ ('(' :: b ++ [')']), ?_, hlong.close open_ne_close hlong', ?_⟩
  · rw [List.take_add_one, hi, hq]
    simp
  · simp only [List.length_append, List.length_cons, List.length_nil]
    omega

/-- The bracket at `i` closes nothing. -/
theorem EndsAt.stop (h : EndsAt s i n) (hi : s[i]? = some ')') (hj : ∀ j, j + n + 1 = i → s[j]? ≠ some '(') :
    EndsAt s (i + 1) 0 := by
  obtain ⟨q, b, hq, hlong, rfl⟩ := h
  have hlt : i < s.length := (List.getElem?_eq_some_iff.1 hi).1
  have hlen := congrArg List.length hq
  rw [List.length_take, List.length_append] at hlen
  refine ⟨q ++ b ++ [')'], [], ?_, hlong.stop open_ne_close fun q' hq' => ?_, rfl⟩
  · rw [List.take_add_one, hi, hq, List.append_nil]
    rfl
  · subst hq'
    rw [List.length_append, List.length_singleton] at hlen
    refine hj q'.length (by omega) ?_
    have hget : (s.take i)[q'.length]? = some '(' := by simp [hq]
    rwa [List.getElem?_take_of_lt (by omega)] at hget

/-- The bracket at `i + 1` closes the one in front of it. -/
theorem fill_pair (h : Filled s (i + 1) dp) (hi : i + 1 < s.length) (ha : s[i + 1] = ')') (hb : s[i] = '(') :
    ∃ dp', fill s dp (i + 1 : ℕ) = some dp' ∧ Filled s (i + 1 + 1) dp' := by
  have hget : s[i + 1]? = some ')' := ha ▸ List.getElem?_eq_getElem hi
  have hprev : s[i]? = some '(' := hb ▸ List.getElem?_eq_getElem (by omega)
  have hindex : ((i + 1 : ℕ) : ℤ) - 1 = (i : ℕ) := by omega
  have hclose : ∀ m, EndsAt s i m → EndsAt s (i + 1 + 1) (m + 2) := fun m hends => by
    have hclose := (endsAt_open hprev).close hget rfl hprev hends
    rwa [Nat.zero_add] at hclose
  unfold fill
  rw [item?_natCast hi, ha, hindex, item?_natCast (show i < s.length by omega), hb]
  simp only [Option.bind_eq_bind, Option.bind_some]
  rw [if_neg (by decide), if_pos trivial, if_pos trivial]
  split_ifs with htwo
  · obtain ⟨m, hm, hends⟩ := h.read (Nat.le_succ i) hi
    rw [show ((i + 1 : ℕ) : ℤ) - 2 = (i : ℤ) - 1 by omega, hm, Option.bind_some]
    exact h.set hi (hclose m hends)
  · obtain rfl : i = 0 := by omega
    exact h.set hi (hclose 0 (endsAt_zero s))

/-- What the bracket at `i + 1` closes, if anything, stands in front of the longest string that ends there. -/
theorem fill_close (h : Filled s (i + 1) dp) (hi : i + 1 < s.length) (ha : s[i + 1] = ')') (hb : s[i] = ')') :
    ∃ dp', fill s dp (i + 1 : ℕ) = some dp' ∧ Filled s (i + 1 + 1) dp' := by
  have hget : s[i + 1]? = some ')' := ha ▸ List.getElem?_eq_getElem hi
  have hindex : ((i + 1 : ℕ) : ℤ) - 1 = (i : ℕ) := by omega
  have hitem : item? s (((i + 1 : ℕ) : ℤ) - 1) = some ')' := by
    rw [hindex, item?_natCast (show i < s.length by omega), hb]
  obtain ⟨n, hn, hends⟩ := h.read le_rfl hi
  unfold fill
  rw [item?_natCast hi, ha, hitem, hn]
  simp only [Option.bind_eq_bind, Option.bind_some]
  rw [if_neg (by decide), if_pos trivial, if_neg (by decide), if_pos trivial]
  split_ifs with hk
  · obtain ⟨j, hj⟩ := Int.eq_ofNat_of_zero_le hk
    have hlt : j < s.length := by omega
    have hjget : s[j]? = some s[j] := List.getElem?_eq_getElem hlt
    rw [hj, item?_natCast hlt, Option.bind_some]
    split_ifs with hopen
    · rw [hopen] at hjget
      obtain ⟨m, hm, hends'⟩ := h.read (show j ≤ i + 1 by omega) hi
      rw [hm, Option.bind_some]
      exact h.set hi (hends.close hget (by omega) hjget hends')
    · refine ⟨dp, rfl, h.keep hi (hends.stop hget fun j' hj' hopen' => ?_)⟩
      obtain rfl : j' = j := by omega
      exact hopen (Option.some.inj (hjget.symm.trans hopen'))
  · exact ⟨dp, rfl, h.keep hi (hends.stop hget fun j' hj' => by omega)⟩

theorem fill_filled (hs : ∀ a ∈ s, a = '(' ∨ a = ')') (hpos : 0 < i) (hi : i < s.length) (h : Filled s i dp) :
    ∃ dp', fill s dp i = some dp' ∧ Filled s (i + 1) dp' := by
  obtain ⟨i, rfl⟩ : ∃ k, i = k + 1 := ⟨i - 1, by omega⟩
  rcases hs s[i + 1] (List.getElem_mem hi) with ha | ha
  · have hfill : fill s dp (i + 1 : ℕ) = setItem? dp (i + 1 : ℕ) 0 := by
      unfold fill
      rw [item?_natCast hi, Option.bind_eq_bind, Option.bind_some, if_pos ha]
    rw [hfill]
    exact h.set hi (endsAt_open (ha ▸ List.getElem?_eq_getElem hi))
  · rcases hs s[i] (List.getElem_mem (by omega)) with hb | hb
    · exact fill_pair h hi ha hb
    · exact fill_close h hi ha hb

theorem filled_one {a : Char} (hs : s = a :: rest) (ha : a = '(' ∨ a = ')') :
    Filled s 1 (List.replicate s.length 0) := by
  subst hs
  refine ⟨List.length_replicate, fun j hj n hn => ?_, fun j _ hlen => List.getElem?_replicate_of_lt hlen⟩
  obtain rfl : j = 0 := by omega
  rw [List.getElem?_replicate_of_lt (by simp)] at hn
  obtain rfl := Option.some.inj hn
  rcases ha with rfl | rfl
  · exact endsAt_open rfl
  · exact (endsAt_zero _).stop rfl fun j hj => absurd hj (Nat.succ_ne_zero _)

theorem table_eq (hpos : 0 < s.length) (i : ℕ) :
    table s (i + 1) = (List.range' 1 i).foldlM (fill s) (List.replicate s.length 0) := by
  have hset : setItem? (List.replicate s.length 0) 0 0 = some (List.replicate s.length 0) := by
    have hlt : 0 < (List.replicate s.length 0).length := by simpa using hpos
    have hset := setItem?_natCast hlt 0
    rwa [List.set_replicate_self] at hset
  exact congrArg (Option.bind · fun dp => (List.range' 1 i).foldlM (fill s) dp) hset

/-- What the table has when the loop comes to an index. -/
theorem table_filled (hs : ∀ a ∈ s, a = '(' ∨ a = ')') (hi : i < s.length) :
    ∃ dp, table s (i + 1) = some dp ∧ Filled s (i + 1) dp := by
  induction i with
  | zero =>
    obtain ⟨a, rest, rfl⟩ := List.exists_cons_of_length_pos hi
    exact ⟨_, table_eq hi 0, filled_one rfl (hs a List.mem_cons_self)⟩
  | succ i ih =>
    obtain ⟨dp, hdp, hfilled⟩ := ih (by omega)
    obtain ⟨dp', hdp', hfilled'⟩ := fill_filled hs (Nat.succ_pos i) hi hfilled
    refine ⟨dp', ?_, hfilled'⟩
    rw [table_eq (by omega)] at hdp ⊢
    rw [List.range'_1_concat, List.foldlM_append, hdp, Option.bind_eq_bind, Option.bind_some, List.foldlM_cons,
      Nat.add_comm 1 i, hdp']
    rfl

/-- The lengths of the valid strings in `s`. -/
def ValidLengths (s : List Char) : Set ℕ := {n | ∃ w, w <:+: s ∧ Valid w ∧ n = w.length}

theorem EndsAt.mem (h : EndsAt s j n) : n ∈ ValidLengths s := by
  obtain ⟨q, b, hq, hlong, rfl⟩ := h
  refine ⟨b, ?_, hlong.balanced, rfl⟩
  exact (hq ▸ List.suffix_append q b).isInfix.trans (List.take_prefix j s).isInfix

theorem EndsAt.le {w : List Char} (h : EndsAt s j n) (hw : w <:+ s.take j) (hvalid : Valid w) : w.length ≤ n := by
  obtain ⟨q, b, hq, hlong, rfl⟩ := h
  exact hlong.longest w (hq ▸ hw) hvalid

theorem Filled.isGreatest (hs : s ≠ []) (h : Filled s s.length dp) :
    ∃ n, dp.max? = some n ∧ IsGreatest (ValidLengths s) n := by
  have hpos := List.length_pos_iff.2 hs
  have hlength := h.length_eq
  obtain ⟨n, hn⟩ : ∃ n, dp.max? = some n := by
    refine Option.isSome_iff_exists.1 (List.isSome_max?_of_ne_nil fun hnil => ?_)
    rw [hnil, List.length_nil] at hlength
    omega
  obtain ⟨hmem, hmax⟩ := List.max?_eq_some_iff.1 hn
  refine ⟨n, hn, ?_, ?_⟩
  · obtain ⟨j, hj, hget⟩ := List.getElem_of_mem hmem
    exact (h.before j (by omega) n (hget ▸ List.getElem?_eq_getElem hj)).mem
  · rintro _ ⟨w, ⟨pre, post, rfl⟩, hvalid, rfl⟩
    rcases Nat.eq_zero_or_pos w.length with hzero | hw
    · rw [hzero]
      exact Nat.zero_le n
    · -- the string ends at an index of the table
      obtain ⟨j, hj⟩ : ∃ j, j + 1 = (pre ++ w).length := ⟨(pre ++ w).length - 1, by rw [List.length_append]; omega⟩
      have hlt : j < dp.length := by
        rw [hlength, List.length_append]
        omega
      have hends := h.before j (by omega) _ (List.getElem?_eq_getElem hlt)
      refine (hends.le ?_ hvalid).trans (hmax _ (List.getElem_mem hlt))
      rw [hj, List.take_left]
      exact List.suffix_append pre w

/-- For a string of brackets the result is the length of the longest valid string in it. The last number, which may be
read at the index -1, is 0 whenever a round begins. -/
theorem longestValidParentheses_isGreatest (s : List Char) (hs : ∀ a ∈ s, a = '(' ∨ a = ')') :
    (∃ n, longestValidParentheses s = some n ∧ IsGreatest (ValidLengths s) n) ∧
      ∀ i, 0 < i → i < s.length → ∃ dp, table s i = some dp ∧ item? dp (-1) = some 0 := by
  constructor
  · unfold longestValidParentheses
    by_cases hnil : s = []
    · subst hnil
      refine ⟨0, rfl, ⟨[], List.infix_rfl, balanced_nil, rfl⟩, ?_⟩
      rintro _ ⟨w, hw, -, rfl⟩
      rw [List.infix_nil.1 hw]
      exact le_rfl
    · have hpos := List.length_pos_iff.2 hnil
      obtain ⟨dp, hdp, hfilled⟩ := table_filled (i := s.length - 1) hs (by omega)
      rw [Nat.sub_add_cancel hpos] at hdp hfilled
      rw [if_neg hnil, hdp]
      exact hfilled.isGreatest hnil
  · intro i hpos hi
    obtain ⟨dp, hdp, hfilled⟩ := table_filled (i := i - 1) hs (by omega)
    rw [Nat.sub_add_cancel hpos] at hdp hfilled
    exact ⟨dp, hdp, hfilled.last (by omega)⟩

theorem longestValidParentheses_isGreatest_four :
    (∀ a ∈ ")()())".toList, a = '(' ∨ a = ')') ∧
      ∃ n, longestValidParentheses ")()())".toList = some n ∧ IsGreatest (ValidLengths ")()())".toList) n := by
  have hs : ∀ a ∈ ")()())".toList, a = '(' ∨ a = ')' := by simp
  exact ⟨hs, (longestValidParentheses_isGreatest _ hs).1⟩

end GoodGoodStudy.LeetCode.LongestValidParentheses
