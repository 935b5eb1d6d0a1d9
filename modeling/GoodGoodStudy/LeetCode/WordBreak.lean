/-
The exercise 139, word break. `dp` says of every beginning of the string whether it can be put together from words. For
a word that is longer than the beginning the index is below zero: it counts from the end of `dp`, and what is read does
not matter, since the last test fails. But the list must have that place, and it does not for a word with three letters
more than the string.
-/
import GoodGoodStudy.Lib.Loop
import GoodGoodStudy.Lib.Sequence

namespace GoodGoodStudy.LeetCode.WordBreak

open GoodGoodStudy.Lib

variable {α : Type*}

/-! ## The code -/

/-- A round of the inner loop. -/
def tryWord [DecidableEq α] (s : List α) (i : ℕ) (dp : List Bool) (word : List α) : Option (List Bool) := do
  if (← item? dp ((i : ℤ) - word.length)) ∧ slice s ((i : ℤ) - word.length) i = word ∧ (i : ℤ) - word.length ≥ 0 then
    setItem? dp i true
  else some dp

/-- `none` is an `IndexError`. -/
def wordBreak [DecidableEq α] (s : List α) (wordDict : List (List α)) : Option Bool := do
  let dp := List.replicate (s.length + 1) false
  let dp ← setItem? dp 0 true
  let dp ← (List.range' 1 s.length).foldlM (fun dp i => wordDict.foldlM (tryWord s i) dp) dp
  item? dp (-1)

example : wordBreak "leetcode".toList ["leet".toList, "code".toList] = some true := by decide

/-! ## Words -/

variable {s p w : List α} {words pre : List (List α)} {dp : List Bool} {i j : ℕ}

/-- The string is a concatenation of words, which may be used again. -/
def Segmented (words : List (List α)) (s : List α) : Prop :=
  ∃ ws : List (List α), (∀ w ∈ ws, w ∈ words) ∧ ws.flatten = s

theorem segmented_nil (words : List (List α)) : Segmented words [] := ⟨[], by simp, rfl⟩

theorem Segmented.concat (h : Segmented words p) (hw : w ∈ words) : Segmented words (p ++ w) := by
  obtain ⟨ws, hws, rfl⟩ := h
  refine ⟨ws ++ [w], fun v hv => ?_, by simp⟩
  rcases List.mem_append.1 hv with hv | hv
  · exact hws v hv
  · rwa [List.mem_singleton.1 hv]

/-- The last word that is not empty. -/
theorem segmented_iff (hs : s ≠ []) :
    Segmented words s ↔ ∃ w ∈ words, w ≠ [] ∧ ∃ p, s = p ++ w ∧ Segmented words p := by
  constructor
  · rintro ⟨ws, hws, rfl⟩
    induction ws using List.reverseRecOn with
    | nil => exact absurd rfl hs
    | append_singleton ws w ih =>
      have hws' : ∀ v ∈ ws, v ∈ words := fun v hv => hws v (List.mem_append_left _ hv)
      by_cases hw : w = []
      -- an empty word at the end changes nothing
      · subst hw
        have hflatten : (ws ++ [[]]).flatten = ws.flatten := by simp
        rw [hflatten] at hs ⊢
        exact ih hws' hs
      · exact ⟨w, hws w (by simp), hw, ws.flatten, by simp, ws, hws', rfl⟩
  · rintro ⟨w, hw, -, p, rfl, hp⟩
    exact hp.concat hw

/-! ## The table -/

/-- The round reads an element if the word is not too long. -/
theorem item?_word_isSome_iff (hdp : dp.length = s.length + 1) (hi : i ≤ s.length) :
    (item? dp ((i : ℤ) - w.length)).isSome ↔ w.length ≤ s.length + 1 + i := by
  rw [item?_isSome_iff, hdp]
  omega

/-- The word stands at the end of a beginning, and what is before it is known. -/
theorem exists_append_iff (hi : i ≤ s.length) (hw : w.length ≤ i) (P : ℕ → Prop) :
    (∃ p, s.take i = p ++ w ∧ P p.length) ↔ P (i - w.length) ∧ (s.take i).drop (i - w.length) = w := by
  constructor
  · rintro ⟨p, hp, hP⟩
    have hlen := congrArg List.length hp
    rw [List.length_take, List.length_append] at hlen
    obtain hlen : i - w.length = p.length := by omega
    rw [hlen, hp, List.drop_left]
    exact ⟨hP, rfl⟩
  · rintro ⟨hP, hdrop⟩
    refine ⟨(s.take i).take (i - w.length), ?_, ?_⟩
    · conv_lhs => rw [← List.take_append_drop (i - w.length) (s.take i), hdrop]
    · rwa [List.length_take, List.length_take, min_eq_left hi, min_eq_left (Nat.sub_le i _)]

/-- `dp` when the loop comes to the beginning with `i` letters, and has tried some words there. -/
structure Filled (s : List α) (words : List (List α)) (i : ℕ) (pre : List (List α)) (dp : List Bool) : Prop where
  length_eq : dp.length = s.length + 1
  before : ∀ j < i, dp.getD j false = true ↔ Segmented words (s.take j)
  here : dp.getD i false = true ↔ ∃ w ∈ pre, w ≠ [] ∧ ∃ p, s.take i = p ++ w ∧ Segmented words p
  behind : ∀ j, i < j → dp.getD j false = false

/-- All words have been tried. -/
theorem Filled.next (h : Filled s words i words dp) (hi : 0 < i) (his : i ≤ s.length) :
    Filled s words (i + 1) [] dp where
  length_eq := h.length_eq
  before j hj := by
    rcases Nat.lt_succ_iff_lt_or_eq.1 hj with hj | rfl
    · exact h.before j hj
    · have hne : s.take j ≠ [] := List.ne_nil_of_length_pos (by rw [List.length_take]; omega)
      rw [h.here, segmented_iff hne]
  here := by
    rw [h.behind (i + 1) (Nat.lt_succ_self i)]
    exact iff_of_false Bool.false_ne_true fun ⟨w, hw, _⟩ => absurd hw List.not_mem_nil
  behind j hj := h.behind j (Nat.lt_of_succ_lt hj)

theorem filled_start (s : List α) (words : List (List α)) :
    Filled s words 1 [] ((List.replicate (s.length + 1) false).set 0 true) := by
  have hget : ∀ j, ((List.replicate (s.length + 1) false).set 0 true).getD j false =
      if j = 0 then true else (List.replicate (s.length + 1) false).getD j false := getD_set (by simp) true false
  have hfalse : ∀ j, (List.replicate (s.length + 1) false).getD j false = false := fun j => by
    rw [List.getD_eq_getElem?_getD, List.getElem?_replicate]
    split_ifs <;> rfl
  refine ⟨by simp, fun j hj => ?_, ?_, fun j hj => ?_⟩
  · obtain rfl : j = 0 := by omega
    rw [hget, if_pos rfl]
    exact iff_of_true rfl (segmented_nil words)
  · rw [hget, if_neg Nat.one_ne_zero, hfalse]
    exact iff_of_false Bool.false_ne_true fun ⟨w, hw, _⟩ => absurd hw List.not_mem_nil
  · rw [hget, if_neg (by omega), hfalse]

/-! ## The rounds -/

variable [DecidableEq α]

/-- What is set for the beginning with `i` letters. -/
theorem tryWord_eq (hdp : dp.length = s.length + 1) (hi : i ≤ s.length) (hw : w.length ≤ s.length + 1 + i) :
    ∃ dp', tryWord s i dp w = some dp' ∧ dp'.length = s.length + 1 ∧ (∀ j, j ≠ i → dp'.getD j false = dp.getD j false) ∧
      (dp'.getD i false = true ↔ dp.getD i false = true ∨
        ∃ p, s.take i = p ++ w ∧ dp.getD p.length false = true) := by
  have hlt : i < dp.length := by omega
  rcases Nat.lt_or_ge i w.length with hlong | hshort
  · -- what is read counts from the end
    obtain ⟨b, hb⟩ := Option.isSome_iff_exists.1 ((item?_word_isSome_iff hdp hi).2 hw)
    refine ⟨dp, ?_, hdp, fun _ _ => rfl, (or_iff_left ?_).symm⟩
    · rw [tryWord, hb, Option.bind_eq_bind, Option.bind_some, if_neg]
      rintro ⟨-, -, hle⟩
      omega
    · rintro ⟨p, hp, -⟩
      have hlen := congrArg List.length hp
      rw [List.length_take, List.length_append] at hlen
      omega
  · have hindex : (i : ℤ) - w.length = (i - w.length : ℕ) := by omega
    have htry : tryWord s i dp w = if dp.getD (i - w.length) false = true ∧ (s.take i).drop (i - w.length) = w then
        setItem? dp i true else some dp := by
      rw [tryWord, hindex, item?_getD (by omega) false, Option.bind_eq_bind, Option.bind_some, slice_natCast]
      simp only [ge_iff_le, Int.natCast_nonneg, and_true]
    rw [htry, exists_append_iff hi hshort (dp.getD · false = true)]
    split_ifs with hcond
    · refine ⟨dp.set i true, setItem?_natCast hlt true, by rw [List.length_set, hdp], fun j hj => ?_, ?_⟩
      · rw [getD_set hlt, if_neg hj]
      · rw [getD_set hlt, if_pos rfl]
        exact iff_of_true rfl (Or.inr hcond)
    · exact ⟨dp, rfl, hdp, fun _ _ => rfl, (or_iff_left hcond).symm⟩

theorem Filled.tryWord (h : Filled s words i pre dp) (hi : i ≤ s.length) (hw : w.length ≤ s.length + 1 + i) :
    ∃ dp', tryWord s i dp w = some dp' ∧ Filled s words i (pre ++ [w]) dp' := by
  obtain ⟨dp', htry, hlen, hother, hiff⟩ := tryWord_eq h.length_eq hi hw
  refine ⟨dp', htry, hlen, fun j hj => ?_, ?_, fun j hj => ?_⟩
  · rw [hother j (Nat.ne_of_lt hj)]
    exact h.before j hj
  · rw [hiff, exists_mem_concat, ← h.here]
    by_cases hnil : w = []
    · -- nothing is new
      subst hnil
      have hsame : (∃ p, s.take i = p ++ [] ∧ dp.getD p.length false = true) → dp.getD i false = true := by
        rintro ⟨p, hp, hdp⟩
        have hlen : p.length = i := by
          rw [← List.append_nil p, ← hp, List.length_take, min_eq_left hi]
        rwa [hlen] at hdp
      rw [or_iff_left_of_imp hsame]
      exact (or_iff_left fun hnew => hnew.1 rfl).symm
    · refine or_congr_right ((and_iff_right hnil).trans ?_).symm
      refine exists_congr fun p => and_congr_right fun hp => ?_
      have hlen := congrArg List.length hp
      have hpos := List.length_pos_iff.2 hnil
      rw [List.length_take, List.length_append] at hlen
      have htake : s.take p.length = p := by
        have hprefix : p <+: s := ⟨w ++ s.drop i, by rw [← List.append_assoc, ← hp, List.take_append_drop]⟩
        exact (List.prefix_iff_eq_take.1 hprefix).symm
      rw [h.before p.length (by omega), htake]
  · rw [hother j (Nat.ne_of_gt hj)]
    exact h.behind j hj

/-! ## The result -/

theorem wordBreak_eq (s : List α) (wordDict : List (List α)) : wordBreak s wordDict =
    ((List.range' 1 s.length).foldlM (fun dp i => wordDict.foldlM (tryWord s i) dp)
      ((List.replicate (s.length + 1) false).set 0 true)).bind (item? · (-1)) := by
  have hset : setItem? (List.replicate (s.length + 1) false) 0 true =
      some ((List.replicate (s.length + 1) false).set 0 true) := setItem?_natCast (by simp) true
  rw [wordBreak, hset]
  rfl

theorem wordBreak_returns (h : ∀ w ∈ words, w.length ≤ s.length + 2) :
    ∃ b, wordBreak s words = some b ∧ (b = true ↔ Segmented words s) := by
  have hround : ∀ i, 1 ≤ i → i < 1 + s.length → ∀ dp, Filled s words i [] dp →
      ∃ dp', words.foldlM (tryWord s i) dp = some dp' ∧ Filled s words (i + 1) [] dp' := by
    intro i hi hlt dp hdp
    obtain ⟨dp', hfold, hdp'⟩ := exists_foldlM words (P := fun pre dp => Filled s words i pre dp)
      (fun pre w hw dp hdp => hdp.tryWord (by omega) (by have := h w hw; omega)) hdp
    exact ⟨dp', hfold, hdp'.next hi (by omega)⟩
  obtain ⟨dp, hfold, hdp⟩ := exists_foldlM_range' s.length 1 hround (filled_start s words)
  have hlast : item? dp (-1) = some (dp.getD s.length false) := by
    have hlen := hdp.length_eq
    have hneg : item? dp (-(1 : ℕ)) = dp.reverse[1 - 1]? := item?_neg Nat.one_pos (by omega)
    rw [List.getElem?_reverse (by omega), hlen] at hneg
    rw [List.getD_eq_getElem?_getD, List.getElem?_eq_getElem (by omega)]
    rw [Nat.sub_self, Nat.sub_zero, Nat.add_sub_cancel, List.getElem?_eq_getElem (by omega)] at hneg
    exact hneg
  refine ⟨_, by rw [wordBreak_eq, hfold, Option.bind_some, hlast], ?_⟩
  rw [hdp.before s.length (by omega), List.take_length]

theorem tryWord_eq_none (hdp : dp.length = s.length + 1) (hi : i ≤ s.length) (hlong : s.length + 1 + i < w.length) :
    tryWord s i dp w = none := by
  have hnone : item? dp ((i : ℤ) - w.length) = none := by
    rw [← Option.not_isSome_iff_eq_none, item?_word_isSome_iff hdp hi]
    omega
  rw [tryWord, hnone]
  rfl

/-- The first round of the outer loop comes to the long word, if no other one has raised. -/
theorem foldlM_tryWord_eq_none (hdp : dp.length = s.length + 1) (hi : i ≤ s.length) (hw : w ∈ words)
    (hlong : s.length + 1 + i < w.length) : words.foldlM (tryWord s i) dp = none := by
  induction words generalizing dp with
  | nil => exact absurd hw List.not_mem_nil
  | cons v words ih =>
    rw [List.foldlM_cons]
    rcases Nat.lt_or_ge (s.length + 1 + i) v.length with hv | hv
    · rw [tryWord_eq_none hdp hi hv]
      rfl
    · obtain ⟨dp', htry, hdp', -⟩ := tryWord_eq hdp hi hv
      rw [htry, Option.bind_eq_bind, Option.bind_some]
      refine ih hdp' ((List.mem_cons.1 hw).resolve_left ?_)
      rintro rfl
      omega

theorem wordBreak_raises (hs : s ≠ []) (hw : w ∈ words) (hlong : s.length + 2 < w.length) :
    wordBreak s words = none := by
  have hpos := List.length_pos_iff.2 hs
  obtain ⟨n, hn⟩ : ∃ n, s.length = n + 1 := ⟨s.length - 1, by omega⟩
  have hrange : List.range' 1 s.length = 1 :: List.range' 2 n := by rw [hn, List.range'_succ]
  rw [wordBreak_eq, hrange, List.foldlM_cons, foldlM_tryWord_eq_none (by simp) hpos hw (by omega)]
  rfl

/-- `dp[-3]` of a list with two elements. -/
theorem wordBreak_raises_abcd : wordBreak "a".toList ["abcd".toList] = none ∧
    ¬∃ b, wordBreak "a".toList ["abcd".toList] = some b ∧ (b = true ↔ Segmented ["abcd".toList] "a".toList) := by
  have hnone : wordBreak "a".toList ["abcd".toList] = none := by decide
  refine ⟨hnone, ?_⟩
  rintro ⟨b, hb, -⟩
  rw [hnone] at hb
  cases hb

/-- The function raises nothing, and is right, exactly if no word is more than two letters longer than the string. -/
theorem wordBreak_iff (s : List α) (wordDict : List (List α)) (hs : s ≠ []) :
    (∃ b, wordBreak s wordDict = some b ∧ (b = true ↔ Segmented wordDict s)) ↔
      ∀ w ∈ wordDict, w.length ≤ s.length + 2 := by
  refine ⟨fun ⟨b, hb, _⟩ w hw => ?_, wordBreak_returns⟩
  by_contra hlong
  rw [wordBreak_raises hs hw (not_le.1 hlong)] at hb
  cases hb

theorem wordBreak_iff_leetcode : (∃ b, wordBreak "leetcode".toList ["leet".toList, "code".toList] = some b ∧
    (b = true ↔ Segmented ["leet".toList, "code".toList] "leetcode".toList)) ↔
      ∀ w ∈ ["leet".toList, "code".toList], w.length ≤ "leetcode".toList.length + 2 :=
  wordBreak_iff "leetcode".toList ["leet".toList, "code".toList] (by decide)

end GoodGoodStudy.LeetCode.WordBreak
