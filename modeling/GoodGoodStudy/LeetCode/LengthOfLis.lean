/-
300. 最长上升子序列: `Solution` returns the length of a longest increasing subsequence, and `Solution2` returns one. In
both `dp[i]` ends as the length of a longest one that ends in the element at `i`. `none` is an exception.
-/
import Mathlib.Data.List.MinMax
import GoodGoodStudy.Lib.Rising
import GoodGoodStudy.Lib.Sequence

namespace GoodGoodStudy.LeetCode.LengthOfLis

open GoodGoodStudy.Lib

variable {α : Type} [LinearOrder α]

/-! ## 动态规划 -/

namespace Solution

/-- The body of the loop over `j`. -/
def look (nums : List α) (i : ℕ) (dp : List ℕ) (j : ℕ) : Option (List ℕ) := do
  if (← item? nums j) < (← item? nums i) then setItem? dp i (max (← item? dp i) ((← item? dp j) + 1))
  else return dp

/-- The loop over `j`, from `i` down to 0. -/
def looks (nums : List α) (dp : List ℕ) (i : ℕ) : Option (List ℕ) :=
  (List.range (i + 1)).reverse.foldlM (look nums i) dp

def lengthOfLIS : List α → Option ℕ
  | [] => return 0
  | nums => do
    let dp := nums.map fun _ => 1
    let dp ← (List.range' 1 (nums.length - 1)).foldlM (looks nums) dp
    dp.max?

end Solution

/-! ## 贪心+二分 -/

/-- `bisect.bisect_left(xs, x, lo, hi)` -/
def bisect_left (xs : List α) (x : α) (lo hi : ℕ) : Option ℕ :=
  if lo < hi then do
    let mid := (lo + hi) / 2
    if (← item? xs mid) < x then bisect_left xs x (mid + 1) hi else bisect_left xs x lo mid
  else return lo
termination_by hi - lo

namespace Solution2

/-- The body of the first loop, with `dp` and `helper`. -/
def place : List ℕ × List α → α × ℕ → Option (List ℕ × List α)
  | (dp, helper), (a, i) => do
    if a > (← item? helper (-1)) then
      let helper := helper ++ [a]
      return (← setItem? dp i helper.length, helper)
    else
      let pos ← bisect_left helper a 0 helper.length
      return (← setItem? dp i (pos + 1), ← setItem? helper pos a)

/-- The body of the second loop, with `length` and `helper`. -/
def pick (arr : List α) (dp : List ℕ) : ℤ × List α → ℕ → Option (ℤ × List α)
  | (length, helper), i => do
    if (← item? dp i) = length then
      let length := length - 1
      return (length, ← setItem? helper length (← item? arr i))
    else return (length, helper)

/-- The result is `None` for the empty list. -/
def lengthOfLIS : List α → Option (Option (List α))
  | [] => return none
  | arr => do
    let n := arr.length
    let dp := List.replicate n 1
    let helper := [← item? arr 0]
    let (dp, helper) ← (arr.tail.zipIdx 1).foldlM place (dp, helper)
    let (_, helper) ← (List.range n).reverse.foldlM (pick arr dp) ((helper.length : ℤ), helper)
    return some helper

end Solution2

/-! ## `dp` -/

variable {l : List (α × ℕ)} {nums : List α} {dp : List ℕ}

omit [LinearOrder α] in
/-- Behind ranked elements comes the next one. -/
theorem item?_values {p : α × ℕ} (h : values (p :: l) <+: nums) : item? nums l.length = some p.1 := by
  obtain ⟨rest, rfl⟩ := h
  rw [values_cons, List.append_assoc]
  exact item?_append (by rw [length_values]) p.1 rest

omit [LinearOrder α] in
theorem item?_ranks {p : α × ℕ} (h : ranks (p :: l) <+: dp) : item? dp l.length = some p.2 := by
  obtain ⟨rest, rfl⟩ := h
  rw [ranks_cons, List.append_assoc]
  exact item?_append (by rw [length_ranks]) p.2 rest

omit [LinearOrder α] in
theorem values_of_cons {p : α × ℕ} (h : values (p :: l) <+: nums) : values l <+: nums :=
  (values_cons p l ▸ List.prefix_append _ _).trans h

omit [LinearOrder α] in
theorem ranks_of_cons {p : α × ℕ} (h : ranks (p :: l) <+: dp) : ranks l <+: dp :=
  (ranks_cons p l ▸ List.prefix_append _ _).trans h

namespace Solution

section Look

variable {a : α} {i : ℕ}

/-- One round reads the element and the number at `j`, and may change the number at `i`. -/
theorem look_eq (ha : item? nums i = some a) (hi : dp.length = i) {p : α × ℕ} (hnums : values (p :: l) <+: nums)
    (hdp : ranks (p :: l) <+: dp) (r : ℕ) (e : List ℕ) :
    look nums i (dp ++ r :: e) l.length = some (dp ++ (if p.1 < a then max r (p.2 + 1) else r) :: e) := by
  have hplace : (i : ℤ) = dp.length := by rw [hi]
  rw [look, item?_values hnums, ha]
  simp only [Option.bind_eq_bind, Option.bind_some]
  split
  · rw [item?_append hplace, item?_ranks (hdp.trans (List.prefix_append _ _))]
    exact setItem?_append hplace r _ e
  · rfl

theorem looks_from (ha : item? nums i = some a) (hi : dp.length = i) (hnums : values l <+: nums) (hdp : ranks l <+: dp)
    (r : ℕ) (e : List ℕ) :
    (List.range l.length).reverse.foldlM (look nums i) (dp ++ r :: e) = some (dp ++ rankFrom a l r :: e) := by
  induction l generalizing r with
  | nil => rfl
  | cons p l ih =>
    rw [List.length_cons, List.range_succ, List.reverse_append, List.reverse_singleton, List.singleton_append,
      List.foldlM_cons, look_eq ha hi hnums hdp]
    exact ih (values_of_cons hnums) (ranks_of_cons hdp) _

end Look

/-- A round of the outer loop ranks the next element. -/
theorem looks_eq (l : List (α × ℕ)) (a : α) (rest : List α) (e : List ℕ) :
    looks (values l ++ a :: rest) (ranks l ++ 1 :: e) l.length = some (ranks ((a, rankFrom a l 1) :: l) ++ e) := by
  have ha : item? (values l ++ a :: rest) l.length = some a := item?_append (by rw [length_values]) a rest
  -- the first round of the inner loop compares the element with itself
  have hself : look (values l ++ a :: rest) l.length (ranks l ++ 1 :: e) l.length = some (ranks l ++ 1 :: e) := by
    rw [look, ha]
    exact if_neg (lt_irrefl a)
  rw [looks, List.range_succ, List.reverse_append, List.reverse_singleton, List.singleton_append, List.foldlM_cons,
    hself, ranks_cons, List.append_assoc]
  exact looks_from ha (length_ranks l) (List.prefix_append _ _) List.prefix_rfl 1 e

/-- The outer loop ranks all elements. -/
theorem looks_all (rest : List α) (h : Ranked l) :
    ∃ l', Ranked l' ∧ values l' = values l ++ rest ∧ (List.range' l.length rest.length).foldlM
      (looks (values l ++ rest)) (ranks l ++ List.replicate rest.length 1) = some (ranks l') := by
  induction rest generalizing l with
  | nil =>
    refine ⟨l, h, (List.append_nil _).symm, ?_⟩
    rw [List.length_nil, List.replicate_zero, List.append_nil (ranks l)]
    rfl
  | cons a rest ih =>
    obtain ⟨l', hranked, hvalues, hrun⟩ := ih (l := (a, rankFrom a l 1) :: l) ⟨isRank_rankFrom a l, h⟩
    rw [values_cons, List.append_assoc] at hvalues hrun
    refine ⟨l', hranked, hvalues, ?_⟩
    rw [List.length_cons, List.range'_succ, List.replicate_succ, List.foldlM_cons, looks_eq]
    exact hrun

theorem lengthOfLIS_isGreatest (a : α) (rest : List α) :
    ∃ n, lengthOfLIS (a :: rest) = some n ∧ IsGreatest (RisingLengths (a :: rest)) n := by
  have hfirst : Ranked [(a, 1)] := ⟨isRank_rankFrom a [], trivial⟩
  obtain ⟨l, hranked, hvalues, hrun⟩ := looks_all rest hfirst
  have hdp : (a :: rest).map (fun _ => 1) = 1 :: List.replicate rest.length 1 := by
    rw [List.map_const', List.length_cons, List.replicate_succ]
  have heq : lengthOfLIS (a :: rest) = (ranks l).max? := by
    change ((List.range' 1 rest.length).foldlM (looks (a :: rest)) ((a :: rest).map fun _ => 1)).bind List.max? = _
    rw [hdp]
    exact (congrArg (Option.bind · List.max?) hrun).trans (Option.bind_some _ _)
  obtain ⟨n, hn⟩ : ∃ n, (ranks l).max? = some n := by
    refine Option.isSome_iff_exists.1 (List.isSome_max?_of_ne_nil fun hnil => ?_)
    have hlength := congrArg List.length hvalues
    rw [length_values, ← length_ranks, hnil, List.length_append, length_values, List.length_singleton] at hlength
    exact absurd hlength (by rw [List.length_nil]; omega)
  obtain ⟨hmem, hmax⟩ := List.max?_eq_some_iff.1 hn
  obtain ⟨⟨b, n⟩, hb, rfl⟩ := List.mem_map.1 (List.mem_reverse.1 hmem)
  refine ⟨n, heq.trans hn, ?_⟩
  have hgreatest := hranked.isGreatest hb fun p hp => hmax _ (List.mem_reverse.2 (List.mem_map_of_mem hp))
  rwa [hvalues] at hgreatest

end Solution

/-! ## `helper` -/

/-- The search ends at the first element that is not less. -/
theorem bisect_left_eq {ys zs : List α} {a : α} (hys : ∀ y ∈ ys, y < a) (hzs : ∀ z ∈ zs, a ≤ z) {lo hi : ℕ}
    (hlo : lo ≤ ys.length) (hle : ys.length ≤ hi) (hhi : hi ≤ (ys ++ zs).length) :
    bisect_left (ys ++ zs) a lo hi = some ys.length := by
  induction hm : hi - lo using Nat.strong_induction_on generalizing lo hi with
  | _ m ih =>
    rw [bisect_left]
    split_ifs with hlt
    · generalize hmid : (lo + hi) / 2 = mid
      have hbound : mid < (ys ++ zs).length := by omega
      rw [Option.bind_eq_bind]
      dsimp only
      rw [item?_natCast hbound, Option.bind_some]
      split_ifs with hless
      · refine ih _ (by omega) (not_lt.1 fun hge => ?_) hle hhi rfl
        exact absurd (le_of_place hzs (Nat.le_of_lt_succ hge) (List.getElem?_eq_getElem hbound)) (not_le.2 hless)
      · refine ih _ (by omega) hlo (not_lt.1 fun hgt => hless ?_) (by omega) rfl
        rw [List.getElem_append_left hgt]
        exact hys _ (List.getElem_mem hgt)
    · have heq : lo = ys.length := by omega
      rw [heq]
      rfl

namespace Solution2

/-- Either way the element is put to its place in `helper`, and the place is its rank. -/
theorem place_eq {lo hi : List α} {a : α} (hne : lo ++ hi ≠ []) (hlo : ∀ x ∈ lo, x < a) (hhi : ∀ x ∈ hi, a ≤ x)
    (l : List (α × ℕ)) (e : List ℕ) :
    place (ranks l ++ 1 :: e, lo ++ hi) (a, l.length) =
      some (ranks ((a, lo.length + 1) :: l) ++ e, lo ++ a :: hi.tail) := by
  have hset (r : ℕ) : setItem? (ranks l ++ 1 :: e) l.length r = some (ranks l ++ r :: e) :=
    setItem?_append (by rw [length_ranks]) 1 r e
  rw [ranks_cons, List.append_assoc, place]
  rcases List.eq_nil_or_concat hi with rfl | ⟨hi', c, rfl⟩
  · -- every element of `helper` is smaller: the new one is appended
    obtain ⟨lo', c, rfl⟩ := (List.eq_nil_or_concat lo).resolve_left (by simpa using hne)
    have hlast : c < a := hlo c (by simp)
    rw [List.append_nil, List.concat_eq_append, item?_concat, Option.bind_eq_bind, Option.bind_some, if_pos hlast]
    simp only [hset, Option.bind_eq_bind, Option.bind_some, List.length_append, List.length_singleton]
    rfl
  · -- the last element is not, and the search finds the first that is not
    have hlast : ¬ c < a := (hhi c (by simp)).not_gt
    have hsplit : lo ++ hi'.concat c = (lo ++ hi') ++ [c] := by simp
    have hpos := bisect_left_eq hlo hhi (Nat.zero_le _) (by simp) le_rfl
    have hput : setItem? (lo ++ hi'.concat c) lo.length a = some (lo ++ a :: (hi'.concat c).tail) := by
      cases hi' with
      | nil => exact setItem?_append rfl c a []
      | cons b hi' => exact setItem?_append rfl b a _
    have hitem : item? (lo ++ hi'.concat c) (-1) = some c := by rw [hsplit, item?_concat]
    rw [hitem, Option.bind_eq_bind, Option.bind_some, if_neg hlast, hpos]
    simp only [Option.bind_eq_bind, Option.bind_some, hset, hput]
    rfl

/-- The first loop ranks all elements, and leaves the least element of every rank in `helper`. -/
theorem place_all (rest : List α) {helper : List α} (hne : helper ≠ []) (h : Ranked l) (htops : Tops l helper) :
    ∃ l' helper', Ranked l' ∧ Tops l' helper' ∧ values l' = values l ++ rest ∧
      (rest.zipIdx l.length).foldlM place (ranks l ++ List.replicate rest.length 1, helper) =
        some (ranks l', helper') := by
  induction rest generalizing l helper with
  | nil =>
    refine ⟨l, helper, h, htops, (List.append_nil _).symm, ?_⟩
    rw [List.length_nil, List.replicate_zero, List.append_nil (ranks l)]
    rfl
  | cons a rest ih =>
    obtain ⟨lo, hi, rfl, hlo, hhi⟩ := exists_place htops.rising a
    have hrank : Ranked ((a, lo.length + 1) :: l) := ⟨htops.isRank hlo hhi, h⟩
    obtain ⟨l', helper', hranked, htops', hvalues, hrun⟩ := ih (by simp) hrank (htops.step hlo hhi)
    rw [values_cons, List.append_assoc] at hvalues
    refine ⟨l', helper', hranked, htops', hvalues, ?_⟩
    rw [List.zipIdx_cons, List.length_cons, List.replicate_succ, List.foldlM_cons, place_eq hne hlo hhi]
    exact hrun

section Pick

variable {p : α × ℕ}

omit [LinearOrder α] in
theorem pick_hit (hnums : values (p :: l) <+: nums) (hdp : ranks (p :: l) <+: dp) {lo : List α}
    (hrank : p.2 = lo.length + 1) (x : α) (done : List α) :
    pick nums dp ((p.2 : ℤ), lo ++ x :: done) l.length = some ((lo.length : ℤ), lo ++ p.1 :: done) := by
  have hlength : (p.2 : ℤ) - 1 = lo.length := by omega
  rw [pick, item?_ranks hdp, item?_values hnums, Option.bind_eq_bind, Option.bind_some, if_pos rfl, hlength]
  simp only [Option.bind_some, Option.bind_eq_bind, setItem?_append]
  rfl

omit [LinearOrder α] in
theorem pick_skip (hdp : ranks (p :: l) <+: dp) {n : ℕ} (hrank : p.2 ≠ n) (helper : List α) :
    pick nums dp ((n : ℤ), helper) l.length = some ((n : ℤ), helper) := by
  rw [pick, item?_ranks hdp]
  exact if_neg (mt Int.ofNat.inj hrank)

omit [LinearOrder α] in
/-- The second loop overwrites `helper` from the end with what is picked. -/
theorem pick_all (hpos : ∀ p ∈ l, 0 < p.2) (hnums : values l <+: nums) (hdp : ranks l <+: dp) (lo done : List α) :
    ∃ lo', lo'.length + (picked l lo.length).length = lo.length ∧
      (List.range l.length).reverse.foldlM (pick nums dp) ((lo.length : ℤ), lo ++ done) =
        some ((lo'.length : ℤ), lo' ++ ((picked l lo.length).reverse ++ done)) := by
  induction l generalizing lo done with
  | nil => exact ⟨lo, rfl, rfl⟩
  | cons p l ih =>
    obtain ⟨hp, hpos⟩ := List.forall_mem_cons.1 hpos
    rw [List.length_cons, List.range_succ, List.reverse_append, List.reverse_singleton, List.singleton_append,
      List.foldlM_cons, picked]
    by_cases hrank : p.2 = lo.length
    · -- `helper` is not empty, as no rank is 0
      rw [if_pos hrank, ← hrank]
      rcases List.eq_nil_or_concat lo with rfl | ⟨lo, x, rfl⟩
      · exact absurd hrank hp.ne'
      · rw [List.concat_eq_append, List.length_append, List.length_singleton] at hrank
        obtain ⟨lo', hlength, hrun⟩ := ih hpos (values_of_cons hnums) (ranks_of_cons hdp) lo (p.1 :: done)
        have hn : p.2 - 1 = lo.length := by omega
        rw [hn, List.concat_eq_append, List.append_assoc, List.singleton_append, pick_hit hnums hdp hrank]
        refine ⟨lo', by rw [List.length_cons]; omega, ?_⟩
        rw [List.reverse_cons, List.append_assoc]
        exact hrun
    · rw [if_neg hrank, pick_skip hdp hrank]
      exact ih hpos (values_of_cons hnums) (ranks_of_cons hdp) lo done

end Pick

/-- What is returned is picked from a ranking of all elements. -/
theorem lengthOfLIS_eq (a : α) (rest : List α) :
    ∃ l b n, Ranked l ∧ values l = a :: rest ∧ (b, n) ∈ l ∧ (∀ p ∈ l, p.2 ≤ n) ∧
      lengthOfLIS (a :: rest) = some (some (picked l n).reverse) := by
  have hfirst : Ranked [(a, 1)] := ⟨isRank_rankFrom a [], trivial⟩
  obtain ⟨l, helper, hranked, htops, hvalues, hplace⟩ :=
    place_all rest (List.cons_ne_nil a []) hfirst (Tops.singleton a)
  have hvalues : values l = a :: rest := hvalues
  have hlength : l.length = (a :: rest).length := by rw [← hvalues, length_values]
  obtain ⟨b, hb⟩ := htops.exists_rank (List.ne_nil_of_length_pos (by rw [hlength]; exact Nat.succ_pos _))
  refine ⟨l, b, helper.length, hranked, hvalues, hb, htops.rank_le, ?_⟩
  obtain ⟨lo, hlo, hpick⟩ := pick_all hranked.pos (List.prefix_rfl : values l <+: values l) List.prefix_rfl helper []
  obtain rfl : lo = [] := List.length_eq_zero_iff.1 (by rw [(hranked.picked_falling hb).1] at hlo; omega)
  rw [List.append_nil, List.append_nil, List.nil_append, hvalues, hlength] at hpick
  have hitem : item? (a :: rest) 0 = some a := item?_natCast (Nat.succ_pos _)
  have hplace : (rest.zipIdx 1).foldlM place (1 :: List.replicate rest.length 1, [a]) = some (ranks l, helper) := hplace
  simp only [lengthOfLIS, hitem, Option.bind_eq_bind, Option.bind_some, List.length_cons, List.replicate_succ,
    List.tail_cons, hplace] at hpick ⊢
  rw [hpick]
  rfl

end Solution2

/-- `Solution2` returns a longest increasing subsequence, and `Solution` its length. -/
theorem lengthOfLIS_longest (nums : List α) (hne : nums ≠ []) :
    ∃ s, Solution2.lengthOfLIS nums = some (some s) ∧ s.Sublist nums ∧ s.Pairwise (· < ·) ∧
      Solution.lengthOfLIS nums = some s.length ∧ IsGreatest (RisingLengths nums) s.length := by
  obtain ⟨a, rest, rfl⟩ := List.exists_cons_of_ne_nil hne
  obtain ⟨l, b, n, hranked, hvalues, hb, hmax, heq⟩ := Solution2.lengthOfLIS_eq a rest
  obtain ⟨m, hm, hgreatest⟩ := Solution.lengthOfLIS_isGreatest a rest
  obtain ⟨hlength, hfalling, -⟩ := hranked.picked_falling hb
  have hgreatest' := hvalues ▸ hranked.isGreatest hb hmax
  rw [hgreatest.unique hgreatest'] at hm
  refine ⟨(picked l n).reverse, heq, ?_, List.pairwise_reverse.2 hfalling, ?_, ?_⟩
  · rw [← hvalues]
    exact (picked_sublist l n).reverse
  · rw [List.length_reverse, hlength, hm]
  · rw [List.length_reverse, hlength]
    exact hgreatest'

theorem lengthOfLIS_longest_four :
    ∃ s, Solution2.lengthOfLIS [4, 2, 4, (3 : ℤ)] = some (some s) ∧ s.Sublist [4, 2, 4, 3] ∧ s.Pairwise (· < ·) ∧
      Solution.lengthOfLIS [4, 2, 4, (3 : ℤ)] = some s.length ∧
        IsGreatest (RisingLengths [4, 2, 4, (3 : ℤ)]) s.length :=
  lengthOfLIS_longest [4, 2, 4, (3 : ℤ)] (List.cons_ne_nil _ _)

end GoodGoodStudy.LeetCode.LengthOfLis
