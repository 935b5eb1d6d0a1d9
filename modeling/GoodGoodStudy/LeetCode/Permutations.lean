/-
The permutations of a list: the two `permute` of the exercise 46, `permuteUnique2` of the exercise 47, and `permutation`
of 剑指 Offer 38. Elements are put on a path and taken off it again, or marked as used and unmarked; the lists with
repetitions are sorted, and of equal elements that are left only the first one is chosen.
-/
import Mathlib.Data.Char
import Mathlib.Data.Int.Order.Basic
import Mathlib.Data.List.Pairwise
import GoodGoodStudy.Lib.Backtrack
import GoodGoodStudy.Lib.Grid
import GoodGoodStudy.Lib.Loop
import GoodGoodStudy.Lib.Sorting

namespace GoodGoodStudy.LeetCode.Permutations

open GoodGoodStudy.Lib

variable {α : Type*}

/-- `_nums[:i] + _nums[i + 1:]` is shorter. -/
theorem length_without (nums : List α) (i : Fin nums.length) :
    (nums.take i ++ nums.drop (i + 1)).length < nums.length := by
  rw [← List.eraseIdx_eq_take_drop_succ, List.length_eraseIdx_of_lt i.isLt]
  exact Nat.sub_lt i.pos Nat.one_pos

/-- `backtrack` with `path` and `res`, which its calls share; `skip` is the test before `continue`. -/
def backtrackWith (skip : List α → ℕ → Bool) (n : ℕ) (nums : List α) (s : List α × List (List α)) :
    List α × List (List α) :=
  if s.1.length = n then (s.1, s.2 ++ [s.1])
  else
    (List.finRange nums.length).foldl (fun s (i : Fin nums.length) =>
      if skip nums i then s
      else
        let s := backtrackWith skip n (nums.take i ++ nums.drop (i + 1)) (s.1 ++ [nums.get i], s.2)
        (s.1.dropLast, s.2)) s
termination_by nums.length
decreasing_by exact length_without nums i

namespace Solution

def permute (nums : List α) : List (List α) :=
  if nums = [] then [] else (backtrackWith (fun _ _ => false) nums.length nums ([], [])).2

end Solution

namespace Solution2

/-- The variables that the calls of `dfs` share. -/
structure State (α : Type*) (size : ℕ) where
  path : List α
  used : Vector Bool size
  res : List (List α)

/-- `dfs` with `left = size - depth` elements to be chosen. -/
def dfs (nums : List α) : (left : ℕ) → State α nums.length → State α nums.length
  | 0, s => { s with res := s.res ++ [s.path] }
  | left + 1, s =>
    (List.finRange nums.length).foldl (fun s i =>
      if s.used.get i then s
      else
        let s := dfs nums left { s with used := s.used.set i true i.isLt, path := s.path ++ [nums.get i] }
        { s with used := s.used.set i false i.isLt, path := s.path.dropLast }) s

def permute (nums : List α) : List (List α) :=
  if nums.length = 0 then [] else (dfs nums nums.length ⟨[], Vector.replicate nums.length false, []⟩).res

end Solution2

section Unique

variable [LinearOrder α]

/-- `i > 0 and _nums[i] == _nums[i - 1]` -/
def repeats (nums : List α) (i : ℕ) : Bool := 0 < i && nums[i]? == nums[i - 1]?

/-- `backtrack` of the exercise 47, which passes a new path. -/
def backtrack (n : ℕ) (nums path : List α) (res : List (List α)) : List (List α) :=
  if path.length = n then res ++ [path]
  else
    (List.finRange nums.length).foldl (fun res (i : Fin nums.length) =>
      if repeats nums i then res
      else backtrack n (nums.take i ++ nums.drop (i + 1)) (path ++ [nums.get i]) res) res
termination_by nums.length
decreasing_by exact length_without nums i

def permuteUnique2 (nums : List α) : List (List α) :=
  if nums = [] then [] else backtrack nums.length (sorted nums) [] []

/-- A string is the list of its letters. -/
def permutation (s : List α) : List (List α) :=
  if s.length = 1 then [s] else (backtrackWith repeats s.length (sorted s) ([], [])).2

end Unique

/-! ## What the searches find -/

/-- The places that are not skipped. -/
abbrev Keep (skip : List α → ℕ → Bool) (l : List α) (i : Fin l.length) : Prop := skip l i = false

/-- What is found behind one choice. -/
def found (skip : List α → ℕ → Bool) (left : ℕ) (nums path : List α) (i : Fin nums.length) : List (List α) :=
  if skip nums i then []
  else (arrangements (Keep skip) left (nums.eraseIdx i)).map (path ++ [nums.get i] ++ ·)

theorem arrangements_succ (skip : List α → ℕ → Bool) (left : ℕ) (nums path : List α) :
    (arrangements (Keep skip) (left + 1) nums).map (path ++ ·) =
      (List.finRange nums.length).flatMap (found skip left nums path) := by
  unfold arrangements
  rw [List.map_flatMap]
  apply List.flatMap_congr
  intro i _
  unfold found
  by_cases hskip : skip nums i = true
  · rw [if_neg (by simp [hskip]), if_pos hskip]
    rfl
  · rw [if_pos (Bool.eq_false_of_not_eq_true hskip), if_neg hskip, List.map_map]
    apply List.map_congr_left
    intro q _
    exact (List.append_assoc path [nums.get i] q).symm

theorem length_eraseIdx_succ {left : ℕ} {nums : List α} (hlen : nums.length = left + 1) (i : Fin nums.length) :
    (nums.eraseIdx i).length = left := by
  rw [List.length_eraseIdx_of_lt i.isLt, hlen, Nat.add_sub_cancel]

/-- The search puts the arrangements behind the path, and leaves the path as it was. -/
theorem backtrackWith_eq (skip : List α → ℕ → Bool) {n : ℕ} {nums path : List α} (res : List (List α))
    (hn : path.length + nums.length = n) : backtrackWith skip n nums (path, res) =
      (path, res ++ (arrangements (Keep skip) nums.length nums).map (path ++ ·)) := by
  induction hlen : nums.length generalizing nums path res with
  | zero =>
    have hend : path.length = n := by omega
    rw [backtrackWith, if_pos hend]
    simp [arrangements]
  | succ left ih =>
    have hgo : path.length ≠ n := by omega
    rw [backtrackWith, if_neg hgo, arrangements_succ]
    refine foldl_mem (P := fun pre s => s = (path, res ++ pre.flatMap (found skip left nums path)))
      (List.finRange nums.length) (fun pre i _ s hs => ?_) [] (by simp)
    subst hs
    rw [List.flatMap_append, List.flatMap_singleton, ← List.append_assoc, found]
    split_ifs
    · rw [List.append_nil]
    · rw [← List.eraseIdx_eq_take_drop_succ, ih _ _ (length_eraseIdx_succ hlen i)]
      · simp only [List.dropLast_concat]
      · simp only
        rw [List.length_append, List.length_singleton, length_eraseIdx_succ hlen]
        omega

/-- A new path for every call, or one path that is shortened after the call. -/
theorem backtrackWith_repeats [LinearOrder α] {n : ℕ} {nums path : List α} (res : List (List α)) :
    backtrackWith repeats n nums (path, res) = (path, backtrack n nums path res) := by
  induction hlen : nums.length using Nat.strong_induction_on generalizing nums path res with
  | _ m ih =>
    subst hlen
    rw [backtrackWith, backtrack]
    split_ifs
    · rfl
    · apply List.foldl_hom (fun res => (path, res))
      intro res i
      split_ifs
      · rfl
      · simp only [ih _ (length_without nums i) _ rfl, List.dropLast_concat]

theorem backtrack_eq [LinearOrder α] {n : ℕ} {nums path : List α} (res : List (List α))
    (hn : path.length + nums.length = n) : backtrack n nums path res =
      res ++ (arrangements (Keep repeats) nums.length nums).map (path ++ ·) := by
  have heq := (backtrackWith_repeats res).symm.trans (backtrackWith_eq repeats res hn)
  exact congrArg Prod.snd heq

/-! ## No element is skipped -/

theorem keepsOne_nodup : KeepsOne (Keep fun (_ : List α) _ => false) List.Nodup where
  eraseIdx := fun l hl i => hl.sublist (List.eraseIdx_sublist l i)
  exists_keep := fun l _ a ha => by
    obtain ⟨i, hi⟩ := List.get_of_mem ha
    exact ⟨i, rfl, hi⟩
  unique := fun l hl i j _ _ hij => hl.injective_get hij

theorem Solution.permute_eachOnce {nums : List α} (hne : nums ≠ []) (hnodup : nums.Nodup) :
    EachOnce (permute nums) nums := by
  unfold permute
  rw [if_neg hne, backtrackWith_eq _ [] (Nat.zero_add _)]
  simp only [List.nil_append, List.map_id']
  exact keepsOne_nodup.eachOnce hnodup

/-! ## Elements are marked as used -/

namespace Solution2

variable {nums : List α}

/-- The elements at these places are on the path, and marked. -/
structure Holds (idxs : List (Fin nums.length)) (s : State α nums.length) : Prop where
  path : s.path = idxs.map nums.get
  used : ∀ i, s.used.get i = decide (i ∈ idxs)

/-- The places are chosen one after the other, and none twice. -/
abbrev places (left : ℕ) (idxs : List (Fin nums.length)) : List (List (Fin nums.length)) :=
  extensions (fun idxs i => i ∉ idxs) (List.finRange nums.length) left idxs

theorem set_set_used {n : ℕ} {used : Vector Bool n} {i : Fin n} (h : used.get i = false) :
    (used.set i true i.isLt).set i false i.isLt = used := by
  apply Vector.ext
  intro k hk
  have hget := vector_get_set (used.set i true i.isLt) i ⟨k, hk⟩ false
  rw [vector_get_set used i ⟨k, hk⟩ true] at hget
  apply hget.trans
  split_ifs with heq
  · rw [← h, ← heq]
    rfl
  · rfl

theorem dfs_eq (left : ℕ) {idxs : List (Fin nums.length)} {s : State α nums.length} (h : Holds idxs s) :
    dfs nums left s = { s with res := s.res ++ (places left idxs).map (List.map nums.get) } := by
  induction left generalizing idxs s with
  | zero =>
    unfold dfs places extensions
    rw [h.path]
    rfl
  | succ left ih =>
    unfold dfs places extensions
    rw [List.map_flatMap]
    refine foldl_mem (P := fun pre s' => s' = { s with res := s.res ++ pre.flatMap fun i =>
      (if i ∉ idxs then places left (idxs ++ [i]) else []).map (List.map nums.get) })
      (List.finRange nums.length) (fun pre i _ s' hs' => ?_) [] (s := s) (by simp)
    subst hs'
    simp only [List.flatMap_append, List.flatMap_singleton, ← List.append_assoc]
    by_cases hi : i ∈ idxs
    · have hused : s.used.get i = true := by rw [h.used, decide_eq_true hi]
      rw [if_pos hused, if_neg (not_not_intro hi), List.map_nil, List.append_nil]
    · have hused : s.used.get i = false := by rw [h.used, decide_eq_false hi]
      have hholds : Holds (idxs ++ [i]) { s with
          used := s.used.set i true i.isLt, path := s.path ++ [nums.get i], res := s.res ++ pre.flatMap fun i =>
            (if i ∉ idxs then places left (idxs ++ [i]) else []).map (List.map nums.get) } := by
        refine ⟨by simp [h.path], fun j => ?_⟩
        simp only [vector_get_set, h.used, List.mem_append, List.mem_singleton]
        by_cases hj : j = i <;> simp [hj]
      rw [hused, if_neg Bool.false_ne_true, if_pos hi, ih hholds]
      simp only [set_set_used hused, List.dropLast_concat]

theorem permute_eachOnce (hne : nums ≠ []) (hnodup : nums.Nodup) : EachOnce (permute nums) nums := by
  have hstart : Holds [] (⟨[], Vector.replicate nums.length false, []⟩ : State α nums.length) :=
    ⟨rfl, fun i => by simp [Vector.get]⟩
  unfold permute
  rw [if_neg (mt List.length_eq_zero_iff.1 hne), dfs_eq _ hstart]
  have hplaces := extensions_eachOnce (List.nodup_finRange nums.length)
  rw [List.length_finRange] at hplaces
  have hmap := hplaces.map hnodup.injective_get
  rwa [List.map_get_finRange] at hmap

end Solution2

/-! ## Elements that are equal to the one before are skipped -/

section Unique

variable [LinearOrder α]

theorem keep_iff {l : List α} {i : Fin l.length} :
    Keep repeats l i ↔ ∀ j (hj : j < l.length), j + 1 = i → l.get ⟨j, hj⟩ ≠ l.get i := by
  have hi : l[(i : ℕ)]? = some (l.get i) := List.getElem?_eq_getElem i.isLt
  unfold Keep repeats
  rw [Bool.and_eq_false_iff, decide_eq_false_iff_not, beq_eq_false_iff_ne, hi]
  constructor
  · rintro hkeep j hj hji
    rcases hkeep with hzero | hne
    · omega
    · rw [← hji, Nat.add_sub_cancel, List.getElem?_eq_getElem hj] at hne
      exact fun heq => hne (congrArg some heq.symm)
  · intro h
    by_cases hpos : 0 < (i : ℕ)
    · have hj : (i : ℕ) - 1 < l.length := by omega
      rw [List.getElem?_eq_getElem hj]
      exact .inr fun heq => h _ hj (Nat.sub_add_cancel hpos) (Option.some.inj heq).symm
    · exact .inl hpos

/-- Of equal elements in a sorted list the first one is kept. -/
theorem keepsOne_sorted : KeepsOne (Keep (repeats (α := α))) (List.Pairwise (· ≤ ·)) where
  eraseIdx := fun l hl i => hl.sublist (List.eraseIdx_sublist l i)
  exists_keep := fun l _ a ha => by
    have hlt := List.idxOf_lt_length_iff.2 ha
    refine ⟨⟨l.idxOf a, hlt⟩, keep_iff.2 fun j hj hji heq => ?_, List.getElem_idxOf hlt⟩
    have hbefore : (l.get ⟨j, hj⟩ == a) = false := List.not_of_lt_findIdx (Nat.lt_of_succ_le hji.le)
    rw [heq.trans (List.getElem_idxOf hlt), beq_self_eq_true] at hbefore
    cases hbefore
  unique := fun l hl i j hi hj hij => by
    -- what lies between equal elements is equal to them
    have hlast : ∀ i j : Fin l.length, i < j → Keep repeats l j → l.get i ≠ l.get j := by
      intro i j hlt hj heq
      have hbefore : (j : ℕ) - 1 < l.length := by omega
      have hle : i ≤ ⟨(j : ℕ) - 1, hbefore⟩ := Nat.le_sub_one_of_lt hlt
      have hle' : (⟨(j : ℕ) - 1, hbefore⟩ : Fin l.length) ≤ j := Nat.sub_le _ _
      refine keep_iff.1 hj _ hbefore (Nat.sub_add_cancel (Nat.lt_of_le_of_lt (Nat.zero_le _) hlt)) (le_antisymm ?_ ?_)
      · exact hl.rel_get_of_le hle'
      · rw [← heq]
        exact hl.rel_get_of_le hle
    rcases lt_trichotomy i j with hlt | heq | hgt
    · exact (hlast i j hlt hj hij).elim
    · exact heq
    · exact (hlast j i hgt hi hij.symm).elim

theorem permuteUnique2_eachOnce {nums : List α} (hne : nums ≠ []) : EachOnce (permuteUnique2 nums) nums := by
  unfold permuteUnique2
  rw [if_neg hne, backtrack_eq [] (by rw [length_sorted]; exact Nat.zero_add _)]
  simp only [List.nil_append, List.map_id']
  exact (keepsOne_sorted.eachOnce (sorted_pairwise nums)).of_perm (sorted_perm nums)

theorem permutation_eachOnce (s : List α) : EachOnce (permutation s) s := by
  unfold permutation
  split_ifs with hone
  · obtain ⟨a, rfl⟩ := List.length_eq_one_iff.1 hone
    exact ⟨List.nodup_singleton [a], fun p => List.mem_singleton.trans List.perm_singleton.symm⟩
  · rw [backtrackWith_eq repeats [] (by rw [length_sorted]; exact Nat.zero_add _)]
    simp only [List.nil_append, List.map_id']
    exact (keepsOne_sorted.eachOnce (sorted_pairwise s)).of_perm (sorted_perm s)

end Unique

/-- Every permutation of a list that is not empty is there once, if its elements are distinct or equal ones are
skipped; for a string that holds of the empty one too. -/
theorem permutations_eachOnce (nums : List ℤ) (hne : nums ≠ []) (s : List Char) :
    (nums.Nodup → EachOnce (Solution.permute nums) nums ∧ EachOnce (Solution2.permute nums) nums) ∧
      EachOnce (permuteUnique2 nums) nums ∧ EachOnce (permutation s) s :=
  ⟨fun hnodup => ⟨Solution.permute_eachOnce hne hnodup, Solution2.permute_eachOnce hne hnodup⟩,
    permuteUnique2_eachOnce hne, permutation_eachOnce s⟩

theorem permutations_eachOnce_two : EachOnce (Solution.permute [1, 2]) ([1, 2] : List ℤ) ∧
    EachOnce (permuteUnique2 [1, 2]) ([1, 2] : List ℤ) :=
  have h := permutations_eachOnce [1, 2] (by decide) []
  ⟨(h.1 (by decide)).1, h.2.1⟩

/-- The empty list has one permutation, and none is returned. -/
theorem permutations_empty : ([] : List ℤ).Nodup ∧ ¬ EachOnce (Solution.permute []) ([] : List ℤ) ∧
    ¬ EachOnce (Solution2.permute []) ([] : List ℤ) ∧ ¬ EachOnce (permuteUnique2 []) ([] : List ℤ) :=
  have hnot : ¬ EachOnce ([] : List (List ℤ)) [] := fun h => List.not_mem_nil ((h.2 []).2 List.Perm.nil)
  ⟨List.nodup_nil, hnot, hnot, hnot⟩

end GoodGoodStudy.LeetCode.Permutations
