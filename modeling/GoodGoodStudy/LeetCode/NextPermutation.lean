/-
The exercise 31, the next permutation. From the right the first element is looked for that is less than the one behind
it; from the right the first one that is greater changes places with it, and what is behind is sorted. In a list that
never rises the index stays at -1: the last element, the least one, changes places, and the whole list is sorted.
-/
import GoodGoodStudy.Lib.Rearrangement
import GoodGoodStudy.Lib.Sequence

namespace GoodGoodStudy.LeetCode.NextPermutation

open GoodGoodStudy.Lib

/-! ## The code -/

/-- The first loop, when it has come down to `i`. -/
def findPivot (nums : List ℤ) : ℕ → Option ℤ
  | 0 => some (-1)
  | i + 1 => do
    if (← item? nums i) < (← item? nums (i + 1 : ℕ)) then some i else findPivot nums i

/-- The elements change places, and what is behind `j` is sorted. -/
def exchange (nums : List ℤ) (i j : ℤ) : Option (List ℤ) := do
  let a ← item? nums j
  let b ← item? nums i
  let nums ← setItem? nums i a
  let nums ← setItem? nums j b
  some (setSlice nums (j + 1) nums.length (sorted (slice nums (j + 1) nums.length)))

/-- The second loop, when the indices below `i` are left. -/
def findSwap (nums : List ℤ) (j : ℤ) : ℕ → Option (List ℤ)
  | 0 => some nums
  | i + 1 => do
    if (← item? nums i) > (← item? nums j) then exchange nums i j else findSwap nums j i

/-- The list after the call; `none` is an `IndexError`. -/
def nextPermutation (nums : List ℤ) : Option (List ℤ) :=
  if nums = [] then some nums
  else do
    let j ← findPivot nums (nums.length - 1)
    findSwap nums j nums.length

example : nextPermutation [5, 1, 5, 5, 4] = some [5, 4, 1, 5, 5] := by decide

/-! ## The loops -/

variable {nums pre post : List ℤ} {x y : ℤ} {i : ℕ} {j : ℤ}

theorem drop_eq_cons (h : i < nums.length) : ∃ a, item? nums i = some a ∧ nums.drop i = a :: nums.drop (i + 1) :=
  ⟨nums[i], item?_natCast h, List.drop_eq_getElem_cons h⟩

/-- The list never rises, or it rises for the last time at the index. -/
theorem findPivot_spec : ∀ i < nums.length, (nums.drop i).Pairwise (· ≥ ·) →
    (findPivot nums i = some (-1) ∧ nums.Pairwise (· ≥ ·)) ∨
      ∃ pre x y post, nums = pre ++ x :: y :: post ∧ findPivot nums i = some (pre.length : ℤ) ∧ x < y ∧
        (y :: post).Pairwise (· ≥ ·)
  | 0, _, hdrop => Or.inl ⟨rfl, hdrop⟩
  | i + 1, hi, hdrop => by
    obtain ⟨a, ha, hda⟩ := drop_eq_cons (Nat.lt_of_succ_lt hi)
    obtain ⟨b, hb, hdb⟩ := drop_eq_cons hi
    rw [hdb] at hda hdrop
    have hround : findPivot nums (i + 1) = if a < b then some (i : ℤ) else findPivot nums i := by
      rw [findPivot, ha, hb]
      rfl
    rw [hround]
    by_cases hab : a < b
    · refine Or.inr ⟨nums.take i, a, b, nums.drop (i + 1 + 1), ?_, ?_, hab, hdrop⟩
      · rw [← hda, List.take_append_drop]
      · rw [if_pos hab, List.length_take, min_eq_left (by omega)]
    · rw [if_neg hab]
      refine findPivot_spec i (Nat.lt_of_succ_lt hi) ?_
      rw [hda]
      refine List.pairwise_cons.2 ⟨fun c hc => ?_, hdrop⟩
      rcases List.mem_cons.1 hc with rfl | hc
      · exact not_lt.1 hab
      · exact ((List.pairwise_cons.1 hdrop).1 c hc).trans (not_lt.1 hab)

/-- The last element that is greater changes places. -/
theorem findSwap_spec (hx : item? nums j = some x) : ∀ i ≤ nums.length, (∀ a ∈ nums.drop i, a ≤ x) →
    (findSwap nums j i = some nums ∧ ∀ a ∈ nums, a ≤ x) ∨
      ∃ pre y post, nums = pre ++ y :: post ∧ x < y ∧ (∀ a ∈ post, a ≤ x) ∧
        findSwap nums j i = exchange nums pre.length j
  | 0, _, hdrop => Or.inl ⟨rfl, hdrop⟩
  | i + 1, hi, hdrop => by
    obtain ⟨a, ha, hda⟩ := drop_eq_cons hi
    have hround : findSwap nums j (i + 1) = if a > x then exchange nums i j else findSwap nums j i := by
      rw [findSwap, ha, hx]
      rfl
    rw [hround]
    by_cases hax : a > x
    · refine Or.inr ⟨nums.take i, a, nums.drop (i + 1), ?_, hax, hdrop, ?_⟩
      · rw [← hda, List.take_append_drop]
      · rw [if_pos hax, List.length_take, min_eq_left (by omega)]
    · rw [if_neg hax]
      refine findSwap_spec hx i (Nat.le_of_succ_le hi) fun c hc => ?_
      rw [hda] at hc
      rcases List.mem_cons.1 hc with rfl | hc
      · exact not_lt.1 hax
      · exact hdrop c hc

theorem exchange_eq (pre mid post : List ℤ) (x y : ℤ) :
    exchange (pre ++ x :: mid ++ y :: post) (pre ++ x :: mid).length pre.length =
      some (pre ++ y :: sorted (mid ++ x :: post)) := by
  have hx : item? (pre ++ x :: mid ++ y :: post) pre.length = some x := by
    rw [List.append_assoc, List.cons_append]
    exact item?_append rfl x _
  have hset : setItem? (pre ++ x :: mid ++ x :: post) pre.length y = some (pre ++ y :: (mid ++ x :: post)) := by
    rw [List.append_assoc, List.cons_append]
    exact setItem?_append rfl x y _
  have hsplit : pre ++ y :: (mid ++ x :: post) = (pre ++ [y]) ++ (mid ++ x :: post) ++ [] := by simp
  have hstart : (pre.length : ℤ) + 1 = (pre ++ [y]).length := by simp
  have hend : ((pre ++ y :: (mid ++ x :: post)).length : ℤ) = (pre.length : ℤ) + 1 + (mid ++ x :: post).length := by
    simp
    omega
  rw [exchange, hx, item?_append rfl y post]
  simp only [Option.bind_eq_bind, Option.bind_some, setItem?_append rfl y x post, hset]
  rw [hend, hsplit, slice_append hstart rfl, setSlice_append hstart rfl]
  simp

/-- At the index -1 the whole list is sorted. -/
theorem exchange_last (pre mid : List ℤ) (x y : ℤ) :
    exchange (pre ++ y :: mid ++ [x]) pre.length (-1) = some (sorted (pre ++ y :: mid ++ [x])) := by
  have hy : item? (pre ++ y :: mid ++ [x]) pre.length = some y := by
    rw [List.append_assoc, List.cons_append]
    exact item?_append rfl y _
  have hset : setItem? (pre ++ y :: mid ++ [x]) pre.length x = some (pre ++ x :: mid ++ [x]) := by
    rw [List.append_assoc, List.cons_append, List.append_assoc, List.cons_append]
    exact setItem?_append rfl y x _
  have hperm : (pre ++ x :: mid ++ [y]).Perm (pre ++ y :: mid ++ [x]) := by
    rw [List.append_assoc, List.append_assoc, List.cons_append, List.cons_append]
    refine List.Perm.append_left pre (((List.perm_append_singleton y mid).cons x).trans ?_)
    exact (List.Perm.swap y x mid).trans ((List.perm_append_singleton x mid).symm.cons y)
  rw [exchange, item?_concat, hy]
  simp only [Option.bind_eq_bind, Option.bind_some, hset, setItem?_concat]
  generalize pre ++ x :: mid ++ [y] = l at hperm ⊢
  have hslice : slice ([] ++ l ++ []) (-1 + 1) l.length = l := slice_append rfl (by simp) []
  have hsetSlice : ∀ ys, setSlice ([] ++ l ++ []) (-1 + 1) l.length ys = [] ++ ys ++ [] := fun ys =>
    setSlice_append rfl (by simp) ys []
  simp only [List.nil_append, List.append_nil] at hslice hsetSlice
  rw [hslice, hsetSlice, sorted_congr hperm]

/-! ## The result -/

theorem nextPermutation_falling (hne : nums ≠ []) (hnums : nums.Pairwise (· ≥ ·))
    (hpivot : findPivot nums (nums.length - 1) = some (-1)) : nextPermutation nums = some (sorted nums) := by
  obtain ⟨l, x, rfl⟩ := (List.eq_nil_or_concat' nums).resolve_left hne
  have hx : ∀ a ∈ l, a ≥ x := fun a ha => (List.pairwise_append.1 hnums).2.2 a ha x List.mem_cons_self
  rw [nextPermutation, if_neg hne, hpivot, Option.bind_eq_bind, Option.bind_some]
  rcases findSwap_spec (item?_concat l x) (l ++ [x]).length le_rfl (by simp) with
    ⟨hnone, hle⟩ | ⟨pre, y, post, hsplit, hxy, hpost, hswap⟩
  · -- all elements are the last one
    rw [hnone]
    refine congrArg some (eq_sorted (List.Perm.refl _) (List.pairwise_of_forall_mem_list fun a ha b hb => ?_))
    have hxb : x ≤ b := by
      rcases List.mem_append.1 hb with hb | hb
      · exact hx b hb
      · exact (List.mem_singleton.1 hb).ge
    exact (hle a ha).trans hxb
  -- the element that changes places is not the last one
  · obtain ⟨post, z, rfl⟩ := (List.eq_nil_or_concat' post).resolve_left fun hnil => by
      subst hnil
      exact absurd (List.singleton_inj.1 (List.append_inj' hsplit rfl).2) hxy.ne
    rw [← List.cons_append, ← List.append_assoc] at hsplit
    obtain ⟨rfl, hxz⟩ := List.append_inj' hsplit rfl
    obtain rfl := List.singleton_inj.1 hxz
    rw [hswap, exchange_last]

theorem nextPermutation_rising (hnums : nums = pre ++ x :: y :: post) (hxy : x < y)
    (hpost : (y :: post).Pairwise (· ≥ ·))
    (hpivot : findPivot nums (nums.length - 1) = some (pre.length : ℤ)) :
    ∃ r, nextPermutation nums = some r ∧ IsLeast (After nums) r := by
  have hne : nums ≠ [] := by
    rw [hnums]
    simp
  have hx : item? nums pre.length = some x := by
    rw [hnums]
    exact item?_append rfl x _
  rw [nextPermutation, if_neg hne, hpivot, Option.bind_eq_bind, Option.bind_some]
  rcases findSwap_spec hx nums.length le_rfl (by simp) with ⟨-, hle⟩ | ⟨pre', z, post', hsplit, hxz, hpost', hswap⟩
  · exact absurd (hle y (by simp [hnums])) (not_le.2 hxy)
  · -- the element that changes places is behind the pivot
    have hbehind : ∃ mid, pre' = pre ++ x :: mid ∧ y :: post = mid ++ z :: post' := by
      rcases List.append_eq_append_iff.1 (hnums.symm.trans hsplit) with ⟨c, hc, hsame⟩ | ⟨c, hc, hsame⟩
      · rcases List.cons_eq_append_iff.1 hsame with ⟨rfl, hcons⟩ | ⟨mid, rfl, hmid⟩
        · exact absurd (List.cons_eq_cons.1 hcons).1.symm hxz.ne
        · exact ⟨mid, hc, hmid⟩
      · rcases List.cons_eq_append_iff.1 hsame with ⟨rfl, hcons⟩ | ⟨mid, rfl, hmid⟩
        · exact absurd (List.cons_eq_cons.1 hcons).1 hxz.ne
        · exact absurd (hpost' y (by simp [hmid])) (not_le.2 hxy)
    obtain ⟨mid, rfl, hmid⟩ := hbehind
    rw [hmid] at hpost
    -- what is behind the pivot still falls after the exchange; sorted, it rises
    refine ⟨pre ++ z :: sorted (mid ++ x :: post'), ?_, ?_⟩
    · rw [hswap, hsplit, exchange_eq]
    · rw [hnums, hmid]
      exact (isLeast_after_cons hpost hxz hpost').after_append pre

/-- The least rearrangement that is greater, and the ascending one if there is none. -/
theorem nextPermutation_returns (nums : List ℤ) : ∃ r, nextPermutation nums = some r ∧
    ((∃ l, l.Perm nums ∧ nums < l) → IsLeast {l | l.Perm nums ∧ nums < l} r) ∧
    ((∀ l, l.Perm nums → l ≤ nums) → r.Perm nums ∧ r.Pairwise (· ≤ ·)) := by
  by_cases hne : nums = []
  · subst hne
    refine ⟨[], rfl, ?_, fun _ => ⟨List.Perm.refl [], List.Pairwise.nil⟩⟩
    rintro ⟨l, hl, hlt⟩
    exact absurd hlt (hl.eq_nil ▸ lt_irrefl _)
  have hpos := List.length_pos_iff.2 hne
  have hlast : (nums.drop (nums.length - 1)).Pairwise (· ≥ ·) := by
    obtain ⟨l, z, rfl⟩ := (List.eq_nil_or_concat' nums).resolve_left hne
    rw [List.length_append, List.length_singleton, Nat.add_sub_cancel, List.drop_left]
    exact List.pairwise_singleton _ z
  rcases findPivot_spec (nums.length - 1) (by omega) hlast with
    ⟨hpivot, hfall⟩ | ⟨pre, x, y, post, hsplit, hpivot, hxy, hpost⟩
  · have hsorted := And.intro (sorted_perm nums) (sorted_pairwise nums)
    refine ⟨sorted nums, nextPermutation_falling hne hfall hpivot, ?_, fun _ => hsorted⟩
    rintro ⟨l, hl, hlt⟩
    exact absurd (le_of_pairwise_ge hfall hl) (not_le.2 hlt)
  · obtain ⟨r, hr, hleast⟩ := nextPermutation_rising hsplit hxy hpost hpivot
    refine ⟨r, hr, fun _ => hleast, fun hgreatest => ?_⟩
    exact absurd (hgreatest r hleast.1.1) (not_le.2 hleast.1.2)

end GoodGoodStudy.LeetCode.NextPermutation
