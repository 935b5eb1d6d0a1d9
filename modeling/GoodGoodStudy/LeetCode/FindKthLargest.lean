/-
215. 数组中的第K个最大元素: `Solution2`. The partition has an index at each end of what it has not looked at: an element
that is greater than the pivot changes places with the one at the right end, which nothing is known about. `start` moves
up with the pivot, and `end` stays: the search to the right of a pivot goes to the end of the list again.
-/
import GoodGoodStudy.LeetCode.QuickSort
import Mathlib.Data.Prod.Lex

namespace GoodGoodStudy.LeetCode.FindKthLargest

open GoodGoodStudy.Lib
open GoodGoodStudy.LeetCode.QuickSort (Exc item setItem swap item_append item_behind swap_ends exists_range)

variable {α : Type} [LinearOrder α]

/-- The body of the loop in `partition`, with `l` and `r`. -/
def look (pilot : ℤ) : List α × ℤ × ℤ → Except Exc (Round (List α × ℤ × ℤ) (List α × ℤ))
  | (nums, l, r) => do
    if l ≤ r then
      if (← item nums l) > (← item nums pilot) then return .again (← swap nums l r, l, r - 1)
      else return .again (nums, l + 1, r)
    else return .leave (nums, r)

def looks (pilot : ℤ) (fuel : ℕ) (s : List α × ℤ × ℤ) : ExceptT Exc Option (List α × ℤ) :=
  loopM (fun _ s => liftM (look pilot s)) fuel s

/-- The list, and the three results; `stop` is `end`. -/
def partition (fuel : ℕ) (nums : List α) (start stop : ℤ) : ExceptT Exc Option (List α × ℤ × ℤ × ℤ) := do
  let pilot := start
  let (nums, r) ← looks pilot fuel (nums, start + 1, stop)
  return (← swap nums pilot r, start, r, stop)

/-- The body of the loop in `findKthLargest`, with `start` and `pivot`; `stop` is `end`. -/
def narrow (n k stop : ℤ) (fuel : ℕ) : List α × ℤ × ℤ → ExceptT Exc Option (Round (List α × ℤ × ℤ) (List α × ℤ))
  | (nums, start, pivot) => do
    if pivot ≠ n - k then
      if pivot < n - k then
        let (nums, start, pivot, _) ← partition fuel nums (pivot + 1) stop
        return .again (nums, start, pivot)
      else
        let (nums, start, pivot, _) ← partition fuel nums start (pivot - 1)
        return .again (nums, start, pivot)
    else return .leave (nums, pivot)

/-- The result, and the list as it is then. -/
def findKthLargest (nums : List α) (k : ℤ) (fuel : ℕ) : ExceptT Exc Option (α × List α) := do
  let n := (nums.length : ℤ)
  let (nums, pivot) ← loopM (narrow n k (n - 1)) fuel (nums, 0, -1)
  return (← item nums pivot, nums)

/-! ## The partition -/

section Partition

variable {pre post S mid G : List α} {x pilot : α} {l r : ℤ}

/-- An element that is not greater than the pivot stays where it is. -/
theorem look_le (hl : l = pre.length + 1 + S.length) (hlr : l ≤ r) (hx : x ≤ pilot) :
    look pre.length (pre ++ pilot :: (S ++ (x :: mid ++ (G ++ post))), l, r) =
      .ok (.again (pre ++ pilot :: ((S ++ [x]) ++ (mid ++ (G ++ post))), l + 1, r)) := by
  have hpilot : item (pre ++ pilot :: (S ++ (x :: mid ++ (G ++ post)))) pre.length = .ok pilot := item_append rfl _ _
  have hitem : item (pre ++ pilot :: (S ++ (x :: mid ++ (G ++ post)))) l = .ok x := item_behind hl pilot x _
  rw [look, if_pos hlr]
  simp only [hitem, hpilot, bind, Except.bind]
  rw [if_neg (not_lt.2 hx), List.append_assoc]
  rfl

/-- A greater one changes places with the last element that is not looked at. -/
theorem look_gt (hl : l = pre.length + 1 + S.length) (hr : r = l + mid.length) (hx : pilot < x) :
    look pre.length (pre ++ pilot :: (S ++ (x :: mid ++ (G ++ post))), l, r) =
      .ok (.again (pre ++ pilot :: (S ++ (lastFirst mid ++ (x :: G ++ post))), l, r - 1)) := by
  have hpilot : item (pre ++ pilot :: (S ++ (x :: mid ++ (G ++ post)))) pre.length = .ok pilot := item_append rfl _ _
  have hitem : item (pre ++ pilot :: (S ++ (x :: mid ++ (G ++ post)))) l = .ok x := item_behind hl pilot x _
  have hswap : swap (pre ++ pilot :: (S ++ (x :: mid ++ (G ++ post)))) l r =
      .ok (pre ++ pilot :: (S ++ (lastFirst mid ++ (x :: G ++ post)))) := by
    have hplace : l = (pre ++ pilot :: S).length := by
      rw [hl, List.length_append, List.length_cons]
      omega
    simpa using swap_ends hplace x mid hr (G ++ post)
  rw [look, if_pos (by omega)]
  simp only [hitem, hpilot, bind, Except.bind]
  rw [if_pos hx, hswap]
  rfl

/-- `S` and `G` were looked at, and `mid` was not. -/
def Looking (pre post rest : List α) (pilot : α) (s : List α × ℤ × ℤ) : Prop :=
  ∃ S mid G, s = (pre ++ pilot :: (S ++ (mid ++ (G ++ post))), (pre.length + 1 + S.length : ℤ),
    (pre.length + S.length + mid.length : ℤ)) ∧ (S ++ (mid ++ G)).Perm rest ∧ (∀ a ∈ S, a ≤ pilot) ∧ ∀ a ∈ G, pilot < a

def Parted (pre post rest : List α) (pilot : α) (s : List α × ℤ) : Prop :=
  ∃ S G, s = (pre ++ pilot :: (S ++ (G ++ post)), (pre.length + S.length : ℤ)) ∧ (S ++ G).Perm rest ∧
    (∀ a ∈ S, a ≤ pilot) ∧ ∀ a ∈ G, pilot < a

variable {rest : List α}

theorem look_ok {s : List α × ℤ × ℤ} (h : Looking pre post rest pilot s) :
    ∃ r, look pre.length s = .ok r ∧ r.elim (fun s' => Looking pre post rest pilot s' ∧
      (s'.2.2 + 1 - s'.2.1).toNat < (s.2.2 + 1 - s.2.1).toNat) (Parted pre post rest pilot) := by
  obtain ⟨S, mid, G, rfl, hperm, hS, hG⟩ := h
  cases mid with
  | nil =>
    refine ⟨.leave (pre ++ pilot :: (S ++ (G ++ post)), (pre.length + S.length : ℤ)), ?_, S, G, rfl, hperm, hS, hG⟩
    have hr : (pre.length + S.length + ([] : List α).length : ℤ) = pre.length + S.length := Int.add_zero _
    rw [look, hr, if_neg (by omega)]
    rfl
  | cons x mid =>
    by_cases hx : x ≤ pilot
    · refine ⟨_, look_le rfl (by simp; omega) hx, ⟨S ++ [x], mid, G, ?_, ?_, ?_, hG⟩, ?_⟩
      · simp
        omega
      · simpa using hperm
      · intro a ha
        rcases List.mem_append.1 ha with ha | ha
        · exact hS a ha
        · exact (List.mem_singleton.1 ha).trans_le hx
      · simp
        omega
    · refine ⟨_, look_gt rfl (by simp; omega) (not_le.1 hx), ⟨S, lastFirst mid, x :: G, ?_, ?_, hS, ?_⟩, ?_⟩
      · simp [(lastFirst_perm mid).length_eq]
        omega
      · refine List.Perm.trans (List.Perm.append_left S ?_) hperm
        exact List.perm_middle.trans (((lastFirst_perm mid).append_right G).cons x)
      · intro a ha
        rcases List.mem_cons.1 ha with rfl | ha
        · exact not_le.1 hx
        · exact hG a ha
      · simp
        omega

theorem looks_returns (pre rest post : List α) (pilot : α) :
    ∃ s, Returns (fun fuel => looks pre.length fuel (pre ++ pilot :: (rest ++ post), pre.length + 1,
      pre.length + rest.length)) (.ok s) ∧ Parted pre post rest pilot s := by
  refine Returns.loopM_of_measure (fun s : List α × ℤ × ℤ => (s.2.2 + 1 - s.2.1).toNat)
    (I := Looking pre post rest pilot) (fun s hs => ?_) ⟨[], rest, [], by simp, by simp, by simp, by simp⟩
  obtain ⟨r, hr, hr'⟩ := look_ok hs
  exact ⟨r, Returns.lift hr, hr'⟩

/-- The pivot comes between the elements that are not greater and those that are not smaller. -/
theorem partition_returns (pre rest post : List α) (pilot : α) {start stop : ℤ} (hstart : start = pre.length)
    (hstop : stop = start + rest.length) :
    ∃ L R, Returns (fun fuel => partition fuel (pre ++ (pilot :: rest) ++ post) start stop)
        (.ok (pre ++ (L ++ pilot :: R) ++ post, start, start + L.length, stop)) ∧ (L ++ R).Perm rest ∧
      (∀ a ∈ L, a ≤ pilot) ∧ ∀ a ∈ R, pilot ≤ a := by
  subst hstart hstop
  obtain ⟨_, hlooks, S, G, rfl, hperm, hS, hG⟩ := looks_returns pre rest post pilot
  have hswap : swap (pre ++ pilot :: (S ++ (G ++ post))) pre.length (pre.length + S.length) =
      .ok (pre ++ (lastFirst S ++ pilot :: G) ++ post) := by
    simpa using swap_ends rfl pilot S rfl (G ++ post)
  refine ⟨lastFirst S, G, ?_, ((lastFirst_perm S).append_right G).trans hperm,
    fun a ha => hS a ((lastFirst_perm S).mem_iff.1 ha), fun a ha => (hG a ha).le⟩
  rw [(lastFirst_perm S).length_eq, List.append_assoc, List.cons_append]
  exact hlooks.bind_ok ((Returns.lift hswap).bind_ok (Returns.done _))

end Partition

/-! ## The search -/

/-- No element before the index is greater than one from it on. -/
def Divided (nums : List α) (i : ℕ) : Prop := ∀ a ∈ nums.take i, ∀ b ∈ nums.drop i, a ≤ b

variable {nums : List α} {p : ℕ}

theorem divided_zero (nums : List α) : Divided nums 0 := by simp [Divided]

theorem divided_length (nums : List α) : Divided nums nums.length := by simp [Divided]

theorem divided_append {L R : List α} {i : ℕ} (hi : L.length = i) :
    Divided (L ++ R) i ↔ ∀ a ∈ L, ∀ b ∈ R, a ≤ b := by
  rw [Divided, ← hi, List.take_left, List.drop_left]

theorem divided_of_fixedAt (h : FixedAt nums p) : Divided nums p ∧ Divided nums (p + 1) := by
  obtain ⟨L, x, R, rfl, rfl, hL, hR⟩ := h
  have hsplit : L ++ x :: R = (L ++ [x]) ++ R := by simp
  constructor
  · rw [divided_append rfl]
    intro a ha b hb
    rcases List.mem_cons.1 hb with rfl | hb
    · exact hL a ha
    · exact (hL a ha).trans (hR b hb)
  · rw [hsplit, divided_append (by simp)]
    intro a ha b hb
    rcases List.mem_append.1 ha with ha | ha
    · exact (hL a ha).trans (hR b hb)
    · exact (List.mem_singleton.1 ha).trans_le (hR b hb)

/-- A partition of a range that is divided from the rest fixes an element, and leaves the range divided from what is
before it. -/
theorem partition_fixes {lo hi : ℕ} (hlo : Divided nums lo) (hhi : Divided nums (hi + 1)) (hle : lo ≤ hi)
    (hlt : hi < nums.length) : ∃ (nums' : List α) (p : ℕ),
      Returns (fun fuel => partition fuel nums lo hi) (.ok (nums', (lo : ℤ), (p : ℤ), (hi : ℤ))) ∧ lo ≤ p ∧ p ≤ hi ∧
        nums'.Perm nums ∧ FixedAt nums' p ∧ Divided nums' lo := by
  obtain ⟨pre, seg, post, rfl, hpre, hseg⟩ := exists_range (Int.natCast_nonneg lo) (by omega : (lo : ℤ) ≤ hi + 1)
    (by omega : (hi : ℤ) < nums.length)
  cases seg with
  | nil =>
    rw [List.length_nil] at hseg
    omega
  | cons pilot rest =>
    have hlen : pre.length = lo := by omega
    have hlen' : (pre ++ (pilot :: rest)).length = hi + 1 := by
      rw [List.length_append]
      omega
    rw [List.append_assoc, divided_append hlen] at hlo
    rw [divided_append hlen'] at hhi
    have hstop : (hi : ℤ) = lo + rest.length := by
      rw [List.length_cons] at hseg
      omega
    obtain ⟨L, R, hreturns, hperm, hL, hR⟩ := partition_returns pre rest post pilot hpre hstop
    have hseg' : (L ++ pilot :: R).Perm (pilot :: rest) := List.perm_middle.trans (hperm.cons pilot)
    have hlen'' := hperm.length_eq
    rw [List.length_append] at hlen''
    refine ⟨_, lo + L.length, hreturns, by omega, by omega, (hseg'.append_left pre).append_right post, ?_, ?_⟩
    · refine ⟨pre ++ L, pilot, R ++ post, by simp, by simp [hlen], fun a ha => ?_, fun b hb => ?_⟩
      · rcases List.mem_append.1 ha with ha | ha
        · exact hlo a ha pilot (by simp)
        · exact hL a ha
      · rcases List.mem_append.1 hb with hb | hb
        · exact hR b hb
        · exact hhi pilot (by simp) b hb
    · rw [List.append_assoc, divided_append hlen]
      intro a ha b hb
      apply hlo a ha b
      rw [List.mem_append, hseg'.mem_iff, ← List.mem_append] at hb
      exact hb

/-- Where the next range begins, if the search goes on. -/
def low (K : ℤ) (s : List α × ℤ × ℤ) : ℤ := if s.2.2 < K then s.2.2 + 1 else s.2.1

/-- The index behind the next range. -/
def high (n K : ℤ) (s : List α × ℤ × ℤ) : ℤ := if s.2.2 < K then n else s.2.2

theorem narrow_eq {n k K : ℤ} (hK : n - k = K) {s : List α × ℤ × ℤ} (hne : s.2.2 ≠ K) (fuel : ℕ) :
    narrow n k (n - 1) fuel s = partition fuel s.1 (low K s) (high n K s - 1) >>= fun r =>
      pure (.again (r.1, r.2.1, r.2.2.1)) := by
  obtain ⟨nums, start, pivot⟩ := s
  rw [narrow, hK, if_pos hne, low, high]
  split_ifs <;> rfl

/-- The index `K` is in the range that is still searched. -/
structure Narrowing (nums : List α) (K lo hi : ℕ) (s : List α × ℤ × ℤ) : Prop where
  perm : s.1.Perm nums
  low : low K s = lo
  high : high nums.length K s = hi
  lo_le : lo ≤ K
  le_hi : K ≤ hi
  hi_le : hi ≤ nums.length
  divided_lo : Divided s.1 lo
  divided_hi : Divided s.1 hi
  fixed : s.2.2 = K → FixedAt s.1 K

variable {K lo hi : ℕ} {k : ℤ} {s : List α × ℤ × ℤ}

/-- A pivot in the range is one of its new bounds, and `start` may be the lower one still. -/
theorem Narrowing.of_fixedAt {nums' : List α} (hperm : nums'.Perm nums) (hK : K < nums.length) (hlo : lo ≤ K)
    (hdivided : Divided nums' lo) (hp : FixedAt nums' p) (hle : lo ≤ p) (hlt : p < hi) (hhi : hi ≤ nums.length) :
    ∃ lo' hi', Narrowing nums K lo' hi' (nums', (lo : ℤ), (p : ℤ)) ∧
      (nums.length - lo' < nums.length - lo ∨ lo' = lo ∧ hi' < hi) := by
  obtain ⟨hdp, hdp'⟩ := divided_of_fixedAt hp
  by_cases hpK : p < K
  · -- the search goes on to the right, up to the end of the list
    refine ⟨p + 1, nums.length, ⟨hperm, ?_, ?_, hpK, hK.le, le_rfl, hdp', ?_, fun heq => ?_⟩, Or.inl (by omega)⟩
    · rw [FindKthLargest.low, if_pos (by simpa using hpK)]
      rfl
    · rw [FindKthLargest.high, if_pos (by simpa using hpK)]
    · rw [← hperm.length_eq]
      exact divided_length nums'
    · simp only at heq
      omega
  · -- it goes on to the left, or ends
    refine ⟨lo, p, ⟨hperm, ?_, ?_, hlo, by omega, by omega, hdivided, hdp, fun heq => ?_⟩, Or.inr ⟨rfl, hlt⟩⟩
    · rw [FindKthLargest.low, if_neg (by simpa using hpK)]
    · rw [FindKthLargest.high, if_neg (by simpa using hpK)]
    · simp only at heq
      obtain rfl : p = K := by omega
      exact hp

theorem narrow_returns (hK : (nums.length : ℤ) - k = K) (hlt : K < nums.length) (h : Narrowing nums K lo hi s) :
    ∃ r, Returns (fun fuel => narrow nums.length k (nums.length - 1) fuel s) (.ok r) ∧
      r.elim (fun s' : List α × ℤ × ℤ => ∃ lo' hi', Narrowing nums K lo' hi' s' ∧
        (nums.length - lo' < nums.length - lo ∨ lo' = lo ∧ hi' < hi))
        (fun r : List α × ℤ => r.1.Perm nums ∧ r.2 = K ∧ FixedAt r.1 K) := by
  by_cases hne : s.2.2 = K
  · obtain ⟨s, start, pivot⟩ := s
    refine ⟨.leave (s, pivot), ?_, h.perm, hne, h.fixed hne⟩
    have hleave : ∀ fuel, narrow nums.length k (nums.length - 1) fuel (s, start, pivot) = pure (.leave (s, pivot)) :=
      fun fuel => by rw [narrow, hK, if_neg (not_not.2 hne)]
    simp only [hleave]
    exact Returns.done _
  · have hKhi : K < hi := by
      have hhigh := h.high
      have hle := h.le_hi
      rw [high] at hhigh
      split_ifs at hhigh
      · omega
      · omega
    have hlen := h.perm.length_eq
    have hle := h.hi_le
    obtain ⟨hi, rfl⟩ : ∃ m, hi = m + 1 := ⟨hi - 1, by omega⟩
    have hlo := h.lo_le
    obtain ⟨nums', p, hreturns, hlop, hphi, hperm, hfixed, hdivided⟩ := partition_fixes h.divided_lo h.divided_hi
      (by omega) (by omega)
    have hhigh : high nums.length K s - 1 = hi := by
      rw [h.high]
      omega
    refine ⟨.again (nums', (lo : ℤ), (p : ℤ)), ?_,
      Narrowing.of_fixedAt (hperm.trans h.perm) hlt hlo hdivided hfixed hlop (by omega) hle⟩
    simp only [narrow_eq hK hne, h.low, hhigh]
    exact hreturns.bind_ok (Returns.done _)

/-- The lower bound of the range goes up, or it stays and the upper one goes down. -/
theorem search_returns (nums : List α) (hK : (nums.length : ℤ) - k = K) (hlt : K < nums.length) :
    ∃ r : List α × ℤ, Returns (fun fuel => loopM (narrow nums.length k (nums.length - 1)) fuel (nums, 0, -1)) (.ok r) ∧
      r.1.Perm nums ∧ r.2 = K ∧ FixedAt r.1 K := by
  refine Returns.loopM_of_measure
    (fun s => toLex (nums.length - (low K s).toNat, (high nums.length K s).toNat))
    (I := fun s => ∃ lo hi, Narrowing nums K lo hi s) ?_ ⟨0, nums.length, List.Perm.refl nums, ?_, ?_, Nat.zero_le K,
      hlt.le, le_rfl, divided_zero nums, divided_length nums, fun heq => ?_⟩
  · rintro s ⟨lo, hi, h⟩
    obtain ⟨r, hreturns, hr⟩ := narrow_returns hK hlt h
    refine ⟨r, hreturns, ?_⟩
    cases r with
    | leave r => exact hr
    | again s' =>
      obtain ⟨lo', hi', h', hless⟩ := hr
      refine ⟨⟨lo', hi', h'⟩, ?_⟩
      rw [h.low, h.high, h'.low, h'.high, Prod.Lex.toLex_lt_toLex]
      simp only [Int.toNat_natCast]
      rcases hless with hless | ⟨rfl, hless⟩
      · exact Or.inl hless
      · exact Or.inr ⟨rfl, hless⟩
  · rw [low, if_pos (by simp; omega)]
    rfl
  · rw [high, if_pos (by simp; omega)]
  · simp only at heq
    omega

theorem findKthLargest_returns (nums : List α) (k : ℕ) (hpos : 1 ≤ k) (hk : k ≤ nums.length) :
    ∃ res nums', Returns (findKthLargest nums k) (.ok (res, nums')) ∧ nums'.Perm nums ∧
      (sorted nums)[nums.length - k]? = some res := by
  obtain ⟨⟨nums', pivot⟩, hsearch, hperm, rfl, hfixed⟩ := search_returns nums (k := k)
    (K := nums.length - k) (by omega) (by omega)
  simp only at hperm hfixed
  have hsorted := hfixed.getElem?
  obtain ⟨L, x, R, rfl, hlen, -, -⟩ := hfixed
  have hitem : item (L ++ x :: R) (nums.length - k : ℕ) = .ok x := item_append (by rw [hlen]) x R
  refine ⟨x, _, hsearch.bind_ok ((Returns.lift hitem).bind_ok (Returns.done _)), hperm, ?_⟩
  rw [← sorted_congr hperm, ← hsorted, ← hlen, List.getElem?_append_right le_rfl, Nat.sub_self]
  rfl

theorem findKthLargest_second : ∃ res nums', Returns (findKthLargest [2, 1, 3, 3] (2 : ℕ)) (.ok (res, nums')) ∧
    nums'.Perm [2, 1, 3, 3] ∧ (sorted [2, 1, 3, 3])[2]? = some res :=
  findKthLargest_returns [2, 1, 3, 3] 2 (by decide) (by decide)

end GoodGoodStudy.LeetCode.FindKthLargest
