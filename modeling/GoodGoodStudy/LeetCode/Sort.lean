/-
The other sorts of sort.py. `select_sort` compares with `nums[i]` where it should compare with the least element found so
far, and so takes the last element that is smaller than `nums[i]`. `insert_sort` and `shell_sort` have the same body but
for the gap, and the last passes of `shell_sort` have the gap 1.
-/
import GoodGoodStudy.LeetCode.QuickSort

namespace GoodGoodStudy.LeetCode.Sort

open GoodGoodStudy.Lib
open GoodGoodStudy.LeetCode.QuickSort (Exc item setItem swap item_append item_behind swap_self swap_append)

variable {α : Type} [LinearOrder α]

/-- The body of the inner loop of `select_sort`. -/
def look (nums : List α) (i min_index j : ℕ) : Except Exc ℕ := do
  if (← item nums j) < (← item nums i) then return j else return min_index

def last_smaller (nums : List α) (i : ℕ) : Except Exc ℕ :=
  (List.range' (i + 1) (nums.length - (i + 1))).foldlM (look nums i) i

def select_round (nums : List α) (i : ℕ) : Except Exc (List α) := do
  let min_index ← last_smaller nums i
  swap nums i min_index

def select_sort (nums : List α) : Except Exc (List α) :=
  (List.range (nums.length - 1)).foldlM select_round nums

/-- `nums[i]`, and `nums[i] = a`. For an index that is no place of the list, what they do is left open: Python counts a
negative index from the end. -/
structure Items (α : Type) where
  get : List α → ℤ → Except Exc α
  set : List α → ℤ → α → Except Exc (List α)
  get_natCast : ∀ (nums : List α) (i : ℕ) (h : i < nums.length), get nums i = .ok (nums.get ⟨i, h⟩)
  set_natCast : ∀ (nums : List α) (i : ℕ) (a : α), i < nums.length → set nums i a = .ok (nums.set i a)

/-- The items as Python has them. -/
def Items.python (α : Type) : Items α where
  get := item
  set := setItem
  get_natCast nums i h := by
    rw [item, item?_natCast h]
    rfl
  set_natCast nums i a h := by rw [setItem, setItem?_natCast h]

/-- Every index that is no place of the list raises. -/
def Items.strict (α : Type) : Items α where
  get nums i := if 0 ≤ i then item nums i else .error .indexError
  set nums i a := if 0 ≤ i then setItem nums i a else .error .indexError
  get_natCast nums i h := by
    rw [if_pos (Int.natCast_nonneg i)]
    exact (Items.python α).get_natCast nums i h
  set_natCast nums i a h := by
    rw [if_pos (Int.natCast_nonneg i)]
    exact (Items.python α).set_natCast nums i a h

/-- The body of the `while` loop in `insert_sort`, with the gap 1, and of the inner one in `shell_sort`. -/
def shift (items : Items α) (gap : ℕ) (current : α) :
    List α × ℤ → Except Exc (Round (List α × ℤ) (List α × ℤ))
  | (nums, pre_index) => do
    if pre_index ≥ 0 then
      if (← items.get nums pre_index) > current then
        return .again (← items.set nums (pre_index + gap) (← items.get nums pre_index), pre_index - gap)
      else return .leave (nums, pre_index)
    else return .leave (nums, pre_index)

def shifts (items : Items α) (gap : ℕ) (current : α) (fuel : ℕ) (s : List α × ℤ) : ExceptT Exc Option (List α × ℤ) :=
  loopM (fun _ s => liftM (shift items gap current s)) fuel s

/-- The body of the `for` loop. -/
def insert (items : Items α) (gap fuel : ℕ) (nums : List α) (i : ℕ) : ExceptT Exc Option (List α) := do
  let current ← items.get nums i
  let (nums, pre_index) ← shifts items gap current fuel (nums, i - gap)
  items.set nums (pre_index + gap) current

def insert_sort (items : Items α) (fuel : ℕ) (nums : List α) : ExceptT Exc Option (List α) :=
  (List.range nums.length).foldlM (insert items 1 fuel) nums

def shell_round (items : Items α) (fuel : ℕ) : List α × ℕ → ExceptT Exc Option (Round (List α × ℕ) (List α))
  | (nums, gap) => do
    if gap > 0 then
      let nums ← (List.range' gap (nums.length - gap)).foldlM (insert items gap fuel) nums
      return .again (nums, gap >>> 1)
    else return .leave nums

def shell_sort (items : Items α) (fuel : ℕ) (nums : List α) : ExceptT Exc Option (List α) :=
  loopM (shell_round items) fuel (nums, nums.length >>> 1)

/-! ## Insertion -/

variable {items : Items α} {gap i q : ℕ} {nums : List α} {current : α}

/-- The index of the place that `nums[pre_index]` would be shifted to is `q`. -/
theorem shift_stop (h : ∀ hq : q - gap < nums.length, gap ≤ q → nums.get ⟨q - gap, hq⟩ ≤ current)
    (hq : q < nums.length) : shift items gap current (nums, (q - gap : ℤ)) = .ok (.leave (nums, (q - gap : ℤ))) := by
  rw [shift]
  split_ifs with hge
  · have hcast : (q - gap : ℤ) = (q - gap : ℕ) := by omega
    have hle := h (by omega) (by omega)
    rw [hcast, items.get_natCast nums (q - gap) (by omega)]
    simp only [bind, Except.bind]
    rw [if_neg (not_lt.2 hle)]
    rfl
  · rfl

theorem shift_again (hle : gap ≤ q) (hq : q < nums.length) (hlt : q - gap < nums.length)
    (h : current < nums.get ⟨q - gap, hlt⟩) : shift items gap current (nums, (q - gap : ℤ)) =
      .ok (.again (nums.set q (nums.get ⟨q - gap, hlt⟩), ((q - gap : ℕ) - gap : ℤ))) := by
  have hcast : (q - gap : ℤ) = (q - gap : ℕ) := by omega
  have hq' : ((q - gap : ℕ) + gap : ℤ) = q := by omega
  rw [shift, if_pos (by omega), hcast, hq', items.get_natCast nums (q - gap) hlt]
  simp only [bind, Except.bind]
  rw [if_pos h, items.set_natCast nums q _ hq]
  rfl

/-- What every shift preserves holds in the end, and then the element before the place is not greater. -/
theorem shifts_returns (items : Items α) {I : List α → ℕ → Prop} (hgap : 0 < gap) (hi : i < nums.length)
    (hinit : I nums i) (hstep : ∀ (nums' : List α) (q : ℕ) (hq : q - gap < nums'.length), I nums' q → gap ≤ q →
      current < nums'.get ⟨q - gap, hq⟩ → I (nums'.set q (nums'.get ⟨q - gap, hq⟩)) (q - gap)) :
    ∃ s, Returns (fun fuel => shifts items gap current fuel (nums, i - gap)) (.ok s) ∧
      ∃ (nums' : List α) (q : ℕ), s = (nums', (q - gap : ℤ)) ∧ I nums' q ∧ nums'.length = nums.length ∧ q ≤ i ∧
        ∀ hq : q - gap < nums'.length, gap ≤ q → nums'.get ⟨q - gap, hq⟩ ≤ current := by
  refine Returns.loopM_of_measure (fun s : List α × ℤ => (s.2 + gap).toNat) (I := fun s => ∃ (nums' : List α) (q : ℕ),
    s = (nums', (q - gap : ℤ)) ∧ I nums' q ∧ nums'.length = nums.length ∧ q ≤ i) ?_
    ⟨nums, i, rfl, hinit, rfl, le_rfl⟩
  rintro _ ⟨nums', q, rfl, hI, hlen, hqi⟩
  by_cases hstop : ∀ hq : q - gap < nums'.length, gap ≤ q → nums'.get ⟨q - gap, hq⟩ ≤ current
  · exact ⟨_, Returns.lift (shift_stop hstop (by omega)), nums', q, rfl, hI, hlen, hqi, hstop⟩
  · simp only [not_forall, not_le] at hstop
    obtain ⟨hq, hle, hlt⟩ := hstop
    refine ⟨_, Returns.lift (shift_again hle (by omega) hq hlt), ⟨_, q - gap, rfl, hstep nums' q hq hI hle hlt, ?_,
      by omega⟩, ?_⟩
    · rw [List.length_set, hlen]
    · simp only
      omega

theorem insert_returns (items : Items α) {I : List α → ℕ → Prop} (hgap : 0 < gap) (hi : i < nums.length)
    (hinit : I nums i) (hstep : ∀ (nums' : List α) (q : ℕ) (hq : q - gap < nums'.length), I nums' q → gap ≤ q →
      nums.get ⟨i, hi⟩ < nums'.get ⟨q - gap, hq⟩ → I (nums'.set q (nums'.get ⟨q - gap, hq⟩)) (q - gap)) :
    ∃ (nums' : List α) (q : ℕ), Returns (fun fuel => insert items gap fuel nums i)
        (.ok (nums'.set q (nums.get ⟨i, hi⟩))) ∧ I nums' q ∧ nums'.length = nums.length ∧ q ≤ i ∧
      ∀ hq : q - gap < nums'.length, gap ≤ q → nums'.get ⟨q - gap, hq⟩ ≤ nums.get ⟨i, hi⟩ := by
  obtain ⟨_, hshifts, nums', q, rfl, hI, hlen, hqi, hstop⟩ := shifts_returns items hgap hi hinit hstep
  have hset : items.set nums' (q - gap + gap : ℤ) (nums.get ⟨i, hi⟩) = .ok (nums'.set q (nums.get ⟨i, hi⟩)) := by
    rw [Int.sub_add_cancel]
    exact items.set_natCast nums' q _ (by omega)
  have hget := Returns.lift (items.get_natCast nums i hi)
  exact ⟨nums', q, hget.bind_ok (hshifts.bind_ok (Returns.lift hset)), hI, hlen, hqi, hstop⟩

omit [LinearOrder α] in
/-- It does not matter which of two places is the free one, if the other place has its element. -/
theorem set_set_perm {p : ℕ} (hne : p ≠ q) (hq : q < nums.length) (hp : p < nums.length) (a : α) :
    ((nums.set q (nums.get ⟨p, hp⟩)).set p a).Perm (nums.set q a) := by
  have hq' : q < (nums.set q a).length := by rwa [List.length_set]
  have hp' : p < (nums.set q a).length := by rwa [List.length_set]
  have hperm := List.set_set_perm hq' hp'
  rwa [List.getElem_set_self, List.getElem_set_ne hne.symm, List.set_set] at hperm

/-- Whatever the gap is, the elements are rearranged. -/
theorem insert_perm (items : Items α) (hgap : 0 < gap) (hi : i < nums.length) :
    ∃ nums', Returns (fun fuel => insert items gap fuel nums i) (.ok nums') ∧ nums'.Perm nums := by
  obtain ⟨nums', q, hreturns, ⟨hperm, -⟩, -⟩ := insert_returns items
    (I := fun nums' q => (nums'.set q (nums.get ⟨i, hi⟩)).Perm nums ∧ q < nums'.length) hgap hi
    ⟨by rw [List.get_eq_getElem, List.set_getElem_self], hi⟩ fun nums' q hq ⟨hperm, hlt⟩ hle _ =>
      ⟨(set_set_perm (by omega) hlt hq _).trans hperm, by rwa [List.length_set]⟩
  exact ⟨_, hreturns, hperm⟩

theorem sorted_insert {B C : List α} {x : α} (h : (B ++ C).Pairwise (· ≤ ·)) (hB : ∀ b ∈ B, b ≤ x)
    (hC : ∀ c ∈ C, x < c) : B ++ x :: C = sorted (B ++ C ++ [x]) := by
  refine eq_sorted ?_ ?_
  · rw [List.append_assoc]
    exact (List.perm_append_singleton x C).symm.append_left B
  · obtain ⟨hpB, hpC, hBC⟩ := List.pairwise_append.1 h
    refine List.pairwise_append.2 ⟨hpB, List.Pairwise.cons (fun c hc => (hC c hc).le) hpC, fun b hb c hc => ?_⟩
    rcases List.mem_cons.1 hc with rfl | hc
    · exact hB b hb
    · exact hBC b hb c hc

/-- The element `x` is on its way through `A` with the gap 1: the greater elements behind the place `q` are shifted, and
what stands at `q` does not matter. -/
def Shifted (A T : List α) (x : α) (nums' : List α) (q : ℕ) : Prop :=
  ∃ B y C, nums' = B ++ y :: (C ++ T) ∧ B.length = q ∧ A = B ++ C ∧ ∀ c ∈ C, x < c

section Shifted

variable {A T nums' : List α} {x : α}

theorem Shifted.shift (h : Shifted A T x nums' q) (hle : 1 ≤ q) (hq : q - 1 < nums'.length)
    (hlt : x < nums'.get ⟨q - 1, hq⟩) : Shifted A T x (nums'.set q (nums'.get ⟨q - 1, hq⟩)) (q - 1) := by
  obtain ⟨B, y, C, rfl, rfl, hBC, hC⟩ := h
  obtain ⟨B, b, rfl⟩ := B.eq_nil_or_concat'.resolve_left (List.ne_nil_of_length_pos hle)
  have hb : (B ++ [b] ++ y :: (C ++ T)).get ⟨(B ++ [b]).length - 1, hq⟩ = b := by simp
  rw [hb] at hlt ⊢
  refine ⟨B, b, b :: C, ?_, ?_, ?_, List.forall_mem_cons.2 ⟨hlt, hC⟩⟩
  · simp
  · simp
  · simp [hBC]

/-- Where the way ends. -/
theorem Shifted.set_eq (h : Shifted A T x nums' q) (hA : A.Pairwise (· ≤ ·))
    (hstop : ∀ hq : q - 1 < nums'.length, 1 ≤ q → nums'.get ⟨q - 1, hq⟩ ≤ x) :
    nums'.set q x = sorted (A ++ [x]) ++ T := by
  obtain ⟨B, y, C, rfl, rfl, rfl, hC⟩ := h
  have hB : ∀ b ∈ B, b ≤ x := by
    rcases B.eq_nil_or_concat' with rfl | ⟨B, b, rfl⟩
    · simp
    · have hlast : b ≤ x := by simpa using hstop (by simp) (by simp)
      have hle := (List.pairwise_append.1 (List.pairwise_append.1 hA).1).2.2
      intro b' hb'
      rcases List.mem_append.1 hb' with hb' | hb'
      · exact (hle b' hb' b (List.mem_singleton.2 rfl)).trans hlast
      · exact (List.mem_singleton.1 hb').trans_le hlast
  have hset : (B ++ y :: (C ++ T)).set B.length x = B ++ x :: C ++ T := by simp
  rw [hset, sorted_insert hA hB hC]

/-- With the gap 1, the element comes to its place among the sorted ones before it. -/
theorem insert_sorted (items : Items α) (hA : A.Pairwise (· ≤ ·)) :
    Returns (fun fuel => insert items 1 fuel (A ++ x :: T) A.length) (.ok (sorted (A ++ [x]) ++ T)) := by
  have hi : A.length < (A ++ x :: T).length := by simp
  have hx : (A ++ x :: T).get ⟨A.length, hi⟩ = x := by simp
  obtain ⟨nums', q, hreturns, hshifted, -, -, hstop⟩ := insert_returns items (I := Shifted A T x) Nat.one_pos hi
    ⟨A, x, [], rfl, rfl, by simp, by simp⟩ fun nums' q hq h hle hlt => h.shift hle hq (hx ▸ hlt)
  simp only [hx] at hreturns hstop
  rw [hshifted.set_eq hA hstop] at hreturns
  exact hreturns

end Shifted

/-! ## Passes -/

/-- A pass with the gap 1 over the elements behind sorted ones. -/
theorem pass_sorted (items : Items α) {a : ℕ} {s : List α} (hs : s = sorted (nums.take a) ++ nums.drop a) :
    Returns (fun fuel => ((List.range' a (nums.length - a)).foldlM (insert items 1 fuel) s : ExceptT Exc Option _))
      (.ok (sorted nums)) := by
  have hstep : ∀ t, a ≤ t → t < a + (nums.length - a) → ∀ s, s = sorted (nums.take t) ++ nums.drop t →
      ∃ s', Returns (fun fuel => insert items 1 fuel s t) (.ok s') ∧
        s' = sorted (nums.take (t + 1)) ++ nums.drop (t + 1) := by
    rintro t hge hlt _ rfl
    have ht : t < nums.length := by omega
    have hlen : (sorted (nums.take t)).length = t := by
      rw [length_sorted, List.length_take, min_eq_left ht.le]
    have hinsert := insert_sorted items (T := nums.drop (t + 1)) (x := nums[t])
      (sorted_pairwise (nums.take t))
    rw [← List.drop_eq_getElem_cons ht, hlen] at hinsert
    refine ⟨_, hinsert, ?_⟩
    rw [List.take_succ_eq_append_getElem ht]
    exact congrArg (· ++ nums.drop (t + 1)) (sorted_congr ((sorted_perm _).append_right _))
  obtain ⟨s', hreturns, hs'⟩ := Returns.foldlM_range'_ok _ a hstep hs
  rw [List.take_of_length_le (by omega), List.drop_eq_nil_of_le (by omega), List.append_nil] at hs'
  exact hs' ▸ hreturns

theorem pass_perm (items : Items α) (hgap : 0 < gap) (s : List α) :
    ∃ s', Returns (fun fuel => ((List.range' gap (s.length - gap)).foldlM (insert items gap fuel) s :
      ExceptT Exc Option _)) (.ok s') ∧ s'.Perm s := by
  refine Returns.foldlM_range'_ok (f := insert items gap) (P := fun _ s' => s'.Perm s) (s.length - gap) gap ?_
    (List.Perm.refl s)
  intro t hge hlt s' hs'
  have ht : t < s'.length := by
    rw [hs'.length_eq]
    omega
  obtain ⟨s'', hreturns, hperm⟩ := insert_perm items hgap ht
  exact ⟨s'', hreturns, hperm.trans hs'⟩

theorem insert_sort_returns (items : Items α) (nums : List α) :
    Returns (fun fuel => insert_sort items fuel nums) (.ok (sorted nums)) := by
  have hpass := pass_sorted items (s := nums) (a := 0) rfl
  simpa only [insert_sort, List.range_eq_range', Nat.sub_zero] using hpass

theorem shell_round_returns (items : Items α) {s : List α × ℕ} (hperm : s.1.Perm nums)
    (hzero : s.2 = 0 → s.1 = sorted nums) : ∃ r, Returns (fun fuel => shell_round items fuel s) (.ok r) ∧
      r.elim (fun s' => (s'.1.Perm nums ∧ (s'.2 = 0 → s'.1 = sorted nums)) ∧ s'.2 < s.2) (· = sorted nums) := by
  obtain ⟨s, gap⟩ := s
  by_cases hgap : gap > 0
  · have hround : ∀ {s'}, Returns (fun fuel => ((List.range' gap (s.length - gap)).foldlM (insert items gap fuel) s :
        ExceptT Exc Option _)) (.ok s') → Returns (fun fuel => shell_round items fuel (s, gap))
          (.ok (.again (s', gap >>> 1))) := fun h => by
      simp only [shell_round, if_pos hgap]
      exact h.bind_ok (Returns.done _)
    have hhalf : gap >>> 1 < gap := by
      rw [Nat.shiftRight_eq_div_pow]
      omega
    by_cases hone : gap = 1
    · -- the last pass: the first element alone is sorted
      subst hone
      have hpass : Returns (fun fuel => ((List.range' 1 (s.length - 1)).foldlM (insert items 1 fuel) s :
          ExceptT Exc Option _)) (.ok (sorted s)) := by
        apply pass_sorted items
        rw [sorted_short (List.length_take_le 1 s), List.take_append_drop]
      exact ⟨_, hround hpass, ⟨(sorted_perm s).trans hperm, fun _ => sorted_congr hperm⟩, hhalf⟩
    · -- the gap does not become 0 yet
      obtain ⟨s', hreturns, hperm'⟩ := pass_perm items hgap s
      refine ⟨_, hround hreturns, ⟨hperm'.trans hperm, fun hhalf => ?_⟩, hhalf⟩
      rw [Nat.shiftRight_eq_div_pow] at hhalf
      omega
  · have hleave : ∀ fuel, shell_round items fuel (s, gap) = pure (.leave s) := fun fuel => by
      rw [shell_round, if_neg hgap]
    refine ⟨.leave s, ?_, hzero (Nat.eq_zero_of_not_pos hgap)⟩
    simp only [hleave]
    exact Returns.done _

theorem shell_sort_returns (items : Items α) (nums : List α) :
    Returns (fun fuel => shell_sort items fuel nums) (.ok (sorted nums)) := by
  have hinit : nums.length >>> 1 = 0 → nums = sorted nums := fun hzero => by
    rw [Nat.shiftRight_eq_div_pow] at hzero
    exact (sorted_short (by omega)).symm
  obtain ⟨r, hreturns, rfl⟩ := Returns.loopM_of_measure (fun s : List α × ℕ => s.2)
    (fun s (hs : s.1.Perm nums ∧ (s.2 = 0 → s.1 = sorted nums)) => shell_round_returns items hs.1 hs.2)
    (s := (nums, nums.length >>> 1)) ⟨List.Perm.refl nums, hinit⟩
  exact hreturns

/-- Both sort, and neither of them uses an index that is no place of the list. -/
theorem shell_sort_eq_insert_sort (items : Items α) (nums : List α) :
    Returns (fun fuel => shell_sort items fuel nums) (.ok (sorted nums)) ∧
      Returns (fun fuel => insert_sort items fuel nums) (.ok (sorted nums)) :=
  ⟨shell_sort_returns items nums, insert_sort_returns items nums⟩

/-! ## Selection -/

/-- The lists that the sort sorts: the first element is a least one, or the last of the elements that are smaller than it
is one, and then the first element comes to its place. -/
inductive Selectable : List α → Prop
  | nil : Selectable []
  | least {x : α} {l : List α} (hle : ∀ a ∈ l, x ≤ a) (h : Selectable l) : Selectable (x :: l)
  | last {x y : α} {S T : List α} (hy : y < x) (hS : ∀ s ∈ S, y ≤ s) (hT : ∀ t ∈ T, x ≤ t)
    (h : Selectable (S ++ x :: T)) : Selectable (x :: (S ++ y :: T))

/-- There is only one last smaller element. -/
theorem last_unique {x y y' : α} {S T S' T' : List α} (hy : y < x) (hT : ∀ t ∈ T, x ≤ t) (hy' : y' < x)
    (hT' : ∀ t ∈ T', x ≤ t) (h : S ++ y :: T = S' ++ y' :: T') : S = S' ∧ y = y' ∧ T = T' := by
  rcases List.append_eq_append_iff.1 h with ⟨as, rfl, has⟩ | ⟨bs, rfl, hbs⟩
  · cases as with
    | nil =>
      obtain ⟨rfl, rfl⟩ := List.cons_eq_cons.1 has
      exact ⟨(List.append_nil S).symm, rfl, rfl⟩
    | cons a as =>
      have hmem : y' ∈ T := by simp [(List.cons_eq_cons.1 has).2]
      exact absurd (hT y' hmem) (not_le.2 hy')
  · cases bs with
    | nil =>
      obtain ⟨rfl, rfl⟩ := List.cons_eq_cons.1 hbs
      exact ⟨List.append_nil S', rfl, rfl⟩
    | cons b bs =>
      have hmem : y ∈ T' := by simp [(List.cons_eq_cons.1 hbs).2]
      exact absurd (hT' y hmem) (not_le.2 hy)

section Selectable

variable {x y : α} {l S T : List α}

theorem selectable_cons_iff (hle : ∀ a ∈ l, x ≤ a) : Selectable (x :: l) ↔ Selectable l := by
  constructor
  · intro h
    cases h with
    | least _ h => exact h
    | last hy _ _ _ => exact absurd (hle _ (by simp)) (not_le.2 hy)
  · exact .least hle

theorem selectable_last_iff (hy : y < x) (hT : ∀ t ∈ T, x ≤ t) :
    Selectable (x :: (S ++ y :: T)) ↔ (∀ s ∈ S, y ≤ s) ∧ Selectable (S ++ x :: T) := by
  constructor
  · intro h
    generalize hl : S ++ y :: T = l at h
    cases h with
    | least hle _ => exact absurd (hle y (by simp [← hl])) (not_le.2 hy)
    | last hy' hS' hT' h =>
      obtain ⟨rfl, rfl, rfl⟩ := last_unique hy hT hy' hT' hl
      exact ⟨hS', h⟩
  · rintro ⟨hS, h⟩
    exact .last hy hS hT h

end Selectable

/-- The inner loop from the element `y` on. -/
theorem look_cons (pre : List α) (x : α) (mid : List α) (y : α) (l : List α) (m : ℕ) :
    (List.range' (pre.length + 1 + mid.length) (y :: l).length).foldlM
        (look (pre ++ x :: (mid ++ y :: l)) pre.length) m =
      (List.range' (pre.length + 1 + (mid ++ [y]).length) l.length).foldlM
        (look (pre ++ x :: ((mid ++ [y]) ++ l)) pre.length) (if y < x then pre.length + 1 + mid.length else m) := by
  have hx : item (pre ++ x :: (mid ++ y :: l)) pre.length = .ok x := item_append rfl x _
  have hy : item (pre ++ x :: (mid ++ y :: l)) (pre.length + 1 + mid.length : ℕ) = .ok y :=
    item_behind (by omega) x y l
  have hlook : look (pre ++ x :: (mid ++ y :: l)) pre.length m (pre.length + 1 + mid.length) =
      .ok (if y < x then pre.length + 1 + mid.length else m) := by
    rw [look]
    simp only [hx, hy, bind, Except.bind]
    split_ifs <;> rfl
  rw [List.length_cons, List.range'_succ, List.foldlM_cons, hlook, List.append_assoc, List.length_append,
    List.length_singleton, ← Nat.add_assoc]
  rfl

theorem last_smaller_from (pre : List α) (x : α) (mid l : List α) (m : ℕ) :
    ∃ m', (List.range' (pre.length + 1 + mid.length) l.length).foldlM (look (pre ++ x :: (mid ++ l)) pre.length) m =
        .ok m' ∧
      ((∀ a ∈ l, x ≤ a) ∧ m' = m ∨ ∃ S y T, l = S ++ y :: T ∧ y < x ∧ (∀ t ∈ T, x ≤ t) ∧
        m' = pre.length + 1 + mid.length + S.length) := by
  induction l generalizing mid m with
  | nil => exact ⟨m, rfl, Or.inl ⟨by simp, rfl⟩⟩
  | cons y l ih =>
    obtain ⟨m', heq, hm'⟩ := ih (mid ++ [y]) (if y < x then pre.length + 1 + mid.length else m)
    rw [look_cons]
    refine ⟨m', heq, ?_⟩
    rw [List.length_append, List.length_singleton, ← Nat.add_assoc] at hm'
    rcases hm' with ⟨hle, rfl⟩ | ⟨S, z, T, rfl, hz, hT, rfl⟩
    · split_ifs with hlt
      · exact Or.inr ⟨[], y, l, rfl, hlt, hle, rfl⟩
      · exact Or.inl ⟨List.forall_mem_cons.2 ⟨not_lt.1 hlt, hle⟩, rfl⟩
    · refine Or.inr ⟨y :: S, z, T, rfl, hz, hT, ?_⟩
      rw [List.length_cons]
      omega

/-- A round brings the last smaller element to the front, if there is one. -/
theorem select_round_ok (pre : List α) (x : α) (l : List α) :
    ∃ y rest, select_round (pre ++ x :: l) pre.length = .ok (pre ++ y :: rest) ∧ (y :: rest).Perm (x :: l) ∧
      (Selectable (x :: l) ↔ (∀ a ∈ rest, y ≤ a) ∧ Selectable rest) := by
  have hcount : (pre ++ x :: l).length - (pre.length + 1) = l.length := by
    rw [List.length_append, List.length_cons]
    omega
  obtain ⟨m, hm, hcases⟩ := last_smaller_from pre x [] l pre.length
  have hlast : last_smaller (pre ++ x :: l) pre.length = .ok m := by
    rw [last_smaller, hcount]
    exact hm
  rcases hcases with ⟨hle, rfl⟩ | ⟨S, y, T, rfl, hy, hT, rfl⟩
  · refine ⟨x, l, ?_, List.Perm.refl _, ?_⟩
    · simp only [select_round, hlast, bind, Except.bind]
      exact swap_self rfl rfl x l
    · rw [selectable_cons_iff hle, and_iff_right hle]
  · refine ⟨y, S ++ x :: T, ?_, ?_, ?_⟩
    · simp only [select_round, hlast, bind, Except.bind]
      exact swap_append rfl (by simp) x y T
    · exact (List.perm_middle.cons y).trans ((List.Perm.swap x y _).trans (List.perm_middle.symm.cons x))
    · have hbehind : ∀ a ∈ x :: T, y ≤ a := List.forall_mem_cons.2 ⟨hy.le, fun t ht => hy.le.trans (hT t ht)⟩
      rw [selectable_last_iff hy hT, List.forall_mem_append, and_iff_left hbehind]

/-- The rounds for the elements behind `pre`. -/
theorem select_rounds_ok (pre l : List α) :
    ∃ res, (List.range' pre.length (l.length - 1)).foldlM select_round (pre ++ l) = .ok (pre ++ res) ∧ res.Perm l ∧
      (res.Pairwise (· ≤ ·) ↔ Selectable l) := by
  induction hn : l.length generalizing pre l with
  | zero =>
    obtain rfl := List.eq_nil_of_length_eq_zero hn
    exact ⟨[], rfl, List.Perm.refl _, iff_of_true List.Pairwise.nil .nil⟩
  | succ n ih =>
    obtain ⟨x, l, rfl⟩ := List.exists_cons_of_length_eq_add_one hn
    cases n with
    | zero =>
      -- there is no round for the last element
      obtain rfl := List.eq_nil_of_length_eq_zero (Nat.succ.inj hn)
      exact ⟨[x], rfl, List.Perm.refl _, iff_of_true (List.pairwise_singleton _ x) (.least (by simp) .nil)⟩
    | succ n =>
      obtain ⟨y, rest, hround, hperm, hiff⟩ := select_round_ok pre x l
      have hlength : rest.length = n + 1 := Nat.succ.inj (hperm.length_eq.trans hn)
      obtain ⟨res, hrun, hperm', hiff'⟩ := ih (pre ++ [y]) rest hlength
      rw [List.length_append, List.length_singleton, List.append_assoc, List.append_assoc] at hrun
      refine ⟨y :: res, ?_, (hperm'.cons y).trans hperm, ?_⟩
      · rw [Nat.add_sub_cancel, List.range'_succ, List.foldlM_cons, hround]
        exact hrun
      · rw [hiff, List.pairwise_cons, hiff']
        simp only [hperm'.mem_iff]

/-- The sort is right exactly on these lists. -/
theorem select_sort_iff (nums : List α) :
    ∃ res, select_sort nums = .ok res ∧ (res = sorted nums ↔ Selectable nums) := by
  obtain ⟨res, hrun, hperm, hiff⟩ := select_rounds_ok [] nums
  rw [List.nil_append, List.nil_append, List.length_nil, ← List.range_eq_range'] at hrun
  refine ⟨res, hrun, ?_⟩
  rw [← hiff]
  exact ⟨fun h => h ▸ sorted_pairwise nums, eq_sorted hperm⟩

/-- The 2 is smaller than the 3 and stands behind the 1. -/
theorem select_sort_three : select_sort [3, 1, 2] = .ok [2, 1, 3] ∧ sorted [3, 1, 2] = [1, 2, 3] := ⟨rfl, rfl⟩

end GoodGoodStudy.LeetCode.Sort
