/-
The exercise 49, the numbers without other prime factors than 2, 3 and 5. The first version tests one number after the
other, by its quotients; the second version merges the multiples of the numbers found, with a pointer for each factor.
-/
import Mathlib.Algebra.Order.Field.Rat
import Mathlib.Data.Nat.Prime.Basic
import Mathlib.Data.Set.Finite.Basic
import GoodGoodStudy.Lib.Enumeration
import GoodGoodStudy.Lib.Loop
import GoodGoodStudy.Lib.Sequence

namespace GoodGoodStudy.LeetCode.UglyNumber

open GoodGoodStudy.Lib

/-! ## The code -/

namespace Solution

structure State where
  ugly : Finset ℕ
  l_ugly : List ℕ
  num : ℕ
  count : ℕ

def init : State := ⟨{1, 2, 3, 4, 5}, [1, 2, 3, 4, 5], 6, 6⟩

/-- `num / d in ugly` -/
def QuotientIn (ugly : Finset ℕ) (num d : ℕ) : Prop := ∃ u ∈ ugly, (u : ℚ) = num / d

instance (ugly : Finset ℕ) (num d : ℕ) : Decidable (QuotientIn ugly num d) :=
  inferInstanceAs (Decidable (∃ u ∈ ugly, (u : ℚ) = num / d))

/-- A round of `while count <= n`. -/
def round (n : ℕ) (s : State) : Round State (List ℕ) :=
  if s.count ≤ n then
    if QuotientIn s.ugly s.num 2 ∨ QuotientIn s.ugly s.num 3 ∨ QuotientIn s.ugly s.num 5 then
      .again ⟨insert s.num s.ugly, s.l_ugly ++ [s.num], s.num + 1, s.count + 1⟩
    else .again { s with num := s.num + 1 }
  else .leave s.l_ugly

/-- The inner `none` is an index out of range. -/
def nthUglyNumber (n fuel : ℕ) : Option (Option ℕ) :=
  if n < init.l_ugly.length then some (item? init.l_ugly ((n : ℤ) - 1))
  else do
    let l_ugly ← loop (round n) fuel init
    some (item? l_ugly ((n : ℤ) - 1))

end Solution

namespace Ugly

structure State where
  nums : List ℕ
  i2 : ℕ
  i3 : ℕ
  i5 : ℕ

/-- A round of the loop; `none` is an index out of range. -/
def round (s : State) : Option State := do
  let ugly := min (min ((← item? s.nums s.i2) * 2) ((← item? s.nums s.i3) * 3)) ((← item? s.nums s.i5) * 5)
  let nums := s.nums ++ [ugly]
  let i2 := if ugly = (← item? nums s.i2) * 2 then s.i2 + 1 else s.i2
  let i3 := if ugly = (← item? nums s.i3) * 3 then s.i3 + 1 else s.i3
  let i5 := if ugly = (← item? nums s.i5) * 5 then s.i5 + 1 else s.i5
  some ⟨nums, i2, i3, i5⟩

/-- The list `nums` of an instance whose loop has so many rounds. -/
def nums (rounds : ℕ) : Option (List ℕ) := do
  let s ← (List.range rounds).foldlM (fun s _ => round s) ⟨[1], 0, 0, 0⟩
  some s.nums

end Ugly

/-- The rounds of the loop in the source are those of `range(1, 1690)`. -/
def Solution2.nthUglyNumber (rounds n : ℕ) : Option ℕ := do
  item? (← Ugly.nums rounds) ((n : ℤ) - 1)

example : Solution.nthUglyNumber 7 10 = some (some 8) := by decide +kernel

example : Solution2.nthUglyNumber 9 10 = some 12 := by decide

/-! ## Ugly numbers -/

/-- Positive, with no prime factor but 2, 3 and 5. -/
def IsUgly (x : ℕ) : Prop := 0 < x ∧ ∀ p, p.Prime → p ∣ x → p = 2 ∨ p = 3 ∨ p = 5

/-- One of the three factors. -/
def Factor (d : ℕ) : Prop := d = 2 ∨ d = 3 ∨ d = 5

theorem isUgly_one : IsUgly 1 := ⟨Nat.one_pos, fun _ hp h => absurd (Nat.dvd_one.1 h) hp.one_lt.ne'⟩

theorem Factor.prime {d : ℕ} (hd : Factor d) : d.Prime := by
  rcases hd with rfl | rfl | rfl
  · exact Nat.prime_two
  · exact Nat.prime_three
  · exact Nat.prime_five

theorem IsUgly.mul {d y : ℕ} (hd : Factor d) (hy : IsUgly y) : IsUgly (d * y) := by
  refine ⟨Nat.mul_pos hd.prime.pos hy.1, fun p hp hdvd => ?_⟩
  rcases hp.dvd_mul.1 hdvd with h | h
  · exact ((Nat.prime_dvd_prime_iff_eq hp hd.prime).1 h) ▸ hd
  · exact hy.2 p hp h

/-- An ugly number is 1, or it has a smaller one as its quotient. -/
theorem IsUgly.eq_one_or {x : ℕ} (hx : IsUgly x) : x = 1 ∨ ∃ d y, Factor d ∧ IsUgly y ∧ x = d * y ∧ y < x := by
  by_cases hone : x = 1
  · exact Or.inl hone
  · obtain ⟨p, hp, y, rfl⟩ := Nat.exists_prime_and_dvd hone
    have hy : 0 < y := Nat.pos_of_mul_pos_left hx.1
    refine Or.inr ⟨p, y, hx.2 p hp (Nat.dvd_mul_right p y), ⟨hy, fun q hq h => ?_⟩, rfl, ?_⟩
    · exact hx.2 q hq (h.mul_left p)
    · exact (Nat.lt_mul_iff_one_lt_left hy).2 hp.one_lt

theorem infinite_isUgly : {x | IsUgly x}.Infinite := by
  refine Set.infinite_of_injective_forall_mem (Nat.pow_right_injective (le_refl 2)) fun k => ?_
  induction k with
  | zero => exact isUgly_one
  | succ k ih =>
    rw [Set.mem_ofPred_eq, Nat.pow_succ, Nat.mul_comm]
    exact IsUgly.mul (Or.inl rfl) ih

/-! ## By quotients -/

namespace Solution

theorem quotientIn_iff {ugly : Finset ℕ} {num d : ℕ} (hd : 0 < d) :
    QuotientIn ugly num d ↔ ∃ u ∈ ugly, num = d * u := by
  unfold QuotientIn
  have hd' : (d : ℚ) ≠ 0 := Nat.cast_ne_zero.2 hd.ne'
  refine exists_congr fun u => and_congr_right fun _ => ?_
  rw [eq_div_iff hd', ← Nat.cast_mul, Nat.cast_inj, Nat.mul_comm, eq_comm]

/-- The ugly numbers below `num` were found. -/
structure Found (s : State) : Prop where
  list : Begins IsUgly s.l_ugly
  set : s.ugly = s.l_ugly.toFinset
  below : ∀ x, x ∈ s.l_ugly ↔ IsUgly x ∧ x < s.num
  count : s.count = s.l_ugly.length + 1
  pos : 1 < s.num

theorem found_init : Found init := by
  have hugly : ∀ x, x ∈ init.l_ugly ↔ IsUgly x ∧ x < init.num := fun x => by
    have hmem : x ∈ init.l_ugly ↔ 0 < x ∧ x < 6 := by
      simp only [init, List.mem_cons, List.not_mem_nil, or_false]
      omega
    rw [hmem]
    refine ⟨fun h => ⟨⟨h.1, fun p hp hdvd => ?_⟩, h.2⟩, fun h => ⟨h.1.1, h.2⟩⟩
    have hle := Nat.le_of_dvd h.1 hdvd
    have hp4 : p ≠ 4 := fun h4 => by
      rw [h4] at hp
      exact absurd hp (by decide)
    have htwo := hp.two_le
    omega
  refine ⟨⟨by decide, fun x hx => ((hugly x).1 hx).1, fun x hx y hy hle => ?_⟩, rfl, hugly, rfl, by decide⟩
  exact (hugly x).2 ⟨hx, hle.trans_lt ((hugly y).1 hy).2⟩

variable {s : State} {n : ℕ}

/-- The test of a round. -/
theorem Found.test_iff (h : Found s) :
    (QuotientIn s.ugly s.num 2 ∨ QuotientIn s.ugly s.num 3 ∨ QuotientIn s.ugly s.num 5) ↔ IsUgly s.num := by
  rw [quotientIn_iff (by decide), quotientIn_iff (by decide), quotientIn_iff (by decide), h.set]
  simp only [List.mem_toFinset, h.below]
  constructor
  · rintro (⟨u, hu, heq⟩ | ⟨u, hu, heq⟩ | ⟨u, hu, heq⟩) <;> rw [heq]
    · exact IsUgly.mul (Or.inl rfl) hu.1
    · exact IsUgly.mul (Or.inr (Or.inl rfl)) hu.1
    · exact IsUgly.mul (Or.inr (Or.inr rfl)) hu.1
  · intro hnum
    obtain ⟨d, y, rfl | rfl | rfl, hy, heq, hlt⟩ := hnum.eq_one_or.resolve_left h.pos.ne'
    · exact Or.inl ⟨y, ⟨hy, hlt⟩, heq⟩
    · exact Or.inr (Or.inl ⟨y, ⟨hy, hlt⟩, heq⟩)
    · exact Or.inr (Or.inr ⟨y, ⟨hy, hlt⟩, heq⟩)

theorem Found.lt_num (h : Found s) : ∀ x ∈ s.l_ugly, x < s.num := fun x hx => ((h.below x).1 hx).2

theorem Found.next (h : Found s) (hnum : IsUgly s.num) :
    Found ⟨insert s.num s.ugly, s.l_ugly ++ [s.num], s.num + 1, s.count + 1⟩ where
  list := h.list.concat hnum h.lt_num fun z hz hgt => by
    by_contra hlt
    exact lt_irrefl z (hgt z ((h.below z).2 ⟨hz, Nat.lt_of_not_le hlt⟩))
  set := by
    rw [h.set, List.toFinset_append]
    ext x
    simp
  below := fun x => by
    rw [List.mem_append, h.below, List.mem_singleton]
    constructor
    · rintro (⟨hx, hlt⟩ | rfl)
      · exact ⟨hx, Nat.lt_succ_of_lt hlt⟩
      · exact ⟨hnum, Nat.lt_succ_self _⟩
    · rintro ⟨hx, hlt⟩
      rcases (Nat.le_of_lt_succ hlt).lt_or_eq with hlt | rfl
      · exact Or.inl ⟨hx, hlt⟩
      · exact Or.inr rfl
  count := by simp only [h.count, List.length_append, List.length_singleton]
  pos := Nat.lt_succ_of_lt h.pos

theorem Found.skip (h : Found s) (hnum : ¬IsUgly s.num) : Found { s with num := s.num + 1 } where
  list := h.list
  set := h.set
  below := fun x => by
    rw [h.below]
    refine and_congr_right fun hx => ⟨Nat.lt_succ_of_lt, fun hlt => ?_⟩
    exact (Nat.le_of_lt_succ hlt).lt_of_ne fun heq => hnum (heq ▸ hx)
  count := h.count
  pos := Nat.lt_succ_of_lt h.pos

/-- As long as the number looked for is not found, it is still to come. -/
theorem Found.num_le (h : Found s) (hcount : s.count ≤ n) : s.num ≤ Nat.nth IsUgly (n - 1) := by
  by_contra hlt
  obtain ⟨k, hk, heq⟩ := List.getElem_of_mem
    ((h.below _).2 ⟨Nat.nth_mem_of_infinite infinite_isUgly (n - 1), Nat.lt_of_not_le hlt⟩)
  rw [h.list.getElem_eq_nth hk] at heq
  have hsame := Nat.nth_injective infinite_isUgly heq
  have hlen := h.count
  omega

/-- A round goes on to the next number, which is at most the one behind the number looked for. -/
theorem Found.round_spec (h : Found s) :
    (∃ s', round n s = .again s' ∧ Found s' ∧
      Nat.nth IsUgly (n - 1) + 1 - s'.num < Nat.nth IsUgly (n - 1) + 1 - s.num) ∨
      ∃ l, round n s = .leave l ∧ Begins IsUgly l ∧ n ≤ l.length := by
  unfold round
  split_ifs with hcount htest
  · have hle := h.num_le hcount
    exact Or.inl ⟨_, rfl, h.next (h.test_iff.1 htest), by simp only; omega⟩
  · have hle := h.num_le hcount
    exact Or.inl ⟨_, rfl, h.skip (mt h.test_iff.2 htest), by simp only; omega⟩
  · have hlen := h.count
    exact Or.inr ⟨_, rfl, h.list, by omega⟩

theorem nthUglyNumber_eq (hn : 1 ≤ n) :
    Returns (nthUglyNumber n) (some (Nat.nth IsUgly (n - 1))) := by
  have hindex : ((n : ℤ) - 1) = (n - 1 : ℕ) := by omega
  unfold nthUglyNumber
  by_cases hlt : n < init.l_ugly.length
  · simp only [if_pos hlt]
    rw [hindex, item?_natCast (by omega), found_init.list.getElem_eq_nth]
    exact Returns.pure _
  · simp only [if_neg hlt]
    obtain ⟨l_ugly, hloop, hlist, hlen⟩ := Returns.loop_of_measure (fun s => Nat.nth IsUgly (n - 1) + 1 - s.num)
      (fun s hs => hs.round_spec (n := n)) found_init
    refine hloop.bind (g := fun l _ => some (item? l ((n : ℤ) - 1))) ?_
    rw [hindex, item?_natCast (by omega), hlist.getElem_eq_nth]
    exact Returns.pure _

end Solution

/-! ## By merging -/

namespace Ugly

/-- A pointer to the number `a`, for the factor `d`: the multiples of the numbers before are not above all of the list,
and that of `a` is. -/
structure Pointer (nums : List ℕ) (d i a : ℕ) : Prop where
  item : nums[i]? = some a
  passed : ∀ j b, j < i → nums[j]? = some b → ∃ x ∈ nums, d * b ≤ x
  next : ∀ x ∈ nums, x < d * a

variable {nums : List ℕ} {d i a m : ℕ}

theorem getElem?_lt (hsorted : nums.Pairwise (· < ·)) {j b : ℕ} (ha : nums[i]? = some a) (hb : nums[j]? = some b)
    (hij : i < j) : a < b := by
  obtain ⟨hi, rfl⟩ := List.getElem?_eq_some_iff.1 ha
  obtain ⟨hj, rfl⟩ := List.getElem?_eq_some_iff.1 hb
  exact List.pairwise_iff_getElem.1 hsorted i j hi hj hij

/-- If a multiple is above all numbers of the list, the pointer has not passed its number. -/
theorem Pointer.le (h : Pointer nums d i a) (hsorted : nums.Pairwise (· < ·)) {y : ℕ} (hy : y ∈ nums)
    (hgt : ∀ x ∈ nums, x < d * y) : a ≤ y := by
  obtain ⟨j, hj⟩ := List.mem_iff_getElem?.1 hy
  rcases lt_trichotomy i j with hij | rfl | hji
  · exact (getElem?_lt hsorted h.item hj hij).le
  · exact (Option.some.inj (h.item.symm.trans hj)).le
  · obtain ⟨x, hx, hle⟩ := h.passed j y hji hj
    exact absurd (hgt x hx) hle.not_gt

/-- The pointer goes on, if its multiple is what is added. -/
theorem Pointer.move (h : Pointer nums d i a) (hd : 0 < d) (hsorted : (nums ++ [m]).Pairwise (· < ·)) (hm : m ≤ a * d) :
    ∃ a', Pointer (nums ++ [m]) d (if m = a * d then i + 1 else i) a' := by
  have hmem : m ∈ nums ++ [m] := List.mem_append_right nums (List.mem_singleton_self m)
  obtain ⟨hi, -⟩ := List.getElem?_eq_some_iff.1 h.item
  have hitem : (nums ++ [m])[i]? = some a := (List.getElem?_append_left hi).trans h.item
  have hbelow : ∀ x ∈ nums ++ [m], x ≤ m := fun x hx => by
    rcases List.mem_append.1 hx with hx | hx
    · exact ((List.pairwise_append.1 hsorted).2.2 x hx m (List.mem_singleton_self m)).le
    · exact (List.mem_singleton.1 hx).le
  split_ifs with heq
  · obtain ⟨a', ha'⟩ : ∃ a', (nums ++ [m])[i + 1]? = some a' :=
      ⟨_, List.getElem?_eq_getElem (by rw [List.length_append, List.length_singleton]; omega)⟩
    have hlt : d * a < d * a' := Nat.mul_lt_mul_of_pos_left (getElem?_lt hsorted hitem ha' (Nat.lt_succ_self i)) hd
    rw [Nat.mul_comm] at heq
    refine ⟨a', ha', fun j b hj hb => ⟨m, hmem, ?_⟩, fun x hx => ((hbelow x hx).trans heq.le).trans_lt hlt⟩
    rw [heq]
    refine Nat.mul_le_mul_left d ?_
    rcases (Nat.le_of_lt_succ hj).lt_or_eq with hj | rfl
    · exact (getElem?_lt hsorted hb hitem hj).le
    · exact (Option.some.inj (hb.symm.trans hitem)).le
  · rw [Nat.mul_comm] at hm heq
    refine ⟨a, hitem, fun j b hj hb => ?_, fun x hx => (hbelow x hx).trans_lt (hm.lt_of_ne heq)⟩
    rw [List.getElem?_append_left (hj.trans hi)] at hb
    obtain ⟨x, hx, hle⟩ := h.passed j b hj hb
    exact ⟨x, List.mem_append_left _ hx, hle⟩

/-- The list has the first ugly numbers, and the pointers know what comes next. -/
structure Merged (s : State) : Prop where
  list : Begins IsUgly s.nums
  one : 1 ∈ s.nums
  two : ∃ a, Pointer s.nums 2 s.i2 a
  three : ∃ b, Pointer s.nums 3 s.i3 b
  five : ∃ c, Pointer s.nums 5 s.i5 c

/-- No ugly number is between those of the list and a number that is not above the next multiples. -/
theorem least_of_pointers (hlist : Begins IsUgly nums) (hone : 1 ∈ nums)
    (hm : ∀ d, Factor d → ∃ i a, Pointer nums d i a ∧ m ≤ d * a) {z : ℕ} (hz : IsUgly z) (hgt : ∀ y ∈ nums, y < z) :
    m ≤ z := by
  induction z using Nat.strong_induction_on with
  | _ z ih =>
    have hne : z ≠ 1 := fun heq => lt_irrefl z (hgt z (heq ▸ hone))
    obtain ⟨d, y, hd, hy, rfl, hlt⟩ := hz.eq_one_or.resolve_left hne
    by_cases hall : ∀ w ∈ nums, w < y
    · exact (ih y hlt hy hall).trans hlt.le
    · push Not at hall
      obtain ⟨w, hw, hyw⟩ := hall
      obtain ⟨i, a, hpointer, hma⟩ := hm d hd
      have hay : a ≤ y := hpointer.le hlist.sorted (hlist.complete y hy w hw hyw) hgt
      exact hma.trans (Nat.mul_le_mul_left d hay)

theorem item?_of_getElem? (h : nums[i]? = some a) : item? nums i = some a := by
  obtain ⟨hi, rfl⟩ := List.getElem?_eq_some_iff.1 h
  exact item?_natCast hi

theorem Pointer.item?_append (h : Pointer nums d i a) (m : ℕ) : item? (nums ++ [m]) i = some a := by
  obtain ⟨hi, -⟩ := List.getElem?_eq_some_iff.1 h.item
  exact item?_of_getElem? ((List.getElem?_append_left hi).trans h.item)

/-- What is added is an ugly number above those of the list, and no other one is between. -/
theorem begins_merge {i2 i3 i5 a b c : ℕ} (hlist : Begins IsUgly nums) (hone : 1 ∈ nums) (ha : Pointer nums 2 i2 a)
    (hb : Pointer nums 3 i3 b) (hc : Pointer nums 5 i5 c) (hm : m = min (min (a * 2) (b * 3)) (c * 5)) :
    Begins IsUgly (nums ++ [m]) := by
  have hitem : ∀ {d i x}, Pointer nums d i x → IsUgly x := fun hp => hlist.sound _ (List.mem_of_getElem? hp.item)
  have hugly : IsUgly m := by
    rcases min_choice (min (a * 2) (b * 3)) (c * 5) with h | h
    · rcases min_choice (a * 2) (b * 3) with h' | h'
      · rw [hm, h, h', Nat.mul_comm]
        exact IsUgly.mul (Or.inl rfl) (hitem ha)
      · rw [hm, h, h', Nat.mul_comm]
        exact IsUgly.mul (Or.inr (Or.inl rfl)) (hitem hb)
    · rw [hm, h, Nat.mul_comm]
      exact IsUgly.mul (Or.inr (Or.inr rfl)) (hitem hc)
  have hgt : ∀ x ∈ nums, x < m := fun x hx => by
    have hxa := ha.next x hx
    have hxb := hb.next x hx
    have hxc := hc.next x hx
    omega
  have hleast : ∀ d, Factor d → ∃ i x, Pointer nums d i x ∧ m ≤ d * x := by
    rintro d (rfl | rfl | rfl)
    · exact ⟨i2, a, ha, by omega⟩
    · exact ⟨i3, b, hb, by omega⟩
    · exact ⟨i5, c, hc, by omega⟩
  exact hlist.concat hugly hgt fun z hz hgtz => least_of_pointers hlist hone hleast hz hgtz

theorem exists_round {s : State} (h : Merged s) :
    ∃ s', round s = some s' ∧ Merged s' ∧ s'.nums.length = s.nums.length + 1 := by
  obtain ⟨nums, i2, i3, i5⟩ := s
  obtain ⟨a, ha⟩ := h.two
  obtain ⟨b, hb⟩ := h.three
  obtain ⟨c, hc⟩ := h.five
  obtain ⟨m, hm⟩ : ∃ m, m = min (min (a * 2) (b * 3)) (c * 5) := ⟨_, rfl⟩
  have hlist := begins_merge h.list h.one ha hb hc hm
  obtain ⟨a', ha'⟩ := ha.move (by decide) hlist.sorted (show m ≤ a * 2 by omega)
  obtain ⟨b', hb'⟩ := hb.move (by decide) hlist.sorted (show m ≤ b * 3 by omega)
  obtain ⟨c', hc'⟩ := hc.move (by decide) hlist.sorted (show m ≤ c * 5 by omega)
  refine ⟨⟨nums ++ [m], if m = a * 2 then i2 + 1 else i2, if m = b * 3 then i3 + 1 else i3,
    if m = c * 5 then i5 + 1 else i5⟩, ?_,
    ⟨hlist, List.mem_append_left _ h.one, ⟨a', ha'⟩, ⟨b', hb'⟩, ⟨c', hc'⟩⟩, ?_⟩
  · unfold round
    simp only [item?_of_getElem? ha.item, item?_of_getElem? hb.item, item?_of_getElem? hc.item, ha.item?_append,
      hb.item?_append, hc.item?_append, Option.bind_eq_bind, Option.bind_some, ← hm]
  · simp only [List.length_append, List.length_singleton]

theorem merged_start : Merged ⟨[1], 0, 0, 0⟩ := by
  have hpointer : ∀ d, 1 < d → ∃ a, Pointer [1] d 0 a := fun d hd =>
    ⟨1, rfl, fun j b hj => absurd hj (Nat.not_lt_zero j), fun x hx => by
      rw [List.mem_singleton.1 hx]
      omega⟩
  refine ⟨⟨List.pairwise_singleton _ _, fun x hx => ?_, fun x hx y hy hle => ?_⟩, List.mem_singleton_self 1,
    hpointer 2 (by decide), hpointer 3 (by decide), hpointer 5 (by decide)⟩
  · rw [List.mem_singleton.1 hx]
    exact isUgly_one
  · rw [List.mem_singleton.1 hy] at hle
    exact List.mem_singleton.2 (Nat.le_antisymm hle hx.1)

theorem exists_nums (rounds : ℕ) :
    ∃ nums, Ugly.nums rounds = some nums ∧ Begins IsUgly nums ∧ nums.length = rounds + 1 := by
  obtain ⟨s, hfold, hs, hlen⟩ := exists_foldlM_range (f := fun s _ => round s)
    (P := fun k s => Merged s ∧ s.nums.length = k + 1) rounds (fun k _ s hs => by
      obtain ⟨s', hround, hs', hlen⟩ := exists_round hs.1
      exact ⟨s', hround, hs', by rw [hlen, hs.2]⟩) (s := ⟨[1], 0, 0, 0⟩) ⟨merged_start, rfl⟩
  refine ⟨s.nums, ?_, hs.list, hlen⟩
  unfold Ugly.nums
  rw [hfold]
  rfl

end Ugly

theorem Solution2.nthUglyNumber_eq {rounds n : ℕ} (hn : 1 ≤ n) (hrounds : n ≤ rounds + 1) :
    nthUglyNumber rounds n = some (Nat.nth IsUgly (n - 1)) := by
  obtain ⟨nums, hnums, hlist, hlen⟩ := Ugly.exists_nums rounds
  have hindex : ((n : ℤ) - 1) = (n - 1 : ℕ) := by omega
  unfold nthUglyNumber
  rw [hnums, Option.bind_eq_bind, Option.bind_some, hindex, item?_natCast (by omega), hlist.getElem_eq_nth]

/-- Both versions. -/
theorem nthUglyNumber_agree {n : ℕ} (hn : 1 ≤ n) :
    Returns (Solution.nthUglyNumber n) (some (Nat.nth IsUgly (n - 1))) ∧
      ∀ rounds, n ≤ rounds + 1 → Solution2.nthUglyNumber rounds n = some (Nat.nth IsUgly (n - 1)) :=
  ⟨Solution.nthUglyNumber_eq hn, fun _ => Solution2.nthUglyNumber_eq hn⟩

theorem nthUglyNumber_agree_ten :
    Returns (Solution.nthUglyNumber 10) (some (Nat.nth IsUgly (10 - 1))) ∧
      ∀ rounds, 10 ≤ rounds + 1 → Solution2.nthUglyNumber rounds 10 = some (Nat.nth IsUgly (10 - 1)) :=
  nthUglyNumber_agree (by decide)

end GoodGoodStudy.LeetCode.UglyNumber
