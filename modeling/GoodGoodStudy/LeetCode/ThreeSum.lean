/-
The exercise 15, three numbers with the sum zero. The list is sorted, a loop fixes the first number, and the other two
are looked for from both ends of what is behind it. Equal numbers are passed over at both ends before the sum is tested,
so that a number that is to be taken twice is lost when one of its equals is at an end and another number is at the
other: it is found only if the two ends come to it together.
-/
import GoodGoodStudy.LeetCode.FourSum

namespace GoodGoodStudy.LeetCode.ThreeSum

open GoodGoodStudy.Lib
open QuickSort (Exc item item_ok)
open FourSum (skipLeft skipRight same)

/-! ## The code -/

/-- `nums[a] + nums[b] + nums[c]` -/
def sum3 (nums : List ℤ) (a b c : ℤ) : Except Exc ℤ := do
  return (← item nums a) + (← item nums b) + (← item nums c)

/-- What follows the loops that pass over equal numbers. -/
def move (nums : List ℤ) (k : ℕ) (s i j : ℤ) (res : List (List ℤ)) :
    Except Exc (Round (ℤ × ℤ × List (List ℤ)) (List (List ℤ))) := do
  if s = 0 then
    let res := res ++ [[← item nums k, ← item nums i, ← item nums j]]
    return .again (i + 1, j - 1, res)
  else if s > 0 then return .again (i, j - 1, res)
  else return .again (i + 1, j, res)

/-- A round of the loop with `i`, `j` and `res`. -/
def round (nums : List ℤ) (k fuel : ℕ) :
    ℤ × ℤ × List (List ℤ) → ExceptT Exc Option (Round (ℤ × ℤ × List (List ℤ)) (List (List ℤ)))
  | (i, j, res) => do
    if i < j then
      let s ← sum3 nums k i j
      let i ← skipLeft nums j fuel i
      let j ← skipRight nums i fuel j
      move nums k s i j res
    else return .leave res

/-- A round of the loop over `k`. -/
def outer (nums : List ℤ) (fuel k : ℕ) (res : List (List ℤ)) :
    ExceptT Exc Option (Round (List (List ℤ)) (List (List ℤ))) := do
  if ← same nums 0 k then return .again res
  else return .again (← loopM (round nums k) fuel (k + 1, (nums.length : ℤ) - 1, res))

def threeSum (nums : List ℤ) (fuel : ℕ) : ExceptT Exc Option (List (List ℤ)) :=
  if nums.length ≤ 2 then return []
  else
    let nums := sorted nums
    forBreak (outer nums fuel) (List.range' 0 (nums.length - 1)) []

example : (threeSum [-1, 0, 1, 2, -1, -4] 10).run = some (.ok [[-1, -1, 2], [-1, 0, 1]]) := by decide

variable {nums w w' m l xs ys : List ℤ} {T a e v x y i j : ℤ} {k : ℕ}

/-! ## What the scan finds -/

/-- All elements are `v`, or its nearest ones below and above are equally far. -/
def Centred (w : List ℤ) (v : ℤ) : Prop :=
  (∀ z ∈ w, z = v) ∨ ∃ d > 0, v - d ∈ w ∧ v + d ∈ w ∧ ∀ z ∈ w, v - d < z → z < v + d → z = v

inductive Found (T : ℤ) (w : List ℤ) : List ℤ → Prop
  | two {a b : ℤ} (hsum : a + b = T) (hlt : a < b) (ha : a ∈ w) (hb : b ∈ w) : Found T w [a, b]
  | twice {v : ℤ} (hsum : v + v = T) (htwo : 2 ≤ w.count v) (hv : Centred w v) : Found T w [v, v]

theorem found_iff : Found T w l ↔ PairIn T w l ∧ ∀ v, l = [v, v] → Centred w v := by
  constructor
  · rintro (⟨hsum, hlt, ha, hb⟩ | ⟨hsum, htwo, hv⟩)
    · refine ⟨⟨_, _, rfl, hsum, Or.inl ⟨hlt, ha, hb⟩⟩, ?_⟩
      rintro v ⟨⟩
      exact absurd hlt (lt_irrefl _)
    · refine ⟨⟨_, _, rfl, hsum, Or.inr ⟨rfl, htwo⟩⟩, ?_⟩
      rintro v ⟨⟩
      exact hv
  · rintro ⟨⟨a, b, rfl, hsum, ⟨hlt, ha, hb⟩ | ⟨rfl, htwo⟩⟩, hv⟩
    · exact Found.two hsum hlt ha hb
    · exact Found.twice hsum htwo (hv a rfl)

/-- Two windows in which the scan finds the same. -/
theorem Found.imp (h : Found T w l) (hmem : ∀ a b, a + b = T → a ∈ w → b ∈ w → a ∈ w')
    (htwice : ∀ v, v + v = T → 2 ≤ w.count v → Centred w v → 2 ≤ w'.count v ∧ Centred w' v) : Found T w' l := by
  rcases h with ⟨hsum, hlt, ha, hb⟩ | ⟨hsum, htwo, hv⟩
  · exact Found.two hsum hlt (hmem _ _ hsum ha hb) (hmem _ _ ((Int.add_comm _ _).trans hsum) hb ha)
  · exact Found.twice hsum (htwice _ hsum htwo hv).1 (htwice _ hsum htwo hv).2

/-- An element without a mate, further from `v` than the nearest ones, does not matter. -/
theorem centred_narrow (hmem : ∀ z, z ∈ w' ↔ z ∈ w ∧ z ≠ e) (hmate : v + v - e ∉ w) (he : e ∈ w) (hev : e ≠ v)
    (hfar : ∀ d, v - d ∈ w → v + d ∈ w → v - d < e → e < v + d → False) (hother : ∃ z ∈ w', z ≠ v) :
    Centred w v ↔ Centred w' v := by
  constructor
  · rintro (hall | ⟨d, hd, hbelow, habove, hnone⟩)
    · exact absurd (hall e he) hev
    · have hne : v - d ≠ e ∧ v + d ≠ e := by
        constructor
        · rintro rfl
          exact hmate (by rwa [show v + v - (v - d) = v + d by omega])
        · rintro rfl
          exact hmate (by rwa [show v + v - (v + d) = v - d by omega])
      exact Or.inr ⟨d, hd, (hmem _).2 ⟨hbelow, hne.1⟩, (hmem _).2 ⟨habove, hne.2⟩,
        fun z hz => hnone z ((hmem z).1 hz).1⟩
  · rintro (hall | ⟨d, hd, hbelow, habove, hnone⟩)
    · obtain ⟨z, hz, hzv⟩ := hother
      exact absurd (hall z hz) hzv
    · have hbelow := ((hmem _).1 hbelow).1
      have habove := ((hmem _).1 habove).1
      refine Or.inr ⟨d, hd, hbelow, habove, fun z hz hlow hhigh => ?_⟩
      by_cases hze : z = e
      · exact (hfar d hbelow habove (hze ▸ hlow) (hze ▸ hhigh)).elim
      · exact hnone z ((hmem z).2 ⟨hz, hze⟩) hlow hhigh

/-- The nearest elements may be the ends, and then nothing else is between them. -/
theorem centred_between (hmem : ∀ z, z ∈ w' ↔ z ∈ w ∧ z ≠ x ∧ z ≠ y) (hw : ∀ z ∈ w, x ≤ z ∧ z ≤ y) (hx : x ∈ w)
    (hy : y ∈ w) (hlt : x < y) (hmid : x + y = v + v) : Centred w v ↔ Centred w' v := by
  constructor
  · rintro (hall | ⟨d, hd, hbelow, habove, hnone⟩)
    · have hxv := hall x hx
      omega
    · -- the nearest elements are the ends, or they are still there
      by_cases hends : v - d = x
      · refine Or.inl fun z hz => ?_
        obtain ⟨hz, hzx, hzy⟩ := (hmem z).1 hz
        have hle := hw z hz
        exact hnone z hz (by omega) (by omega)
      · have hle := hw _ hbelow
        refine Or.inr ⟨d, hd, (hmem _).2 ⟨hbelow, hends, by omega⟩, (hmem _).2 ⟨habove, by omega, by omega⟩,
          fun z hz => hnone z ((hmem z).1 hz).1⟩
  · rintro (hall | ⟨d, hd, hbelow, habove, hnone⟩)
    · refine Or.inr ⟨v - x, by omega, ?_, ?_, fun z hz hlow hhigh => hall z ((hmem z).2 ⟨hz, by omega, by omega⟩)⟩
      · rwa [show v - (v - x) = x by omega]
      · rwa [show v + (v - x) = y by omega]
    · obtain ⟨hbelow, hbx, hby⟩ := (hmem _).1 hbelow
      obtain ⟨habove, -, -⟩ := (hmem _).1 habove
      have hle := hw _ hbelow
      have hle' := hw _ habove
      exact Or.inr ⟨d, hd, hbelow, habove, fun z hz hlow hhigh =>
        hnone z ((hmem z).2 ⟨hz, by omega, by omega⟩) hlow hhigh⟩

/-- An end is not centred. -/
theorem not_centred_of_end (hend : (∀ z ∈ w, v ≤ z) ∨ ∀ z ∈ w, z ≤ v) (hother : ∃ z ∈ w, z ≠ v) : ¬Centred w v := by
  rintro (hall | ⟨d, hd, hbelow, habove, -⟩)
  · obtain ⟨z, hz, hzv⟩ := hother
    exact hzv (hall z hz)
  · rcases hend with hend | hend
    · have hle := hend _ hbelow
      omega
    · have hle := hend _ habove
      omega

/-- The sum of the ends is too small, or too great: one of the ends, `e`, is dropped with everything equal to it, and of
what is equal to the other one, `f`, only one element is left. -/
structure Narrowed (T x y : ℤ) (w : List ℤ) (e f : ℤ) (w' : List ℤ) : Prop where
  ends : e = x ∧ f = y ∧ x + y < T ∨ e = y ∧ f = x ∧ T < x + y
  mem_iff : ∀ z, z ∈ w' ↔ z ∈ w ∧ z ≠ e
  count_eq : ∀ z, z ≠ x → z ≠ y → w'.count z = w.count z
  once : w'.count f = 1

section Narrowed

variable {f : ℤ}

/-- The end that is dropped has no mate, and it is further away than all others. -/
theorem Narrowed.centred_iff (h : Narrowed (v + v) x y w e f w') (hle : ∀ z ∈ w, x ≤ z ∧ z ≤ y) (hx : x ∈ w)
    (hy : y ∈ w) (hlt : x < y) (hv : v ∈ w) (hvf : v ≠ f) : Centred w v ↔ Centred w' v := by
  have hends := h.ends
  have hz := hle v hv
  have hf : f ∈ w' := List.count_pos_iff.1 (by rw [h.once]; decide)
  refine centred_narrow h.mem_iff (fun hmate => ?_) ?_ ?_ ?_ ⟨f, hf, hvf.symm⟩
  · have hzm := hle _ hmate
    omega
  · rcases hends with ⟨rfl, -⟩ | ⟨rfl, -⟩
    · exact hx
    · exact hy
  · omega
  · intro d hbelow habove hlow hhigh
    have hzb := hle _ hbelow
    have hza := hle _ habove
    omega

theorem Narrowed.found_iff (h : Narrowed T x y w e f w') (hle : ∀ z ∈ w, x ≤ z ∧ z ≤ y) (hx : x ∈ w) (hy : y ∈ w)
    (hlt : x < y) : Found T w l ↔ Found T w' l := by
  have hends := h.ends
  constructor
  · refine fun hfound => hfound.imp (fun a b hsum ha hb => (h.mem_iff a).2 ⟨ha, ?_⟩) fun v hsum htwo hv => ?_
    · rintro rfl
      have hzb := hle b hb
      omega
    · have hvw : v ∈ w := List.count_pos_iff.1 (Nat.lt_of_lt_of_le Nat.two_pos htwo)
      -- at the other end a number is not found twice
      have hvf : v ≠ f := by
        rintro rfl
        refine not_centred_of_end ?_ ?_ hv
        · rcases hends with ⟨-, rfl, -⟩ | ⟨-, rfl, -⟩
          · exact Or.inr fun z hz => (hle z hz).2
          · exact Or.inl fun z hz => (hle z hz).1
        · by_cases hvx : v = x
          · exact ⟨y, hy, by omega⟩
          · exact ⟨x, hx, Ne.symm hvx⟩
      subst hsum
      refine ⟨?_, (h.centred_iff hle hx hy hlt hvw hvf).1 hv⟩
      rwa [h.count_eq v (by omega) (by omega)]
  · refine fun hfound => hfound.imp (fun a b _ ha _ => ((h.mem_iff a).1 ha).1) fun v hsum htwo hv => ?_
    have hvw := ((h.mem_iff v).1 (List.count_pos_iff.1 (Nat.lt_of_lt_of_le Nat.two_pos htwo))).1
    have hvf : v ≠ f := by
      rintro rfl
      rw [h.once] at htwo
      exact absurd htwo (by decide)
    subst hsum
    refine ⟨?_, (h.centred_iff hle hx hy hlt hvw hvf).2 hv⟩
    rwa [← h.count_eq v (by omega) (by omega)]

end Narrowed

theorem found_tail (hw : (x :: (m ++ [y])).Pairwise (· ≤ ·)) (hlt : x < y) (hless : x + y < T) :
    Finds (Found T) (x :: (m ++ [y])) (between x y m ++ [y]) [] := by
  have hnarrowed : Narrowed T x y (x :: (m ++ [y])) x y (between x y m ++ [y]) := by
    refine ⟨Or.inl ⟨rfl, rfl, hless⟩, fun z => ?_, fun z hzx hzy => ?_, ?_⟩
    · rw [List.mem_append, List.mem_singleton, mem_between_ends]
      constructor
      · rintro (⟨hz, hzx, -⟩ | rfl)
        · exact ⟨hz, hzx⟩
        · exact ⟨by simp, hlt.ne'⟩
      · rintro ⟨hz, hzx⟩
        by_cases hzy : z = y
        · exact Or.inr hzy
        · exact Or.inl ⟨hz, hzx, hzy⟩
    · rw [List.count_append, count_between_ends hzx hzy, List.count_singleton, if_neg (by simpa using hzy.symm),
        Nat.add_zero]
    · have hy : y ∉ between x y m := fun hy => (mem_between.1 hy).2.2 rfl
      rw [List.count_append, List.count_singleton_self, List.count_eq_zero_of_not_mem hy]
  exact Finds.nothing fun l => hnarrowed.found_iff (fun z hz => ends_le hw hz) List.mem_cons_self (by simp) hlt

theorem found_dropLast (hw : (x :: (m ++ [y])).Pairwise (· ≤ ·)) (hlt : x < y) (hgt : T < x + y) :
    Finds (Found T) (x :: (m ++ [y])) (x :: between x y m) [] := by
  have hnarrowed : Narrowed T x y (x :: (m ++ [y])) y x (x :: between x y m) := by
    refine ⟨Or.inr ⟨rfl, rfl, hgt⟩, fun z => ?_, fun z hzx hzy => ?_, ?_⟩
    · rw [List.mem_cons (a := z), mem_between_ends]
      constructor
      · rintro (rfl | ⟨hz, -, hzy⟩)
        · exact ⟨List.mem_cons_self, hlt.ne⟩
        · exact ⟨hz, hzy⟩
      · rintro ⟨hz, hzy⟩
        by_cases hzx : z = x
        · exact Or.inl hzx
        · exact Or.inr ⟨hz, hzx, hzy⟩
    · rw [List.count_cons_of_ne hzx.symm, count_between_ends hzx hzy]
    · have hx : x ∉ between x y m := fun hx => (mem_between.1 hx).2.1 rfl
      rw [List.count_cons_self, List.count_eq_zero_of_not_mem hx]
  exact Finds.nothing fun l => hnarrowed.found_iff (fun z hz => ends_le hw hz) List.mem_cons_self (by simp) hlt

/-- The sum is right: both ends are dropped. -/
theorem found_between (hw : (x :: (m ++ [y])).Pairwise (· ≤ ·)) (hlt : x < y) (hsum : x + y = T) :
    Finds (Found T) (x :: (m ++ [y])) (between x y m) [[x, y]] := by
  have hle := fun z (hz : z ∈ x :: (m ++ [y])) => ends_le hw hz
  have hx : x ∈ x :: (m ++ [y]) := List.mem_cons_self
  have hy : y ∈ x :: (m ++ [y]) := by simp
  have hcentred : ∀ v, v + v = T → (Centred (x :: (m ++ [y])) v ↔ Centred (between x y m) v) := fun v hv =>
    centred_between (fun z => mem_between_ends) hle hx hy hlt (by omega)
  have hcount : ∀ v, v + v = T → (between x y m).count v = (x :: (m ++ [y])).count v := fun v hv =>
    count_between_ends (by omega) (by omega)
  refine Finds.one (fun h => (mem_between.1 (found_iff.1 h).1.mem.1).2.1 rfl) fun l => ⟨fun h => ?_, ?_⟩
  · by_cases hl : l = [x, y]
    · exact Or.inl hl
    · refine Or.inr ?_
      cases h with
      | @two a b hab hlt' ha hb =>
        have hax : a ≠ x := by
          rintro rfl
          exact hl (by rw [show b = y by omega])
        have hay : a ≠ y ∧ b ≠ x := by
          have hza := hle a ha
          have hzb := hle b hb
          omega
        exact Found.two hab hlt' (mem_between_ends.2 ⟨ha, hax, hay.1⟩) (mem_between_ends.2 ⟨hb, hay.2, by omega⟩)
      | @twice v hab htwo hv => exact Found.twice hab (by rwa [hcount v hab]) ((hcentred v hab).1 hv)
  · rintro (rfl | h)
    · exact Found.two hsum hlt hx hy
    · refine h.imp (fun a b _ ha _ => (mem_between_ends.1 ha).1) fun v hv htwo hcv => ⟨?_, (hcentred v hv).2 hcv⟩
      rwa [← hcount v hv]

/-- All of the window is one number. -/
theorem found_equal (hw : (x :: (m ++ [y])).Pairwise (· ≤ ·)) (heq : x = y) :
    Finds (Found T) (x :: (m ++ [y])) [] (if x + y = T then [[x, y]] else []) := by
  have hall : ∀ z ∈ x :: (m ++ [y]), z = x := fun z hz => by
    have hle := ends_le hw hz
    omega
  have hnil : ∀ l, ¬Found T [] l := fun l h => absurd (found_iff.1 h).1.two_le (by decide)
  have hends : ∀ l, Found T (x :: (m ++ [y])) l → x + y = T ∧ l = [x, y] := by
    rintro l (⟨hsum, hlt, ha, hb⟩ | ⟨hsum, htwo, -⟩)
    · have hax := hall _ ha
      have hbx := hall _ hb
      omega
    · have hv := hall _ (List.count_pos_iff.1 (Nat.lt_of_lt_of_le Nat.two_pos htwo))
      subst hv
      exact ⟨by rw [← heq]; exact hsum, by rw [← heq]⟩
  split_ifs with hsum
  · refine Finds.one (hnil _) fun l => ⟨fun h => Or.inl (hends l h).2, ?_⟩
    rintro (rfl | h)
    · subst heq
      refine Found.twice hsum ?_ (Or.inl hall)
      rw [List.count_cons_self, List.count_append, List.count_singleton_self]
      exact Nat.succ_le_succ (Nat.le_add_left 1 _)
    · exact absurd h (hnil l)
  · exact Finds.nothing fun l => iff_of_false (fun h => hsum (hends l h).1) (hnil l)

/-! ## The scan -/

theorem skip_ends (h : Window nums i j (x :: (m ++ [y]))) (hw : (x :: (m ++ [y])).Pairwise (· ≤ ·)) :
    ∃ i' j', Returns (fun fuel => skipLeft nums j fuel i) (.ok i') ∧
      Returns (fun fuel => skipRight nums i' fuel j) (.ok j') ∧
      Window nums i' j' (if x = y then [x] else x :: (between x y m ++ [y])) := by
  obtain ⟨i', hi', hwindow⟩ := FourSum.skipLeft_window h
  obtain ⟨j', hj', hwindow'⟩ := FourSum.skipRight_window hwindow
  refine ⟨i', j', hi', hj', ?_⟩
  rw [trimLeft_ends hw] at hwindow'
  split_ifs at hwindow' ⊢ with hxy
  · exact hwindow'
  · have hsorted : (x :: m.filter (· ≠ x) ++ [y]).Pairwise (· ≤ ·) :=
      hw.sublist ((List.filter_sublist.append_right [y]).cons_cons x)
    rw [← List.cons_append, trimRight_concat hsorted, List.filter_cons_of_pos (by simpa using hxy)] at hwindow'
    exact hwindow'

theorem move_eq {s : ℤ} (res : List (List ℤ)) (ha : item nums k = .ok a) (hx : item nums i = .ok x)
    (hy : item nums j = .ok y) : move nums k s i j res = .ok (
      if s = 0 then .again (i + 1, j - 1, res ++ [[a, x, y]])
      else if s > 0 then .again (i, j - 1, res) else .again (i + 1, j, res)) := by
  simp only [move, ha, hx, hy]
  split_ifs <;> rfl

theorem round_short {res : List (List ℤ)} (h : Window nums i j w) (hw : w.length < 2) :
    Returns (fun fuel => round nums k fuel (i, j, res)) (.ok (.leave res)) := by
  simp only [round, if_neg fun hlt => absurd (h.lt_iff.1 hlt) (not_le.2 hw)]
  exact Returns.done _

theorem round_move {i' j' : ℤ} {r : Round (ℤ × ℤ × List (List ℤ)) (List (List ℤ))} {res : List (List ℤ)} (hij : i < j)
    (ha : item nums k = .ok a) (hx : item nums i = .ok x) (hy : item nums j = .ok y)
    (hi : Returns (fun fuel => skipLeft nums j fuel i) (.ok i'))
    (hj : Returns (fun fuel => skipRight nums i' fuel j) (.ok j')) (hmove : move nums k (a + x + y) i' j' res = .ok r) :
    Returns (fun fuel => round nums k fuel (i, j, res)) (.ok r) := by
  have hround : ∀ fuel, round nums k fuel (i, j, res) = (do
      let i ← skipLeft nums j fuel i
      let j ← skipRight nums i fuel j
      move nums k (a + x + y) i j res) := fun fuel => by
    simp only [round, if_pos hij, sum3, ha, hx, hy]
    rfl
  simp only [hround]
  exact hi.bind_ok (hj.bind_ok (Returns.lift hmove))

/-- A round over different ends. -/
theorem round_finds_of_lt {res : List (List ℤ)} (ha : item nums k = .ok a) (h : Window nums i j (x :: (m ++ [y])))
    (hw : (x :: (m ++ [y])).Pairwise (· ≤ ·)) (hlt : x < y) :
    ∃ i' j' w' new, Returns (fun fuel => round nums k fuel (i, j, res))
      (.ok (.again (i', j', res ++ new.map (a :: ·)))) ∧ Window nums i' j' w' ∧ w'.Sublist (x :: (m ++ [y])) ∧
        w'.length < (x :: (m ++ [y])).length ∧ Finds (Found (-a)) (x :: (m ++ [y])) w' new := by
  obtain ⟨i', j', hi', hj', hwindow⟩ := skip_ends h hw
  rw [if_neg hlt.ne] at hwindow
  have hlen := (between_sublist x y m).length_le
  have hround := round_move (h.lt_iff.2 (by simp)) ha (item_ok h.first)
    (item_ok (Window.last (w := x :: m) h)) hi' hj' (move_eq res ha (item_ok hwindow.first)
      (item_ok (Window.last (w := x :: between x y m) hwindow)))
  split_ifs at hround with hzero hpos
  · exact ⟨i' + 1, j' - 1, between x y m, [[x, y]], hround, hwindow.tail.dropLast, between_sublist_ends x y m,
      length_between_lt x y m, found_between hw hlt (by omega)⟩
  · refine ⟨i', j' - 1, x :: between x y m, [], ?_, Window.dropLast (w := x :: between x y m) hwindow, ?_, ?_,
      found_dropLast hw hlt (by omega)⟩
    · rwa [List.map_nil, List.append_nil]
    · exact ((between_sublist x y m).trans (List.sublist_append_left m [y])).cons_cons x
    · rw [List.length_cons, List.length_cons, List.length_append, List.length_singleton]
      omega
  · refine ⟨i' + 1, j', between x y m ++ [y], [], ?_, hwindow.tail, ?_, ?_, found_tail hw hlt (by omega)⟩
    · rwa [List.map_nil, List.append_nil]
    · exact ((between_sublist x y m).append_right [y]).cons x
    · rw [List.length_cons, List.length_append, List.length_append, List.length_singleton]
      omega

/-- A round over a window of one number ends the scan. -/
theorem round_finds_of_eq {res : List (List ℤ)} (ha : item nums k = .ok a) (h : Window nums i j (x :: (m ++ [x])))
    (hw : (x :: (m ++ [x])).Pairwise (· ≤ ·)) :
    ∃ i' j' new, Returns (fun fuel => round nums k fuel (i, j, res))
      (.ok (.again (i', j', res ++ new.map (a :: ·)))) ∧ Window nums i' j' [] ∧
        Finds (Found (-a)) (x :: (m ++ [x])) [] new := by
  obtain ⟨i', j', hi', hj', hwindow⟩ := skip_ends h hw
  rw [if_pos rfl] at hwindow
  have hround := round_move (h.lt_iff.2 (by simp)) ha (item_ok h.first)
    (item_ok (Window.last (w := x :: m) h)) hi' hj' (move_eq res ha (item_ok hwindow.first)
      (item_ok (Window.last (w := []) hwindow)))
  have hfinds := found_equal (T := -a) hw rfl
  have hlt := hwindow.tail.lt_of_nil
  by_cases hzero : a + x + x = 0
  · rw [if_pos hzero] at hround
    rw [if_pos (by omega)] at hfinds
    exact ⟨i' + 1, j' - 1, [[x, x]], hround, Window.nil_of_lt (by omega), hfinds⟩
  · rw [if_neg hzero] at hround
    rw [if_neg (by omega)] at hfinds
    split_ifs at hround
    · exact ⟨i', j' - 1, [], by rwa [List.map_nil, List.append_nil], Window.nil_of_lt (by omega), hfinds⟩
    · exact ⟨i' + 1, j', [], by rwa [List.map_nil, List.append_nil], Window.nil_of_lt hlt, hfinds⟩

theorem scan_enumerates (res : List (List ℤ)) (ha : item nums k = .ok a) (hnums : nums.Pairwise (· ≤ ·))
    (hk : k + 1 ≤ nums.length) :
    ∃ news, Returns (fun fuel => loopM (round nums k) fuel ((k : ℤ) + 1, (nums.length : ℤ) - 1, res))
        (.ok (res ++ news.map (a :: ·))) ∧ Enumerates news {l | Found (-a) (nums.drop (k + 1)) l} := by
  refine loopM_finds (P := Found (-a)) (a :: ·) (fun w i j res h hlt => ?_) (fun w i j res h htwo hw => ?_) res
    (Window.drop hk) (hnums.sublist (List.drop_sublist _ nums))
  · exact ⟨round_short h hlt, fun l hl => absurd (found_iff.1 hl).1.two_le (not_le.2 hlt)⟩
  · obtain ⟨x, m, y, rfl⟩ := Window.exists_ends htwo
    rcases (ends_le hw (z := y) (by simp)).1.lt_or_eq with hlt | rfl
    · exact round_finds_of_lt ha h hw hlt
    · obtain ⟨i', j', new, hround, hwindow, hfinds⟩ := round_finds_of_eq ha h hw
      exact ⟨i', j', [], new, hround, hwindow, List.nil_sublist _, Nat.succ_pos _, hfinds⟩

/-! ## The first number -/

/-- The numbers from `a` on, without one `a`. -/
def behind (nums : List ℤ) (a : ℤ) : List ℤ := (nums.filter (a ≤ ·)).erase a

theorem behind_perm (h : xs.Perm ys) (a : ℤ) : (behind xs a).Perm (behind ys a) := (h.filter _).erase a

theorem behind_append {pre post : List ℤ} (h : (pre ++ a :: post).Pairwise (· ≤ ·)) (ha : a ∉ pre) :
    behind (pre ++ a :: post) a = post := by
  obtain ⟨-, hpost, hpre⟩ := List.pairwise_append.1 h
  have hnil : pre.filter (a ≤ ·) = [] := by
    refine List.filter_eq_nil_iff.2 fun z hz hle => ha ?_
    rwa [← le_antisymm (hpre z hz a List.mem_cons_self) (of_decide_eq_true hle)]
  have hall : (a :: post).filter (a ≤ ·) = a :: post := by
    refine List.filter_eq_self.2 fun z hz => decide_eq_true ?_
    rcases List.mem_cons.1 hz with rfl | hz
    · exact le_rfl
    · exact (List.pairwise_cons.1 hpost).1 z hz
  rw [behind, List.filter_append, hnil, hall, List.nil_append, List.erase_cons_head]

theorem behind_eq_drop (hnums : nums.Pairwise (· ≤ ·)) (hk : k < nums.length) (hnew : nums[k] ∉ nums.take k) :
    behind nums nums[k] = nums.drop (k + 1) := by
  have hsplit : nums.take k ++ nums[k] :: nums.drop (k + 1) = nums := by
    rw [← List.drop_eq_getElem_cons hk, List.take_append_drop]
  have hbehind := behind_append (a := nums[k]) (by rwa [hsplit]) hnew
  rwa [hsplit] at hbehind

theorem length_behind_lt (ha : a ∈ nums) : (behind nums a).length < nums.length := by
  have hmem : a ∈ nums.filter (a ≤ ·) := List.mem_filter.2 ⟨ha, decide_eq_true le_rfl⟩
  have hpos := List.length_pos_of_mem hmem
  have hle := nums.length_filter_le (a ≤ ·)
  rw [behind, List.length_erase_of_mem hmem]
  omega

theorem cons_mem_selections_behind_iff (hnums : nums.Pairwise (· ≤ ·)) (ha : a ∈ nums) :
    a :: l ∈ Selections nums 3 0 ↔ PairIn (-a) (behind nums a) l := by
  obtain ⟨pre, post, rfl, hpre⟩ := List.eq_append_cons_of_mem ha
  have hpost := hnums.sublist (List.sublist_append_right pre (a :: post))
  rw [cons_mem_selections_append_iff hpre, behind_append hnums hpre, zero_sub,
    mem_selections_two_iff (List.pairwise_cons.1 hpost).2]

theorem outer_visits (res : List (List ℤ)) (hnums : nums.Pairwise (· ≤ ·)) (hk : k < nums.length) :
    ∃ r, Returns (fun fuel => outer nums fuel k res) (.ok r) ∧
      Visits nums (fun a => {l | Found (-a) (behind nums a) l}) id k hk res r := by
  obtain ⟨news, hnews, henum⟩ := scan_enumerates res (item_ok (item?_natCast hk)) hnums hk
  have houter : ∀ fuel, outer nums fuel k res =
      if decide (nums[k] ∈ nums.take k) then return .again res
      else do return .again (← loopM (round nums k) fuel ((k : ℤ) + 1, (nums.length : ℤ) - 1, res)) := fun fuel => by
    simp only [outer, FourSum.same_zero_eq hnums hk]
    rfl
  simp only [houter, decide_eq_true_eq]
  split_ifs with hold
  · exact ⟨_, Returns.done _, Visits.skip (Or.inl hold)⟩
  · refine ⟨_, hnews.bind_ok (Returns.done _), Visits.next hold ?_⟩
    rwa [behind_eq_drop hnums hk hold]

/-! ## The result -/

theorem threeSum_enumerates (h : 2 < nums.length) : ∃ res, Returns (threeSum nums) (.ok res) ∧
    Enumerates res (Firsts (sorted nums) (fun a => {l | Found (-a) (behind (sorted nums) a) l}) (nums.length - 1)) := by
  obtain ⟨news, hnews, henum⟩ := forBreak_firsts (sorted nums) 0 ((sorted nums).length - 1) id (Nat.sub_le _ _)
    (fun k hk res => by
      rw [Nat.zero_add]
      exact outer_visits res (sorted_pairwise nums) _) []
  have hres : threeSum nums = fun fuel => forBreak (outer (sorted nums) fuel)
      (List.range' 0 ((sorted nums).length - 1)) [] := funext fun _ => if_neg (not_le.2 h)
  refine ⟨news, ?_, ?_⟩
  · rw [hres]
    rwa [List.map_id] at hnews
  · rwa [length_sorted] at henum

/-- The result has nothing but selections; what may be missing is a number taken twice. -/
theorem selections_subset_iff (hnums : nums.Pairwise (· ≤ ·)) (h : 2 < nums.length) :
    Selections nums 3 0 ⊆ Firsts nums (fun a => {l | Found (-a) (behind nums a) l}) (nums.length - 1) ↔
      ∀ v, -(v + v) ∈ nums → 2 ≤ (behind nums (-(v + v))).count v → Centred (behind nums (-(v + v))) v := by
  constructor
  · intro hsub v hv htwo
    have hpair : PairIn (- -(v + v)) (behind nums (-(v + v))) [v, v] := pairIn_twice_iff.2 ⟨(neg_neg _).symm, htwo⟩
    obtain ⟨a, -, l, hl, heq⟩ := hsub ((cons_mem_selections_behind_iff hnums hv).2 hpair)
    obtain ⟨rfl, rfl⟩ := List.cons_eq_cons.1 heq
    exact (found_iff.1 hl).2 v rfl
  · intro hcentred l hl
    rw [selections_eq_firsts (k := nums.length - 2) (by omega)] at hl
    obtain ⟨a, ha, l, hl, rfl⟩ := hl
    have hpair := (cons_mem_selections_behind_iff hnums (List.mem_of_mem_take ha)).1 hl
    refine ⟨a, List.take_subset_take_left nums (by omega) ha, l, found_iff.2 ⟨hpair, ?_⟩, rfl⟩
    rintro v rfl
    obtain ⟨hsum, htwo⟩ := pairIn_twice_iff.1 hpair
    obtain rfl : a = -(v + v) := by omega
    exact hcentred v (List.mem_of_mem_take ha) htwo

theorem firsts_subset_selections (hnums : nums.Pairwise (· ≤ ·)) :
    Firsts nums (fun a => {l | Found (-a) (behind nums a) l}) k ⊆ Selections nums 3 0 := by
  rintro _ ⟨a, ha, l, hl, rfl⟩
  exact (cons_mem_selections_behind_iff hnums (List.mem_of_mem_take ha)).2 (found_iff.1 hl).1

theorem centred_perm (h : w.Perm w') : Centred w v ↔ Centred w' v := by
  simp only [Centred, h.mem_iff]

/-- The result has every selection of three numbers with the sum zero once if and only if each number that is to be
taken twice is centred in what is behind the third one. -/
theorem threeSum_iff (nums : List ℤ) : (∃ res, Returns (threeSum nums) (.ok res) ∧ Selects nums 3 0 res) ↔
    ∀ v, -(v + v) ∈ nums → 2 ≤ (behind nums (-(v + v))).count v → Centred (behind nums (-(v + v))) v := by
  have hperm := sorted_perm nums
  have hsorted := sorted_pairwise nums
  rcases Nat.lt_or_ge 2 nums.length with hlt | hle
  · obtain ⟨res, hres, henum⟩ := threeSum_enumerates hlt
    have hselects : Selects nums 3 0 res ↔ _ := selects_iff hperm hsorted henum (firsts_subset_selections hsorted)
    rw [← length_sorted nums, selections_subset_iff hsorted (by rwa [length_sorted])] at hselects
    simp only [hperm.mem_iff, (behind_perm hperm _).count_eq, centred_perm (behind_perm hperm _)] at hselects
    rw [← hselects]
    constructor
    · rintro ⟨res', hres', hselects'⟩
      rwa [← Except.ok.inj (hres'.unique hres)]
    · exact fun h => ⟨res, hres, h⟩
  · have hres : threeSum nums = fun _ => pure [] := funext fun _ => if_pos hle
    refine iff_of_true ⟨[], ?_, selects_of_short (Nat.lt_succ_of_le hle)⟩ fun v hv htwo => ?_
    · rw [hres]
      exact Returns.done _
    · have hlen := (length_behind_lt hv).trans_le hle
      have hcount := htwo.trans List.count_le_length
      omega

/-- Two zeros are behind the first one, but the greater number is not centred. -/
theorem threeSum_zeros : ¬∃ res, Returns (threeSum [0, 0, 0, 1]) (.ok res) ∧ Selects [0, 0, 0, 1] 3 0 res := by
  rintro ⟨res, ⟨n, hn⟩, -, hmem⟩
  have hnil : threeSum [0, 0, 0, 1] (n + 10) = some (.ok []) := rfl
  obtain rfl : res = [] := by
    have heq := (hn (n + 10) (Nat.le_add_right n 10)).symm.trans hnil
    exact Except.ok.inj (Option.some.inj heq)
  have hzeros := (hmem ([0, 0, 0] : List ℤ)).2 (by decide)
  exact absurd hzeros List.not_mem_nil

end GoodGoodStudy.LeetCode.ThreeSum
