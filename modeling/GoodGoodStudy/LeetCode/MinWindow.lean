/-
The exercise 76, the shortest part of a string with all letters of another one. The window slides as in the exercises
438 and 567; whenever it has all letters it is compared with the shortest one so far, and its first letter is let go.
A part that begins where the window has begun is not shorter than what was found when the window left that place.
-/
import GoodGoodStudy.LeetCode.FindAnagrams
import GoodGoodStudy.Lib.Sequence

namespace GoodGoodStudy.LeetCode.MinWindow

open GoodGoodStudy.Lib
open FindAnagrams (Exc State Slides)

variable {α : Type} [DecidableEq α]

/-! ## The code -/

/-- `start` and `length`; `none` is `math.inf`. -/
abbrev Best := ℕ × Option ℤ

/-- The comparison with the shortest window so far. -/
def record (st : State α Best) : Best :=
  if st.res.2.all ((st.right : ℤ) - st.left < ·) then (st.left, some ((st.right : ℤ) - st.left)) else st.res

/-- A round of the inner loop. -/
def innerRound (s : List α) (need : Dict α ℤ) (st : State α Best) : Except Exc (Round (State α Best) (State α Best)) :=
  if st.valid = need.items.length then (FindAnagrams.shrink s need { st with res := record st }).map .again
  else .ok (.leave st)

def inner (s : List α) (need : Dict α ℤ) : ℕ → State α Best → ExceptT Exc Option (State α Best) :=
  loopM fun _ st => liftM (innerRound s need st)

/-- `"" if length == math.inf else s[start: start + length]` -/
def result (s : List α) : Best → List α
  | (_, none) => []
  | (start, some length) => slice s start (start + length)

/-- A round of the outer loop. -/
def outerRound (s : List α) (need : Dict α ℤ) (fuel : ℕ) (st : State α Best) :
    ExceptT Exc Option (Round (State α Best) (List α)) :=
  if st.right < s.length then do
    let st ← FindAnagrams.extend s need st
    let st ← inner s need fuel st
    pure (.again st)
  else pure (.leave (result s st.res))

def minWindow (s t : List α) (fuel : ℕ) : ExceptT Exc Option (List α) :=
  loopM (outerRound s (Dict.tally t)) fuel ⟨Dict.empty, 0, 0, 0, (0, none)⟩

variable {s t v : List α} {st : State α Best} {best : Best} {i j : ℕ} {k l : ℤ}

/-- Every letter of `t` occurs as often in `v`. -/
def Covers (t v : List α) : Prop := ∀ c ∈ t, t.count c ≤ v.count c

theorem covers_iff : Covers t v ↔ t.Subperm v := by
  rw [List.subperm_iff_count]
  refine ⟨fun h c => ?_, fun h c _ => h c⟩
  by_cases hc : c ∈ t
  · exact h c hc
  · rw [List.count_eq_zero_of_not_mem hc]
    exact Nat.zero_le _

/-! ## The shortest window so far -/

/-- A window of this length or a shorter one has been found. -/
def AtMost (best : Best) (k : ℤ) : Prop := ∃ length ∈ best.2, length ≤ k

theorem AtMost.mono (h : AtMost best k) (hkl : k ≤ l) : AtMost best l := by
  obtain ⟨length, hmem, hle⟩ := h
  exact ⟨length, hmem, hle.trans hkl⟩

omit [DecidableEq α] in
theorem atMost_record (st : State α Best) : AtMost (record st) ((st.right : ℤ) - st.left) := by
  unfold record
  split_ifs with hall
  · exact ⟨_, rfl, le_rfl⟩
  · cases hlength : st.res.2 with
    | none => simp [hlength] at hall
    | some length => exact ⟨length, hlength, by simpa [hlength] using hall⟩

omit [DecidableEq α] in
theorem AtMost.record (h : AtMost st.res k) : AtMost (record st) k := by
  obtain ⟨length, hmem, hle⟩ := h
  have hmem : st.res.2 = some length := hmem
  unfold MinWindow.record
  split_ifs with hall
  · rw [hmem] at hall
    exact ⟨_, rfl, (le_of_lt (by simpa using hall)).trans hle⟩
  · exact ⟨length, hmem, hle⟩

/-- What has been found has all letters. -/
def Found (s t : List α) (best : Best) : Prop :=
  ∀ length ∈ best.2, ∃ n : ℕ, length = n ∧ best.1 + n ≤ s.length ∧ t.Subperm (window s best.1 (best.1 + n))

theorem Found.record (h : Found s t st.res) (hslides : Slides s t st) (hsub : t.Subperm (window s st.left st.right)) :
    Found s t (record st) := by
  unfold MinWindow.record
  split_ifs with hall
  · rintro _ ⟨⟩
    have hle := hslides.left_le
    refine ⟨st.right - st.left, (Int.ofNat_sub hle).symm, ?_, ?_⟩
    · rw [Nat.add_sub_cancel' hle]
      exact hslides.right_le
    · rwa [Nat.add_sub_cancel' hle]
  · exact h

/-! ## The loops -/

/-- No part up to `j` with all letters is shorter than what has been found. -/
def Shortest (s t : List α) (j : ℕ) (best : Best) : Prop :=
  ∀ i j', i ≤ j' → j' ≤ j → t.Subperm (window s i j') → AtMost best (j' - i)

/-- The variables of the loops: the parts that begin in front of the window are not shorter than what has been found. -/
structure Searches (s t : List α) (st : State α Best) : Prop extends Slides s t st where
  found : Found s t st.res
  behind : ∀ i < st.left, AtMost st.res ((st.right : ℤ) - i)

/-- The window has been shortened until it does not have all letters. -/
theorem Searches.shortest (h : Searches s t st) (hbefore : ∀ j < st.right, Shortest s t j st.res)
    (hnot : ¬ t.Subperm (window s st.left st.right)) : Shortest s t st.right st.res := by
  intro i j hij hj hsub
  rcases Nat.lt_or_ge j st.right with hlt | hge
  · exact hbefore j hlt i j hij le_rfl hsub
  · obtain rfl : j = st.right := Nat.le_antisymm hj hge
    rcases Nat.lt_or_ge i st.left with hi | hi
    · exact h.behind i hi
    · exact absurd (hsub.trans (window_sublist hi).subperm) hnot

/-- The window is recorded and lets go of a letter. -/
theorem Searches.round (h : Searches s t st) (hlt : st.left < st.right) (hsub : t.Subperm (window s st.left st.right)) :
    ∃ st', innerRound s (Dict.tally t) st = .ok (.again st') ∧ Searches s t st' ∧ st'.left = st.left + 1 ∧
      st'.right = st.right ∧ st'.res = record st := by
  have hslides : Slides s t { st with res := record st } := ⟨h.left_le, h.right_le, h.counts, h.valid⟩
  obtain ⟨st', hshrink, hst', hleft, hright, hres⟩ := hslides.shrink hlt
  refine ⟨st', ?_, ⟨hst', hres ▸ h.found.record h.toSlides hsub, fun i hi => ?_⟩, hleft, hright, hres⟩
  · rw [innerRound, if_pos (h.valid_eq_iff.2 hsub), hshrink]
    rfl
  · rw [hres, hright]
    rw [hleft] at hi
    rcases Nat.lt_succ_iff_lt_or_eq.1 hi with hi | rfl
    · exact (h.behind i hi).record
    · exact atMost_record st

theorem inner_returns (ht : t ≠ []) (st : State α Best) (h : Searches s t st)
    (hbefore : ∀ j < st.right, Shortest s t j st.res) :
    ∃ st', Returns (fun fuel => inner s (Dict.tally t) fuel st) (.ok st') ∧ Searches s t st' ∧
      st'.right = st.right ∧ Shortest s t st.right st'.res := by
  have hpos := List.length_pos_iff.2 ht
  -- every round makes the window shorter, and no window without letters has all of `t`
  induction hn : st.right - st.left using Nat.strong_induction_on generalizing st with
  | _ n ih =>
    by_cases hsub : t.Subperm (window s st.left st.right)
    · have hlen := hsub.length_le
      rw [length_window h.right_le] at hlen
      obtain ⟨st₁, hround, h₁, hleft, hright, hres⟩ := h.round (by omega) hsub
      have hbefore₁ : ∀ j < st₁.right, Shortest s t j st₁.res := by
        intro j hj i j' hij hj' hsub'
        rw [hres]
        exact (hbefore j (hright ▸ hj) i j' hij hj' hsub').record
      obtain ⟨st', hst', h', hright', hshortest⟩ := ih (st₁.right - st₁.left) (by omega) st₁ h₁ hbefore₁ rfl
      rw [hright] at hright' hshortest
      exact ⟨st', Returns.loopM_again (Returns.lift hround) hst', h', hright', hshortest⟩
    · have hround : innerRound s (Dict.tally t) st = .ok (.leave st) := by
        rw [innerRound, if_neg (mt h.valid_eq_iff.1 hsub)]
      exact ⟨st, Returns.loopM_leave (Returns.lift hround), h, rfl, h.shortest hbefore hsub⟩

/-- The window takes in a letter. -/
theorem Searches.extend (h : Searches s t st) (hlt : st.right < s.length) :
    ∃ st', FindAnagrams.extend s (Dict.tally t) st = .ok st' ∧ Searches s t st' ∧ st'.right = st.right + 1 ∧
      st'.res = st.res := by
  obtain ⟨st', hextend, hst', hleft, hright, hres⟩ := h.toSlides.extend hlt
  refine ⟨st', hextend, ⟨hst', hres ▸ h.found, fun i hi => ?_⟩, hright, hres⟩
  rw [hres, hright]
  exact (h.behind i (hleft ▸ hi)).mono (by omega)

theorem outer_returns (ht : t ≠ []) (n : ℕ) : ∀ st : State α Best, Searches s t st → Shortest s t st.right st.res →
    s.length - st.right = n →
    ∃ best, Returns (fun fuel => loopM (outerRound s (Dict.tally t)) fuel st) (.ok (result s best)) ∧ Found s t best ∧
      Shortest s t s.length best := by
  induction n with
  | zero =>
    intro st h hshortest hn
    have hright : st.right = s.length := Nat.le_antisymm h.right_le (Nat.le_of_sub_eq_zero hn)
    have hround : Returns (fun fuel => outerRound s (Dict.tally t) fuel st) (.ok (.leave (result s st.res))) := by
      simp only [outerRound, if_neg (Nat.not_lt.2 hright.ge)]
      exact Returns.done _
    exact ⟨st.res, Returns.loopM_leave hround, h.found, hright ▸ hshortest⟩
  | succ n ih =>
    intro st h hshortest hn
    have hlt : st.right < s.length := by omega
    obtain ⟨st₁, hextend, h₁, hright, hres⟩ := h.extend hlt
    have hbefore : ∀ j < st₁.right, Shortest s t j st₁.res := fun j hj i j' hij hj' =>
      hres ▸ hshortest i j' hij (by omega)
    obtain ⟨st₂, hinner, h₂, hright₂, hshortest₂⟩ := inner_returns ht st₁ h₁ hbefore
    have hround : Returns (fun fuel => outerRound s (Dict.tally t) fuel st) (.ok (.again st₂)) := by
      simp only [outerRound, if_pos hlt]
      exact Returns.bind_ok (Returns.lift hextend) (Returns.bind_ok hinner (Returns.done _))
    obtain ⟨best, hreturns, hbest⟩ := ih st₂ h₂ (hright₂ ▸ hshortest₂) (by omega)
    exact ⟨best, Returns.loopM_again hround hreturns, hbest⟩

/-! ## The result -/

/-- What is returned is a shortest part with all letters, if there is one. -/
theorem result_shortest (ht : t ≠ []) (hfound : Found s t best) (hshortest : Shortest s t s.length best) :
    (result s best = [] ↔ ∀ v, v <:+: s → ¬ Covers t v) ∧
      (result s best ≠ [] → result s best <:+: s ∧ Covers t (result s best) ∧
        ∀ v, v <:+: s → Covers t v → (result s best).length ≤ v.length) := by
  have hatMost : ∀ v, v <:+: s → Covers t v → AtMost best v.length := by
    intro v hv hcovers
    obtain ⟨i, j, hij, hj, rfl⟩ := exists_window hv
    rw [length_window hj, Int.ofNat_sub hij]
    exact hshortest i j hij hj (covers_iff.1 hcovers)
  obtain ⟨start, _ | length⟩ := best
  · have hnone : ∀ v, v <:+: s → ¬ Covers t v := by
      intro v hv hcovers
      obtain ⟨length, hmem, -⟩ := hatMost v hv hcovers
      cases hmem
    exact ⟨⟨fun _ => hnone, fun _ => rfl⟩, fun hne => absurd rfl hne⟩
  · obtain ⟨n, rfl, hn, hsub⟩ := hfound _ rfl
    have hresult : result s (start, some (n : ℤ)) = window s start (start + n) := by
      rw [result, ← Int.natCast_add, slice_natCast]
      rfl
    have hcovers : Covers t (result s (start, some (n : ℤ))) := hresult ▸ covers_iff.2 hsub
    have hpart : result s (start, some (n : ℤ)) <:+: s := hresult ▸ window_infix s _ _
    refine ⟨⟨fun hnil => ?_, fun hnone => absurd hcovers (hnone _ hpart)⟩,
      fun _ => ⟨hpart, hcovers, fun v hv hcovers' => ?_⟩⟩
    · rw [hnil, covers_iff] at hcovers
      exact absurd hcovers (not_subperm_nil ht)
    · obtain ⟨_, ⟨⟩, hle⟩ := hatMost v hv hcovers'
      rw [hresult, length_window hn, Nat.add_sub_cancel_left]
      exact Int.ofNat_le.1 hle

/-- The function returns a shortest part of `s` with all letters of `t`, and the empty string if there is none. -/
theorem minWindow_shortest (s t : List α) (ht : t ≠ []) : ∃ w, Returns (minWindow s t) (.ok w) ∧
    (w = [] ↔ ∀ v, v <:+: s → ¬ Covers t v) ∧
    (w ≠ [] → w <:+: s ∧ Covers t w ∧ ∀ v, v <:+: s → Covers t v → w.length ≤ v.length) := by
  have hstart : Searches s t (⟨Dict.empty, 0, 0, 0, (0, none)⟩ : State α Best) :=
    { FindAnagrams.slides_start s t ((0, none) : Best) with
      found := fun _ hmem => nomatch hmem
      behind := fun i hi => absurd hi (Nat.not_lt_zero i) }
  have hempty : Shortest s t 0 (0, none) := by
    intro i j hij hj hsub
    have hlen := hsub.length_le
    have hpos := List.length_pos_iff.2 ht
    rw [length_window (hj.trans (Nat.zero_le _))] at hlen
    omega
  obtain ⟨best, hreturns, hfound, hshortest⟩ := outer_returns ht _ _ hstart hempty rfl
  exact ⟨result s best, hreturns, result_shortest ht hfound hshortest⟩

theorem minWindow_shortest_ba : ∃ w, Returns (minWindow ['a', 'b', 'b', 'a'] ['b', 'a']) (.ok w) ∧
    (w = [] ↔ ∀ v, v <:+: ['a', 'b', 'b', 'a'] → ¬ Covers ['b', 'a'] v) ∧
    (w ≠ [] → w <:+: ['a', 'b', 'b', 'a'] ∧ Covers ['b', 'a'] w ∧
      ∀ v, v <:+: ['a', 'b', 'b', 'a'] → Covers ['b', 'a'] v → w.length ≤ v.length) :=
  minWindow_shortest ['a', 'b', 'b', 'a'] ['b', 'a'] (by decide)

end GoodGoodStudy.LeetCode.MinWindow
