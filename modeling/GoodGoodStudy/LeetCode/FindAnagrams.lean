/-
The functions of the exercises 438 and 567 that look for permutations of a string in another one. Two of them slide a
window over the string and count the letters that occur often enough in it; one strikes the letters off for every start
anew, and one counts the letters of every slice.
-/
import GoodGoodStudy.Lib.Counter

namespace GoodGoodStudy.LeetCode.FindAnagrams

open GoodGoodStudy.Lib

inductive Exc
  | keyError
  | indexError
  deriving DecidableEq, Repr

variable {α : Type} [DecidableEq α]

/-! ## The sliding window -/

/-- The variables of the loops; `res` is what was found so far. -/
structure State (α σ : Type) where
  window : Dict α ℤ
  left : ℕ
  right : ℕ
  valid : ℤ
  res : σ

/-- `s[i]` -/
def letter (s : List α) (i : ℕ) : Except Exc α :=
  match s[i]? with
  | some c => .ok c
  | none => .error .indexError

section Slide

variable {σ ρ : Type}

/-- The window takes in the letter `c`. -/
def State.enter (need : Dict α ℤ) (st : State α σ) (c : α) : State α σ :=
  let st := { st with right := st.right + 1 }
  if need.contains c then
    let window := st.window.incr c
    { st with window := window, valid := if window.get? c = need.get? c then st.valid + 1 else st.valid }
  else st

/-- The window lets go of the letter `d`. -/
def State.letGo (need : Dict α ℤ) (st : State α σ) (d : α) : Except Exc (State α σ) :=
  let st := { st with left := st.left + 1 }
  if need.contains d then
    match st.window.get? d with
    | some v =>
      let valid := if some v = need.get? d then st.valid - 1 else st.valid
      .ok { st with window := st.window.set d (v - 1), valid := valid }
    | none => .error .keyError
  else .ok st

variable (found : σ → ℕ → Round σ ρ) (final : σ → ρ) (s p : List α)

/-- The first half of a round of the outer loop. -/
def extend (need : Dict α ℤ) (st : State α σ) : Except Exc (State α σ) := (letter s st.right).map (st.enter need)

/-- The second half of a round of the inner loop. -/
def shrink (need : Dict α ℤ) (st : State α σ) : Except Exc (State α σ) := (letter s st.left).bind (st.letGo need)

/-- A round of the inner loop. It leaves with a result of the function, or with the variables. -/
def innerRound (need : Dict α ℤ) (st : State α σ) : Except Exc (Round (State α σ) (Round (State α σ) ρ)) :=
  if st.valid = need.items.length then
    if (st.right : ℤ) - st.left = p.length then
      match found st.res st.left with
      | .again res => (shrink s need { st with res := res }).map .again
      | .leave r => .ok (.leave (.leave r))
    else (shrink s need st).map .again
  else .ok (.leave (.again st))

def inner (need : Dict α ℤ) : ℕ → State α σ → ExceptT Exc Option (Round (State α σ) ρ) :=
  loopM fun _ st => liftM (innerRound found s p need st)

/-- A round of the outer loop. -/
def outerRound (need : Dict α ℤ) (fuel : ℕ) (st : State α σ) : ExceptT Exc Option (Round (State α σ) ρ) :=
  if st.right < s.length then do
    let st ← extend s need st
    inner found s p need fuel st
  else pure (.leave (final st.res))

/-- `found` is what is done with the start of a permutation, and `final` what is returned in the end. -/
def slide (res : σ) (fuel : ℕ) : ExceptT Exc Option ρ :=
  loopM (outerRound found final s p (Dict.tally p)) fuel ⟨Dict.empty, 0, 0, 0, res⟩

end Slide

/-- 438 -/
def findAnagrams (s p : List α) (fuel : ℕ) : ExceptT Exc Option (List ℕ) :=
  slide (fun res left => .again (res ++ [left])) id s p [] fuel

/-- 567 -/
def checkInclusion (s1 s2 : List α) (fuel : ℕ) : ExceptT Exc Option Bool :=
  slide (fun _ _ => .leave true) (fun _ => false) s2 s1 () fuel

/-! ## Every start anew -/

namespace Brute

/-- What is done with a letter of the window: it is struck off, and a start is found when nothing is left. -/
def strike (start : ℕ) (c : α) (st : Dict α ℤ × List ℕ) : Dict α ℤ × List ℕ :=
  let (tmp, res) := st
  match tmp.get? c with
  | some v =>
    let tmp := if v ≠ 0 then tmp.set c (v - 1) else tmp
    let tmp := if tmp.get? c = some 0 then tmp.erase c else tmp
    (tmp, if tmp.items = [] then res ++ [start] else res)
  | none => (tmp, res)

/-- The inner loop, over the letters from the start on with their indices. -/
def scan (n start : ℕ) : List (α × ℕ) → Dict α ℤ × List ℕ → Dict α ℤ × List ℕ
  | [], st => st
  | (c, j) :: rest, st => if j - start ≥ n then st else scan n start rest (strike start c st)

def findAnagrams (s p : List α) (fuel : ℕ) : Option (List ℕ) :=
  if s = [] ∨ p = [] then some []
  else
    loop (fun t : ℕ × List ℕ => if t.1 < s.length then
        .again (t.1 + 1, (scan p.length t.1 ((s.drop t.1).zipIdx t.1) (Dict.tally p, t.2)).2)
      else .leave t.2) fuel (0, [])

def isEctopicword (s p : List α) : Bool := (Dict.tally s).same (Dict.tally p)

/-- The inner loop ends after its first round. -/
def findAnagrams2 (s p : List α) (fuel : ℕ) : Option (List ℕ) :=
  loop (fun t : ℕ × List ℕ => if (t.1 : ℤ) < (s.length : ℤ) - p.length + 1 then
      .again (t.1 + 1, if isEctopicword (window s t.1 (t.1 + p.length)) p then t.2 ++ [t.1] else t.2)
    else .leave t.2) fuel (0, [])

end Brute

/-! ## The starts of the permutations -/

/-- The starts of the slices that are permutations of the string. -/
def starts (s p : List α) : List ℕ :=
  (List.range (s.length + 1 - p.length)).filter fun i => (window s i (i + p.length)).Perm p

/-- A loop that keeps the indices with a property. -/
theorem foldl_filter (P : ℕ → Prop) [DecidablePred P] (l : List ℕ) :
    l.foldl (fun res i => if P i then res ++ [i] else res) [] = l.filter P := by
  refine foldl_mem (P := fun pre (res : List ℕ) => res = pre.filter P) l (fun pre i _ res h => ?_) [] rfl
  rw [h, List.filter_append]
  by_cases hi : P i <;> simp [hi]

namespace Brute

/-- What is left of the counts when some letters are struck off. -/
def Left (p w : List α) (tmp : Dict α ℤ) : Prop :=
  ∀ c, tmp.get? c = if w.count c < p.count c then some ((p.count c : ℤ) - w.count c) else none

variable {p w : List α} {tmp : Dict α ℤ}

theorem left_tally : Left p [] (Dict.tally p) := by
  intro c
  rw [Dict.get?_tally, List.count_nil]
  by_cases hc : c ∈ p
  · rw [if_pos hc, if_pos (List.count_pos_iff.2 hc)]
    simp
  · rw [if_neg hc, if_neg (by rw [List.count_eq_zero_of_not_mem hc]; exact lt_irrefl 0)]

theorem Left.items_eq_nil_iff (h : Left p w tmp) : tmp.items = [] ↔ p.Subperm w := by
  rw [List.subperm_iff_count]
  constructor
  · intro hnil c
    have hget := h c
    rw [Dict.get?, hnil] at hget
    by_contra hlt
    rw [if_pos (Nat.not_le.1 hlt)] at hget
    cases hget
  · intro hle
    refine List.eq_nil_iff_forall_not_mem.2 fun q hq => ?_
    have hget := (Dict.get?_eq_some (d := tmp) (k := q.1) (v := q.2)).2 hq
    rw [h, if_neg (Nat.not_lt.2 (hle q.1))] at hget
    cases hget

/-- One letter more is struck off; a start is found if nothing is left for the first time. -/
theorem Left.strike (h : Left p w tmp) (start : ℕ) (c : α) (res : List ℕ) :
    Left p (w ++ [c]) (strike start c (tmp, res)).1 ∧
      (Brute.strike start c (tmp, res)).2 = if ¬ p.Subperm w ∧ p.Subperm (w ++ [c]) then res ++ [start] else res := by
  have hcount : ∀ x, (w ++ [c]).count x = w.count x + if x = c then 1 else 0 := by
    intro x
    by_cases hx : x = c
    · simp [hx]
    · simp [hx, Ne.symm hx]
  by_cases hc : w.count c < p.count c
  · have hget : tmp.get? c = some ((p.count c : ℤ) - w.count c) := (h c).trans (if_pos hc)
    have hne : (p.count c : ℤ) - w.count c ≠ 0 := by omega
    have hstrike : Left p (w ++ [c]) (Brute.strike start c (tmp, res)).1 := by
      intro x
      simp only [Brute.strike, hget, if_pos hne, Dict.get?_set, if_true, hcount, Option.some.injEq]
      by_cases hone : (p.count c : ℤ) - w.count c - 1 = 0
      · rw [if_pos hone, Dict.get?_erase, Dict.get?_set, h x]
        grind
      · rw [if_neg hone, Dict.get?_set, h x]
        grind
    have hnot : ¬ p.Subperm w := fun hsub => absurd (List.subperm_iff_count.1 hsub c) (Nat.not_le.2 hc)
    refine ⟨hstrike, ?_⟩
    have hnil := hstrike.items_eq_nil_iff
    simp only [Brute.strike, hget, if_pos hne] at hnil ⊢
    simp only [hnot, not_false_eq_true, true_and, hnil]
  · have hget : tmp.get? c = none := (h c).trans (if_neg hc)
    simp only [Brute.strike, hget]
    constructor
    · intro x
      rw [h x, hcount]
      grind
    · rw [if_neg]
      rintro ⟨hnot, hsub⟩
      refine hnot (List.subperm_iff_count.2 fun x => ?_)
      have hle := List.subperm_iff_count.1 hsub x
      rw [hcount] at hle
      by_cases hx : x = c
      · exact hx ▸ Nat.not_lt.1 hc
      · rwa [if_neg hx] at hle

/-- The loop over a window. -/
theorem Left.foldl (h : Left p [] tmp) (hp : p ≠ []) (start : ℕ) (w : List α) (res : List ℕ) :
    (w.foldl (fun st c => Brute.strike start c st) (tmp, res)).2 = if p.Subperm w then res ++ [start] else res := by
  refine (foldl_mem (P := fun pre (st : Dict α ℤ × List ℕ) => Left p pre st.1 ∧
    st.2 = if p.Subperm pre then res ++ [start] else res) w (fun pre c _ st hst => ?_) []
    ⟨h, (if_neg (not_subperm_nil hp)).symm⟩).2
  obtain ⟨tmp, res'⟩ := st
  obtain ⟨hleft, rfl⟩ := hst
  obtain ⟨hleft', hres⟩ := hleft.strike start c (if p.Subperm pre then res ++ [start] else res)
  refine ⟨hleft', hres.trans ?_⟩
  by_cases hpre : p.Subperm pre
  · rw [if_neg fun hnot => hnot.1 hpre, if_pos hpre, if_pos (hpre.trans (List.sublist_append_left pre [c]).subperm)]
  · simp only [hpre, not_false_eq_true, true_and, if_false]

/-- The inner loop breaks off behind the window. -/
theorem scan_eq (n start : ℕ) : ∀ (l : List α) (k : ℕ) (st : Dict α ℤ × List ℕ),
    scan n start (l.zipIdx (start + k)) st = (l.take (n - k)).foldl (fun st c => Brute.strike start c st) st
  | [], k, st => by rw [List.take_nil]; rfl
  | c :: l, k, st => by
    rw [List.zipIdx_cons, scan, Nat.add_sub_cancel_left]
    split_ifs with hk
    · rw [Nat.sub_eq_zero_of_le hk]
      rfl
    · rw [show n - k = n - (k + 1) + 1 by omega, List.take_succ_cons, List.foldl_cons, Nat.add_assoc, scan_eq n start l]

theorem scan_window (hp : p ≠ []) (s : List α) (start : ℕ) (res : List ℕ) :
    (scan p.length start ((s.drop start).zipIdx start) (Dict.tally p, res)).2 =
      if (window s start (start + p.length)).Perm p then res ++ [start] else res := by
  have hscan := scan_eq p.length start (s.drop start) 0 (Dict.tally p, res)
  rw [Nat.add_zero, Nat.sub_zero] at hscan
  have hwindow : window s start (start + p.length) = (s.drop start).take p.length := by
    rw [window, List.drop_take, Nat.add_sub_cancel_left]
  rw [hscan, left_tally.foldl hp, ← hwindow]
  simp only [perm_iff_subperm length_window_le]

/-- Behind the last start no slice is long enough. -/
theorem filter_range_length (hp : p ≠ []) (s : List α) :
    ((List.range s.length).filter fun i => (window s i (i + p.length)).Perm p) = starts s p := by
  have hpos := List.length_pos_iff.2 hp
  obtain ⟨d, hd⟩ := Nat.exists_eq_add_of_le (show s.length + 1 - p.length ≤ s.length by omega)
  have hrest : ((List.range d).map (s.length + 1 - p.length + ·)).filter
      (fun i => (window s i (i + p.length)).Perm p) = [] := by
    refine List.filter_eq_nil_iff.2 fun i hi => ?_
    obtain ⟨k, -, rfl⟩ := List.mem_map.1 hi
    rw [decide_eq_true_iff]
    intro hperm
    have hlen := hperm.length_eq
    rw [window, List.length_drop, List.length_take] at hlen
    omega
  rw [hd, List.range_add, List.filter_append, hrest, List.append_nil, starts]

theorem findAnagrams_returns (hp : p ≠ []) (s : List α) : Returns (findAnagrams s p) (starts s p) := by
  unfold findAnagrams
  split_ifs with hempty
  · obtain rfl := hempty.resolve_right hp
    rw [← filter_range_length hp]
    exact Returns.pure _
  · have hfold : (List.range s.length).foldl
        (fun res i => (scan p.length i ((s.drop i).zipIdx i) (Dict.tally p, res)).2) [] = starts s p := by
      rw [funext₂ fun res i => scan_window hp s i res, foldl_filter, filter_range_length hp]
    have hloop := Returns.loop_range s.length
      (fun res i => (scan p.length i ((s.drop i).zipIdx i) (Dict.tally p, res)).2) []
    rwa [hfold] at hloop

theorem findAnagrams2_returns (s p : List α) : Returns (findAnagrams2 s p) (starts s p) := by
  have hfold : (List.range (s.length + 1 - p.length)).foldl (fun res i =>
      if isEctopicword (window s i (i + p.length)) p then res ++ [i] else res) [] = starts s p := by
    simp only [isEctopicword, Dict.same_tally_iff]
    exact foldl_filter _ _
  have hbound : ∀ i : ℕ, ((i : ℤ) < (s.length : ℤ) - p.length + 1) ↔ i < s.length + 1 - p.length := fun i => by omega
  have hloop := Returns.loop_range (s.length + 1 - p.length)
    (fun res i => if isEctopicword (window s i (i + p.length)) p then res ++ [i] else res) []
  rw [hfold] at hloop
  unfold findAnagrams2
  simpa only [hbound] using hloop

end Brute

/-! ## What the window counts -/

/-- The letters that occur often enough. -/
def covered (p w : List α) : ℕ := (Dict.tally p).keys.countP fun c => p.count c ≤ w.count c

variable {s p w : List α} {σ ρ : Type}

theorem covered_cons (c : α) :
    covered p (c :: w) = covered p w + if p.count c = w.count c + 1 ∧ c ∈ p then 1 else 0 := by
  by_cases hc : c ∈ p
  · have hnodup : (Dict.tally p).keys.Nodup := (Dict.tally p).nodupKeys
    have hchange := countP_change hnodup (f := fun x => p.count x ≤ w.count x)
      (g := fun x => p.count x ≤ (c :: w).count x) (Dict.mem_keys_tally.2 hc) fun x hx => by
        simp only [List.count_cons_of_ne (Ne.symm hx)]
    simp only [List.count_cons_self, decide_eq_true_eq] at hchange
    unfold covered
    simp only [hc, and_true]
    split_ifs at hchange ⊢ <;> omega
  · rw [if_neg fun h => hc h.2, Nat.add_zero]
    refine List.countP_congr fun x hx => ?_
    have hne : x ≠ c := fun h => hc (h ▸ Dict.mem_keys_tally.1 hx)
    rw [List.count_cons_of_ne (Ne.symm hne)]

theorem covered_eq_length_iff : covered p w = (Dict.tally p).items.length ↔ p.Subperm w := by
  have hlen : (Dict.tally p).items.length = (Dict.tally p).keys.length := (List.length_map _).symm
  rw [hlen, covered, List.countP_eq_length, List.subperm_iff_count]
  constructor
  · intro h c
    by_cases hc : c ∈ p
    · exact of_decide_eq_true (h c (Dict.mem_keys_tally.2 hc))
    · rw [List.count_eq_zero_of_not_mem hc]
      exact Nat.zero_le _
  · exact fun h c _ => decide_eq_true (h c)

/-- The variables of the loops are those of the window. -/
structure Slides (s p : List α) (st : State α σ) : Prop where
  left_le : st.left ≤ st.right
  right_le : st.right ≤ s.length
  counts : ∀ c ∈ p, (st.window.get? c).getD 0 = (window s st.left st.right).count c
  valid : st.valid = covered p (window s st.left st.right)

theorem contains_tally {c : α} : (Dict.tally p).contains c = true ↔ c ∈ p := by
  rw [← Dict.mem_keys_tally, Dict.mem_keys_iff]
  rfl

/-- The window is empty when the loops begin. -/
theorem slides_start (s p : List α) (res : σ) : Slides s p (⟨Dict.empty, 0, 0, 0, res⟩ : State α σ) := by
  refine ⟨le_rfl, Nat.zero_le _, fun c _ => rfl, ?_⟩
  have hnone : covered p (window s 0 0) = 0 :=
    List.countP_eq_zero.2 fun c hc => by
      have hcount := List.count_pos_iff.2 (Dict.mem_keys_tally.1 hc)
      exact fun hle => absurd (of_decide_eq_true hle) (Nat.not_le.2 hcount)
  rw [hnone]
  rfl

theorem Slides.extend {st : State α σ} (h : Slides s p st) (hr : st.right < s.length) :
    ∃ st', extend s (Dict.tally p) st = .ok st' ∧ Slides s p st' ∧ st'.left = st.left ∧ st'.right = st.right + 1 ∧
      st'.res = st.res := by
  have hget : s[st.right]? = some s[st.right] := List.getElem?_eq_getElem hr
  generalize s[st.right] = c at hget
  have hcount : ∀ x, (window s st.left (st.right + 1)).count x = (c :: window s st.left st.right).count x := by
    intro x
    rw [window_succ h.left_le hget]
    exact (List.perm_append_singleton c _).count_eq x
  have hcovered : covered p (window s st.left (st.right + 1)) = covered p (c :: window s st.left st.right) := by
    simp only [covered, hcount]
  refine ⟨st.enter (Dict.tally p) c, by rw [FindAnagrams.extend, letter, hget]; rfl, ?_⟩
  unfold State.enter
  by_cases hc : c ∈ p
  · have hincr : (st.window.incr c).get? c = some ((window s st.left st.right).count c + 1 : ℤ) := by
      rw [Dict.incr, Dict.get?_set, if_pos rfl, h.counts c hc]
    rw [if_pos (contains_tally.2 hc)]
    refine ⟨⟨Nat.le_succ_of_le h.left_le, hr, fun x hx => ?_, ?_⟩, rfl, rfl, rfl⟩
    · rw [hcount x]
      by_cases hxc : x = c
      · simp [hxc, hincr]
      · simp [Dict.incr, hxc, h.counts x hx, Ne.symm hxc]
    · show (if (st.window.incr c).get? c = (Dict.tally p).get? c then st.valid + 1 else st.valid) = _
      rw [hcovered, covered_cons, hincr, Dict.get?_tally, if_pos hc, h.valid]
      simp only [hc, and_true, Option.some.injEq]
      split_ifs <;> omega
  · rw [if_neg (mt contains_tally.1 hc)]
    refine ⟨⟨Nat.le_succ_of_le h.left_le, hr, fun x hx => ?_, ?_⟩, rfl, rfl, rfl⟩
    · have hne : c ≠ x := fun hcx => hc (hcx ▸ hx)
      rw [hcount x, List.count_cons_of_ne hne]
      exact h.counts x hx
    · rw [hcovered, covered_cons, if_neg fun hboth => hc hboth.2]
      exact h.valid

theorem Slides.shrink {st : State α σ} (h : Slides s p st) (hl : st.left < st.right) :
    ∃ st', shrink s (Dict.tally p) st = .ok st' ∧ Slides s p st' ∧ st'.left = st.left + 1 ∧ st'.right = st.right ∧
      st'.res = st.res := by
  have hlen : st.left < s.length := hl.trans_le h.right_le
  have hget : s[st.left]? = some s[st.left] := List.getElem?_eq_getElem hlen
  generalize s[st.left] = d at hget
  have hwindow := window_eq_cons hl hget
  have hshrink : FindAnagrams.shrink s (Dict.tally p) st = st.letGo (Dict.tally p) d := by
    rw [FindAnagrams.shrink, letter, hget]
    rfl
  have hvalid := h.valid
  rw [hwindow, covered_cons] at hvalid
  rw [hshrink]
  unfold State.letGo
  by_cases hd : d ∈ p
  · have hcount := h.counts d hd
    rw [hwindow, List.count_cons_self] at hcount
    obtain ⟨v, hv⟩ : ∃ v, st.window.get? d = some v := by
      cases hnone : st.window.get? d with
      | some v => exact ⟨v, rfl⟩
      | none =>
        rw [hnone, Option.getD_none] at hcount
        omega
    rw [hv, Option.getD_some] at hcount
    rw [if_pos (contains_tally.2 hd)]
    simp only [hv]
    refine ⟨_, rfl, ⟨hl, h.right_le, fun x hx => ?_, ?_⟩, rfl, rfl, rfl⟩
    · show ((st.window.set d (v - 1)).get? x).getD 0 = ((window s (st.left + 1) st.right).count x : ℤ)
      rw [Dict.get?_set]
      by_cases hxd : x = d
      · rw [if_pos hxd, Option.getD_some, hxd, hcount]
        omega
      · rw [if_neg hxd, h.counts x hx, hwindow, List.count_cons_of_ne (Ne.symm hxd)]
    · rw [Dict.get?_tally, if_pos hd, hvalid, hcount]
      simp only [hd, and_true, Option.some.injEq]
      split_ifs <;> omega
  · rw [if_neg (mt contains_tally.1 hd)]
    refine ⟨_, rfl, ⟨hl, h.right_le, fun x hx => ?_, ?_⟩, rfl, rfl, rfl⟩
    · have hne : d ≠ x := fun hdx => hd (hdx ▸ hx)
      have hx' := h.counts x hx
      rwa [hwindow, List.count_cons_of_ne hne] at hx'
    · rw [if_neg fun hboth => hd hboth.2] at hvalid
      exact hvalid

/-! ## Where the window stops -/

/-- The starts from `k` on. -/
def startsFrom (s p : List α) (k : ℕ) : List ℕ :=
  (List.range' k (s.length + 1 - p.length - k)).filter fun i => (window s i (i + p.length)).Perm p

theorem startsFrom_zero (s p : List α) : startsFrom s p 0 = starts s p := by
  rw [startsFrom, Nat.sub_zero, ← List.range_eq_range', starts]

theorem startsFrom_end (s p : List α) : startsFrom s p (s.length + 1 - p.length) = [] := by
  rw [startsFrom, Nat.sub_self, List.range'_zero, List.filter_nil]

theorem startsFrom_eq {k : ℕ} (hk : k + p.length ≤ s.length) : startsFrom s p k =
    if (window s k (k + p.length)).Perm p then k :: startsFrom s p (k + 1) else startsFrom s p (k + 1) := by
  rw [startsFrom, show s.length + 1 - p.length - k = (s.length + 1 - p.length - (k + 1)) + 1 by omega,
    List.range'_succ, List.filter_cons]
  simp only [decide_eq_true_eq]
  rfl

variable {found : σ → ℕ → Round σ ρ} {final : σ → ρ}

/-- The starts are found one after the other. -/
def collect (found : σ → ℕ → Round σ ρ) (final : σ → ρ) : List ℕ → σ → ρ
  | [], res => final res
  | i :: is, res => (found res i).elim (collect found final is) id

/-- The first start that the inner loop can come to. -/
def State.next (n : ℕ) (st : State α σ) : ℕ := if st.left + n ≤ st.right then st.right - n else st.right + 1 - n

/-- What the inner loop comes to: the function returns, or the window stops behind the start. -/
def Stops (found : σ → ℕ → Round σ ρ) (final : σ → ρ) (s p : List α) (st : State α σ) (r : Round (State α σ) ρ) :
    Prop :=
  r = .leave (collect found final (startsFrom s p (st.next p.length)) st.res) ∨
    ∃ st', r = .again st' ∧ Slides s p st' ∧ st'.right = st.right ∧ st'.left ≤ st.right + 1 - p.length ∧
      collect found final (startsFrom s p (st.right + 1 - p.length)) st'.res =
        collect found final (startsFrom s p (st.next p.length)) st.res

theorem Slides.valid_eq_iff {st : State α σ} (h : Slides s p st) :
    st.valid = (Dict.tally p).items.length ↔ p.Subperm (window s st.left st.right) := by
  rw [h.valid, ← covered_eq_length_iff]
  omega

/-- A window without all letters has no start. -/
theorem Slides.stops {st : State α σ} (h : Slides s p st) (hpassed : st.left ≤ st.right + 1 - p.length)
    (hnot : ¬ p.Subperm (window s st.left st.right)) : Stops found final s p st (.again st) := by
  refine Or.inr ⟨st, rfl, h, rfl, hpassed, ?_⟩
  unfold State.next
  split_ifs with hlen
  · have hright : st.right - p.length + p.length = st.right := Nat.sub_add_cancel (by omega)
    have hperm : ¬ (window s (st.right - p.length) (st.right - p.length + p.length)).Perm p := by
      rw [hright]
      exact fun hperm => hnot (hperm.symm.subperm.trans (window_sublist (by omega)).subperm)
    rw [startsFrom_eq (hright.trans_le h.right_le), if_neg hperm, Nat.sub_add_comm (by omega)]
  · rfl

/-- A start at the window itself is found, and the next one lies behind it. -/
theorem Slides.collect_here (found : σ → ℕ → Round σ ρ) (final : σ → ρ) {st : State α σ} (h : Slides s p st)
    (heq : st.right = st.left + p.length) (hsub : p.Subperm (window s st.left st.right)) :
    collect found final (startsFrom s p (st.next p.length)) st.res =
      (found st.res st.left).elim (collect found final (startsFrom s p (st.left + 1))) id := by
  have hnext : st.next p.length = st.left := by
    rw [State.next, if_pos heq.ge, heq, Nat.add_sub_cancel]
  have hperm : (window s st.left (st.left + p.length)).Perm p :=
    (perm_iff_subperm length_window_le).2 (heq ▸ hsub)
  rw [hnext, startsFrom_eq (heq ▸ h.right_le), if_pos hperm, collect]

/-- A round over a window with all letters: the window lets go of one of them, or the function returns. -/
theorem Slides.round_covered (found : σ → ℕ → Round σ ρ) (final : σ → ρ) (hp : p ≠ []) {st : State α σ}
    (h : Slides s p st) (hsub : p.Subperm (window s st.left st.right)) :
    (∃ st', innerRound found s p (Dict.tally p) st = .ok (.again st') ∧ Slides s p st' ∧ st'.left = st.left + 1 ∧
      st'.right = st.right ∧ collect found final (startsFrom s p (st'.next p.length)) st'.res =
        collect found final (startsFrom s p (st.next p.length)) st.res) ∨
      innerRound found s p (Dict.tally p) st =
        .ok (.leave (.leave (collect found final (startsFrom s p (st.next p.length)) st.res))) := by
  have hpos := List.length_pos_iff.2 hp
  have hvalid := h.valid_eq_iff.2 hsub
  have hlen := hsub.length_le
  rw [length_window h.right_le] at hlen
  have hshrink : ∀ res : σ, ∃ st', FindAnagrams.shrink s (Dict.tally p) { st with res := res } = .ok st' ∧
      Slides s p st' ∧ st'.left = st.left + 1 ∧ st'.right = st.right ∧ st'.res = res := by
    intro res
    have hslides : Slides s p { st with res := res } := ⟨h.left_le, h.right_le, h.counts, h.valid⟩
    exact hslides.shrink (show st.left < st.right by omega)
  by_cases heq : st.right = st.left + p.length
  · have hlength : (st.right : ℤ) - st.left = p.length := by omega
    have hcollect := h.collect_here found final heq hsub
    cases hfound : found st.res st.left with
    | again res =>
      obtain ⟨st', hst', hslides, hleft, hright, hres⟩ := hshrink res
      have hnext : st'.next p.length = st.left + 1 := by
        rw [State.next, if_neg (by omega)]
        omega
      refine Or.inl ⟨st', ?_, hslides, hleft, hright, ?_⟩
      · rw [innerRound, if_pos hvalid, if_pos hlength, hfound]
        simp only [hst']
        rfl
      · rw [hcollect, hfound, hnext, hres]
        rfl
    | leave r =>
      refine Or.inr ?_
      rw [innerRound, if_pos hvalid, if_pos hlength, hcollect, hfound]
      rfl
  · have hlength : (st.right : ℤ) - st.left ≠ p.length := by omega
    obtain ⟨st', hst', hslides, hleft, hright, hres⟩ := hshrink st.res
    have hnext : st'.next p.length = st.next p.length := by
      rw [State.next, State.next, if_pos (by omega), if_pos (by omega), hright]
    refine Or.inl ⟨st', ?_, hslides, hleft, hright, ?_⟩
    · rw [innerRound, if_pos hvalid, if_neg hlength, hst']
      rfl
    · rw [hnext, hres]

theorem inner_returns (hp : p ≠ []) (st : State α σ) (h : Slides s p st) (hpassed : st.left ≤ st.right + 1 - p.length) :
    ∃ r, Returns (fun fuel => inner found s p (Dict.tally p) fuel st) (.ok r) ∧ Stops found final s p st r := by
  have hpos := List.length_pos_iff.2 hp
  induction hn : st.right - st.left using Nat.strong_induction_on generalizing st with
  | _ n ih =>
    by_cases hsub : p.Subperm (window s st.left st.right)
    · have hlen := hsub.length_le
      rw [length_window h.right_le] at hlen
      obtain ⟨st', hround, hst', hleft, hright, hcollect⟩ | hround := h.round_covered found final hp hsub
      · obtain ⟨r, hr, hstops⟩ := ih (st'.right - st'.left) (by omega) st' hst' (by omega) rfl
        refine ⟨r, Returns.loopM_again (Returns.lift hround) hr, ?_⟩
        unfold Stops at hstops ⊢
        rwa [hcollect, hright] at hstops
      · exact ⟨_, Returns.loopM_leave (Returns.lift hround), Or.inl rfl⟩
    · have hround : innerRound found s p (Dict.tally p) st = .ok (.leave (.again st)) := by
        rw [innerRound, if_neg (mt h.valid_eq_iff.1 hsub)]
      exact ⟨_, Returns.loopM_leave (Returns.lift hround), h.stops hpassed hsub⟩

theorem outer_returns (hp : p ≠ []) (n : ℕ) : ∀ st : State α σ, Slides s p st → st.left ≤ st.right + 1 - p.length →
    s.length - st.right = n → Returns (fun fuel => loopM (outerRound found final s p (Dict.tally p)) fuel st)
      (.ok (collect found final (startsFrom s p (st.right + 1 - p.length)) st.res)) := by
  have hpos := List.length_pos_iff.2 hp
  induction n with
  | zero =>
    intro st h hpassed hn
    have hright : st.right = s.length := Nat.le_antisymm h.right_le (Nat.le_of_sub_eq_zero hn)
    have hround : Returns (fun fuel => outerRound found final s p (Dict.tally p) fuel st)
        (.ok (.leave (final st.res))) := by
      simp only [outerRound, if_neg (Nat.not_lt.2 hright.ge)]
      exact Returns.done _
    rw [hright, startsFrom_end]
    exact Returns.loopM_leave hround
  | succ n ih =>
    intro st h hpassed hn
    have hlt : st.right < s.length := by omega
    obtain ⟨st', hextend, h', hleft, hright, hres⟩ := h.extend hlt
    obtain ⟨r, hr, hstops⟩ := inner_returns hp st' h' (by omega)
    have hround : Returns (fun fuel => outerRound found final s p (Dict.tally p) fuel st) (.ok r) := by
      simp only [outerRound, if_pos hlt]
      exact Returns.bind_ok (Returns.lift hextend) hr
    -- the window has left no start behind
    have hnext : st'.next p.length = st.right + 1 - p.length := by
      unfold State.next
      split_ifs with hlen
      · rw [hright]
      · omega
    rcases hstops with rfl | ⟨st'', rfl, hst'', hright', hpassed', hcollect⟩
    · rw [hnext, hres] at hround
      exact Returns.loopM_leave hround
    · rw [hnext, hres] at hcollect
      rw [← hcollect]
      rw [← hright'] at hpassed' ⊢
      exact Returns.loopM_again hround (ih st'' hst'' hpassed' (by omega))

theorem slide_returns (found : σ → ℕ → Round σ ρ) (final : σ → ρ) (s : List α) (hp : p ≠ []) (res : σ) :
    Returns (slide found final s p res) (.ok (collect found final (starts s p) res)) := by
  have hpos := List.length_pos_iff.2 hp
  have hzero : startsFrom s p (0 + 1 - p.length) = starts s p := by
    rw [show 0 + 1 - p.length = 0 by omega, startsFrom_zero]
  rw [← hzero]
  exact outer_returns hp _ _ (slides_start s p res) (Nat.zero_le _) rfl

theorem collect_append (l : List ℕ) (res : List ℕ) :
    collect (fun (res : List ℕ) left => Round.again (res ++ [left])) id l res = res ++ l := by
  induction l generalizing res with
  | nil => exact (List.append_nil res).symm
  | cons i l ih => exact (ih (res ++ [i])).trans (by rw [List.append_assoc]; rfl)

/-- All functions find the starts of the permutations, in increasing order. -/
theorem findAnagrams_agree (s p : List α) (hp : p ≠ []) :
    Returns (findAnagrams s p) (.ok (starts s p)) ∧ Returns (Brute.findAnagrams s p) (starts s p) ∧
      Returns (Brute.findAnagrams2 s p) (starts s p) ∧
      Returns (checkInclusion p s) (.ok (decide (starts s p ≠ []))) := by
  refine ⟨?_, Brute.findAnagrams_returns hp s, Brute.findAnagrams2_returns s p, ?_⟩
  · have hslide := slide_returns (fun (res : List ℕ) left => Round.again (res ++ [left])) id s hp []
    rwa [collect_append, List.nil_append] at hslide
  · have hslide := slide_returns (fun (_ : Unit) _ => Round.leave true) (fun _ => false) s hp ()
    cases hstarts : starts s p with
    | nil =>
      rw [hstarts] at hslide
      exact hslide
    | cons i l =>
      rw [hstarts] at hslide
      exact hslide

theorem findAnagrams_agree_ab : Returns (findAnagrams ['a', 'b', 'a'] ['a', 'b']) (.ok [0, 1]) ∧
    Returns (checkInclusion ['a', 'b'] ['a', 'b', 'a']) (.ok true) := by
  have hstarts : starts ['a', 'b', 'a'] ['a', 'b'] = [0, 1] := by decide
  obtain ⟨hfind, -, -, hcheck⟩ := findAnagrams_agree ['a', 'b', 'a'] ['a', 'b'] (by decide)
  rw [hstarts] at hfind hcheck
  exact ⟨hfind, hcheck⟩

end GoodGoodStudy.LeetCode.FindAnagrams
