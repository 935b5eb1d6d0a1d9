/-
The exercise 738, the greatest number with nondecreasing digits that is not above a given one. The first version goes
from the left to the right and counts how often a digit has repeated, to find the first one of them again; the second
version goes from the right to the left.
-/
import GoodGoodStudy.Lib.Loop
import GoodGoodStudy.Lib.Numeral
import GoodGoodStudy.Lib.Sequence

namespace GoodGoodStudy.LeetCode.MonotoneDigits

open GoodGoodStudy.Lib

/-! ## The code -/

/-- `list(str(N))`. A digit is the number that it stands for. -/
def text (N : ℕ) : List ℕ := if N = 0 then [0] else numeral 10 N

/-- `str(int(d) - 1)`. `none` is the text `-1`, which is not a digit. -/
def less : ℕ → Option ℕ
  | 0 => none
  | d + 1 => some d

/-- `for j in range(i, len(tmp)): tmp[j] = '9'` -/
def nines (tmp : List ℕ) (i : ℕ) : Option (List ℕ) :=
  (List.range' i (tmp.length - i)).foldlM (fun tmp (j : ℕ) => setItem? tmp j 9) tmp

/-- The first branch of a round. The counter is never greater than `i`. -/
def decrease (i repeatCount : ℕ) (tmp : List ℕ) : Option (List ℕ) := do
  if (← item? tmp (i + 1)) < (← item? tmp i) then
    let tmp ← setItem? tmp (i - repeatCount) (← less (← item? tmp (i - repeatCount)))
    nines tmp (i + 1 - repeatCount)
  else some tmp

def round (s : ℕ × List ℕ) (i : ℕ) : Option (ℕ × List ℕ) := do
  let (repeatCount, tmp) := s
  let tmp ← decrease i repeatCount tmp
  if (← item? tmp (i + 1)) = (← item? tmp i) then some (repeatCount + 1, tmp) else some (0, tmp)

def monotoneIncreasingDigits (N : ℕ) : Option ℕ := do
  let tmp := text N
  let (_, tmp) ← (List.range (tmp.length - 1)).foldlM round (0, tmp)
  some (value 10 tmp)

/-- A round from the right to the left. -/
def roundBack (sn : List ℕ) (i : ℕ) : Option (List ℕ) := do
  if (← item? sn (i - 1)) ≤ (← item? sn i) then some sn
  else
    let sn ← setItem? sn (i - 1) (← less (← item? sn (i - 1)))
    nines sn i

def monotoneIncreasingDigits2 (N : ℕ) : Option ℕ := do
  let sn := text N
  let n := sn.length
  if n = 1 then some N
  else
    let sn ← (List.range' 1 (n - 1)).reverse.foldlM roundBack sn
    some (value 10 sn)

example : monotoneIncreasingDigits 332 = some 299 := by decide +kernel

example : monotoneIncreasingDigits2 332 = some 299 := by decide +kernel

/-! ## The digits -/

theorem text_ne_nil (N : ℕ) : text N ≠ [] := by
  unfold text numeral
  split_ifs with hN
  · exact List.cons_ne_nil 0 []
  · rw [List.reverse_ne_nil_iff]
    exact Nat.digits_ne_nil_iff_ne_zero.2 hN

theorem text_le (N : ℕ) : ∀ d ∈ text N, d ≤ 9 := by
  unfold text
  split_ifs with hN
  · simp
  · exact fun d hd => Nat.le_of_lt_succ (numeral_lt (by decide) d hd)

theorem value_text (N : ℕ) : value 10 (text N) = N := by
  unfold text
  split_ifs with hN
  · rw [hN, value_singleton]
  · exact value_numeral 10 N

theorem nines_append (pre seg : List ℕ) :
    nines (pre ++ seg) pre.length = some (pre ++ List.replicate seg.length 9) := by
  unfold nines
  rw [List.length_append, Nat.add_sub_cancel_left]
  induction seg generalizing pre with
  | nil => rfl
  | cons d seg ih =>
    rw [List.length_cons, List.range'_succ, List.foldlM_cons, setItem?_append rfl, Option.bind_eq_bind,
      Option.bind_some]
    have h := ih (pre ++ [9])
    rw [List.length_append, List.length_singleton, List.append_assoc, List.append_assoc] at h
    exact h

/-! ## From the right to the left -/

theorem roundBack_eq {d : ℕ} {l : List ℕ} (pre : List ℕ) (hl : l ≠ []) :
    roundBack (pre ++ d :: lower 9 l) (pre.length + 1) = some (pre ++ lower 9 (d :: l)) := by
  have hlen := length_lower 9 l
  rcases h : lower 9 l with _ | ⟨e, t⟩
  · rw [h, List.length_nil] at hlen
    exact absurd (List.eq_nil_of_length_eq_zero hlen.symm) hl
  · have hi : ((pre.length + 1 : ℕ) : ℤ) - 1 = pre.length := by omega
    have hnext : item? (pre ++ d :: e :: t) (pre.length + 1 : ℕ) = some e := by
      rw [List.append_cons]
      exact item?_append (by simp) e t
    unfold roundBack
    simp only [hi, item?_append rfl, hnext, Option.bind_eq_bind, Option.bind_some]
    split_ifs with hde
    · rw [lower_cons_le h hde]
    · obtain ⟨c, rfl⟩ := Nat.exists_eq_succ_of_ne_zero (Nat.ne_of_gt (Nat.zero_lt_of_lt (Nat.lt_of_not_le hde)))
      have hnines := nines_append (pre ++ [c]) (e :: t)
      rw [List.append_assoc, List.append_assoc, List.length_append] at hnines
      rw [lower_cons_gt h (Nat.lt_of_not_le hde)]
      simp only [less, Option.bind_some, setItem?_append rfl]
      exact hnines

theorem foldlM_roundBack {l : List ℕ} (hl : l ≠ []) (pre : List ℕ) :
    (List.range' 1 pre.length).reverse.foldlM roundBack (pre ++ lower 9 l) = some (lower 9 (pre ++ l)) := by
  induction pre using List.reverseRecOn generalizing l with
  | nil => rfl
  | append_singleton pre d ih =>
    rw [List.length_append, List.length_singleton, List.range'_concat, List.reverse_append, List.reverse_singleton,
      List.singleton_append, List.foldlM_cons, Nat.one_mul, Nat.add_comm 1, List.append_assoc, List.append_assoc,
      List.singleton_append, List.singleton_append, roundBack_eq pre hl]
    exact ih (List.cons_ne_nil d l)

theorem monotoneIncreasingDigits2_eq (N : ℕ) : monotoneIncreasingDigits2 N = some (value 10 (lower 9 (text N))) := by
  unfold monotoneIncreasingDigits2
  rcases List.eq_nil_or_concat (text N) with hnil | ⟨pre, d, htext⟩
  · exact absurd hnil (text_ne_nil N)
  · have hloop := foldlM_roundBack (List.cons_ne_nil d []) pre
    rw [List.concat_eq_append] at htext
    simp only [htext, List.length_append, List.length_singleton, Nat.add_sub_cancel]
    split_ifs with hone
    · rw [List.eq_nil_of_length_eq_zero (Nat.succ.inj hone), List.nil_append] at htext ⊢
      rw [lower_of_nondecreasing (List.pairwise_singleton _ _), ← htext, value_text]
    · rw [lower_of_nondecreasing (List.pairwise_singleton _ _)] at hloop
      rw [hloop]
      rfl

/-! ## From the left to the right -/

/-- After the rounds before `i`: the digits do not decrease up to `i`, and the digit there has repeated as often as was
counted; or the digits are the final ones. -/
inductive Scanned (D : List ℕ) (i : ℕ) : ℕ × List ℕ → Prop
  | rising {pre post : List ℕ} {a k : ℕ} (hD : D = pre ++ List.replicate k a ++ a :: post) (hi : i = pre.length + k)
    (hpre : pre.Pairwise (· ≤ ·)) (ha : ∀ x ∈ pre, x < a) : Scanned D i (k, D)
  | found (k : ℕ) : Scanned D i (k, lower 9 D)

theorem replicate_append_cons (k a : ℕ) (l : List ℕ) :
    List.replicate k a ++ a :: l = a :: (List.replicate k a ++ l) := by
  rw [← List.cons_append, ← List.replicate_succ, List.replicate_succ', List.append_assoc, List.singleton_append]

/-- A run of equal digits takes the next one. -/
theorem append_run (pre : List ℕ) (k a : ℕ) (l : List ℕ) :
    pre ++ List.replicate k a ++ a :: l = pre ++ List.replicate (k + 1) a ++ l := by
  rw [List.replicate_succ', List.append_assoc, List.append_assoc, List.append_assoc, List.singleton_append]

theorem run_nondecreasing {pre : List ℕ} {a : ℕ} (hpre : pre.Pairwise (· ≤ ·)) (ha : ∀ x ∈ pre, x < a) (k : ℕ) :
    (pre ++ List.replicate k a).Pairwise (· ≤ ·) := by
  refine List.pairwise_append.2 ⟨hpre, List.pairwise_replicate.2 (Or.inr le_rfl), fun x hx y hy => ?_⟩
  rw [List.eq_of_mem_replicate hy]
  exact (ha x hx).le

theorem run_lt {pre : List ℕ} {a b : ℕ} (ha : ∀ x ∈ pre, x < a) (hab : a < b) (k : ℕ) :
    ∀ x ∈ pre ++ List.replicate k a, x < b := by
  intro x hx
  rcases List.mem_append.1 hx with hx | hx
  · exact (ha x hx).trans hab
  · exact (List.eq_of_mem_replicate hx).symm ▸ hab

theorem item?_run (pre : List ℕ) (k a : ℕ) (post : List ℕ) :
    item? (pre ++ List.replicate k a ++ a :: post) (pre.length + k : ℕ) = some a :=
  item?_append (by rw [List.length_append, List.length_replicate]) a post

theorem item?_next (pre : List ℕ) (k a b : ℕ) (post : List ℕ) :
    item? (pre ++ List.replicate k a ++ a :: b :: post) ((pre.length + k : ℕ) + 1) = some b := by
  rw [List.append_cons]
  refine item?_append ?_ b post
  rw [List.length_append, List.length_append, List.length_replicate, List.length_singleton]
  omega

theorem decrease_of_le {tmp : List ℕ} {i x y : ℕ} (hx : item? tmp i = some x) (hy : item? tmp (i + 1) = some y)
    (hxy : x ≤ y) (k : ℕ) : decrease i k tmp = some tmp := by
  unfold decrease
  simp only [hx, hy, Option.bind_eq_bind, Option.bind_some]
  exact if_neg hxy.not_gt

/-- The first digit that is followed by a smaller one. -/
theorem decrease_run {pre : List ℕ} {a b : ℕ} (hpre : pre.Pairwise (· ≤ ·)) (ha : ∀ x ∈ pre, x < a) (hba : b < a)
    (k : ℕ) (post : List ℕ) : decrease (pre.length + k) k (pre ++ List.replicate k a ++ a :: b :: post) =
      some (lower 9 (pre ++ List.replicate k a ++ a :: b :: post)) := by
  have hlower : lower 9 (pre ++ List.replicate k a ++ a :: b :: post) =
      pre ++ (a - 1) :: List.replicate (k + 1 + post.length) 9 := by
    rw [append_run, List.append_assoc]
    exact lower_append hpre (lower_run hba k post) fun x hx => Nat.le_sub_one_of_lt (ha x hx)
  have hfirst : ((pre.length + k : ℕ) : ℤ) - k = pre.length := by omega
  have hbehind : pre.length + k + 1 - k = (pre ++ [a - 1]).length := by
    rw [List.length_append, List.length_singleton]
    omega
  obtain ⟨c, rfl⟩ := Nat.exists_eq_succ_of_ne_zero (Nat.ne_of_gt (Nat.zero_lt_of_lt hba))
  rw [hlower]
  unfold decrease
  simp only [item?_run, item?_next, Option.bind_eq_bind, Option.bind_some]
  -- the first of the equal digits, which is reached by the counter
  rw [if_pos hba, hfirst, List.append_assoc, replicate_append_cons, item?_append rfl, Option.bind_some, less,
    Option.bind_some, setItem?_append rfl, Option.bind_some, hbehind, List.append_cons, Nat.succ_sub_one, nines_append]
  simp [List.append_assoc, Nat.add_comm, Nat.add_left_comm]

theorem round_eq {tmp tmp' : List ℕ} {i k x y : ℕ} (hdecrease : decrease i k tmp = some tmp')
    (hx : item? tmp' i = some x) (hy : item? tmp' (i + 1) = some y) :
    round (k, tmp) i = some (if y = x then k + 1 else 0, tmp') := by
  unfold round
  simp only [hdecrease, hx, hy, Option.bind_eq_bind, Option.bind_some]
  split_ifs <;> rfl

theorem round_scanned {D : List ℕ} {i : ℕ} (hD : ∀ d ∈ D, d ≤ 9) (hi : i + 1 < D.length) {s : ℕ × List ℕ}
    (hs : Scanned D i s) : ∃ s', round s i = some s' ∧ Scanned D (i + 1) s' := by
  -- the final digits do not decrease
  have hi' : i + 1 < (lower 9 D).length := by rwa [length_lower]
  have hx : item? (lower 9 D) i = some (lower 9 D)[i] := item?_natCast (by omega)
  have hy : item? (lower 9 D) ((i : ℤ) + 1) = some (lower 9 D)[i + 1] := item?_natCast hi'
  cases hs with
  | found k =>
    have hle := List.pairwise_iff_getElem.1 (lower_nondecreasing hD) i (i + 1) (by omega) hi' (Nat.lt_succ_self i)
    exact ⟨_, round_eq (decrease_of_le hx hy hle k) hx hy, .found _⟩
  | @rising pre post a k hsplit hpos hpre ha =>
    rcases post with _ | ⟨b, post⟩
    · rw [hsplit, List.length_append, List.length_append, List.length_replicate, List.length_singleton] at hi
      omega
    · have ha' : item? D i = some a := by rw [hsplit, hpos, item?_run]
      have hb' : item? D ((i : ℤ) + 1) = some b := by rw [hsplit, hpos, item?_next]
      rcases lt_trichotomy b a with hba | rfl | hab
      · have hdecrease := decrease_run hpre ha hba k post
        rw [← hsplit, ← hpos] at hdecrease
        exact ⟨_, round_eq hdecrease hx hy, .found _⟩
      · refine ⟨_, round_eq (decrease_of_le ha' hb' le_rfl k) ha' hb', ?_⟩
        rw [if_pos rfl]
        have hrising : D = pre ++ List.replicate (k + 1) b ++ b :: post := by rw [hsplit, append_run]
        exact .rising hrising (by omega) hpre ha
      · refine ⟨_, round_eq (decrease_of_le ha' hb' hab.le k) ha' hb', ?_⟩
        rw [if_neg (Nat.ne_of_gt hab)]
        -- the greater digit is the first of its kind
        have hrising : D = pre ++ List.replicate (k + 1) a ++ List.replicate 0 b ++ b :: post := by
          rw [hsplit, append_run, List.replicate_zero, List.append_nil]
        have hlast : i + 1 = (pre ++ List.replicate (k + 1) a).length + 0 := by
          rw [List.length_append, List.length_replicate]
          omega
        exact .rising hrising hlast (run_nondecreasing hpre ha (k + 1)) (run_lt ha hab (k + 1))

/-- After the last round. -/
theorem Scanned.last {D : List ℕ} {s : ℕ × List ℕ} (h : Scanned D (D.length - 1) s) : s.2 = lower 9 D := by
  cases h with
  | found k => rfl
  | @rising pre post a k hsplit hpos hpre ha =>
    have hlen := congrArg List.length hsplit
    rw [List.length_append, List.length_append, List.length_replicate, List.length_cons] at hlen
    have hpost : post = [] := List.eq_nil_of_length_eq_zero (by omega)
    refine (lower_of_nondecreasing ?_).symm
    rw [hsplit, hpost, append_run, List.append_nil]
    exact run_nondecreasing hpre ha (k + 1)

theorem monotoneIncreasingDigits_eq (N : ℕ) : monotoneIncreasingDigits N = some (value 10 (lower 9 (text N))) := by
  obtain ⟨d, D, htext⟩ := List.exists_cons_of_ne_nil (text_ne_nil N)
  have hstart : text N = [] ++ List.replicate 0 d ++ d :: D := htext
  obtain ⟨s, hfold, hs⟩ := exists_foldlM_range (f := round) (P := Scanned (text N)) ((text N).length - 1)
    (fun i hi s hs => round_scanned (text_le N) (by omega) hs) (s := (0, text N))
    (.rising hstart rfl List.Pairwise.nil fun x hx => by cases hx)
  unfold monotoneIncreasingDigits
  simp only [hfold, Option.bind_eq_bind, Option.bind_some]
  rw [hs.last]

/-- Both versions. -/
theorem isGreatest_monotoneIncreasingDigits (N : ℕ) :
    ∃ m, monotoneIncreasingDigits N = some m ∧ monotoneIncreasingDigits2 N = some m ∧
      IsGreatest {m | m ≤ N ∧ (numeral 10 m).Pairwise (· ≤ ·)} m := by
  have hgreatest := isGreatest_lower (b := 9) (by decide) (text_le N)
  rw [value_text] at hgreatest
  exact ⟨_, monotoneIncreasingDigits_eq N, monotoneIncreasingDigits2_eq N, hgreatest⟩

end GoodGoodStudy.LeetCode.MonotoneDigits
