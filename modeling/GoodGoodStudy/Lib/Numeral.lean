/-
Numerals with the most significant digit first, possibly with leading zeros. Among numerals of one length the greatest
nondecreasing one that is not above a given numeral is found from the last digit on.
-/
import Mathlib.Data.Nat.Digits.Lemmas

namespace GoodGoodStudy.Lib

/-- The number that the digits stand for. -/
def value (b : ℕ) (l : List ℕ) : ℕ := Nat.ofDigits b l.reverse

/-- The digits of a number, without leading zeros. -/
def numeral (b n : ℕ) : List ℕ := (Nat.digits b n).reverse

variable {b d n : ℕ} {l : List ℕ}

theorem value_nil (b : ℕ) : value b [] = 0 := rfl

theorem value_cons (b d : ℕ) (l : List ℕ) : value b (d :: l) = d * b ^ l.length + value b l := by
  unfold value
  rw [Nat.ofDigits_reverse_cons, Nat.add_comm, Nat.mul_comm]

theorem value_singleton (b d : ℕ) : value b [d] = d := Nat.ofDigits_singleton

theorem value_zero_cons (b : ℕ) (l : List ℕ) : value b (0 :: l) = value b l := by
  rw [value_cons, Nat.zero_mul, Nat.zero_add]

theorem value_replicate_zero_append (b k : ℕ) (l : List ℕ) : value b (List.replicate k 0 ++ l) = value b l := by
  induction k with
  | zero => rfl
  | succ k ih => rw [List.replicate_succ, List.cons_append, value_zero_cons, ih]

theorem value_numeral (b n : ℕ) : value b (numeral b n) = n := by
  unfold value numeral
  rw [List.reverse_reverse, Nat.ofDigits_digits]

theorem value_lt (hb : 1 < b) (hl : ∀ d ∈ l, d < b) : value b l < b ^ l.length := by
  rw [← List.length_reverse]
  exact Nat.ofDigits_lt_base_pow_length hb fun d hd => hl d (List.mem_reverse.1 hd)

theorem numeral_lt (hb : 1 < b) : ∀ d ∈ numeral b n, d < b := fun _ hd =>
  Nat.digits_lt_base hb (List.mem_reverse.1 hd)

/-- The digits of a number are those of any numeral for it, without the leading zeros. -/
theorem numeral_value (hb : 1 < b) (hl : ∀ d ∈ l, d < b) : numeral b (value b l) = l.dropWhile (· = 0) := by
  induction l with
  | nil => simp [numeral, value_nil]
  | cons d l ih =>
    by_cases hd : d = 0
    · rw [hd, value_zero_cons, List.dropWhile_cons_of_pos (by simp)]
      exact ih fun d' hd' => hl d' (List.mem_cons_of_mem d hd')
    · rw [List.dropWhile_cons_of_neg (by simpa using hd)]
      unfold numeral value
      rw [Nat.digits_ofDigits b hb _ (fun d' hd' => hl d' (List.mem_reverse.1 hd')) (fun h => by simpa using hd),
        List.reverse_reverse]

/-- The first digit counts more than all that follow. -/
theorem head_le_of_value_le {c : ℕ} {t : List ℕ} (hb : 1 < b) (hl : ∀ d ∈ l, d < b) (hlen : t.length = l.length)
    (h : value b (c :: t) ≤ value b (d :: l)) : c ≤ d := by
  rw [value_cons, value_cons, hlen] at h
  have hlt := value_lt hb hl
  by_contra hdc
  have hmul : (d + 1) * b ^ l.length ≤ c * b ^ l.length := Nat.mul_le_mul_right _ (by omega)
  rw [Nat.add_mul, Nat.one_mul] at hmul
  omega

theorem value_lt_of_head_lt {c : ℕ} {t : List ℕ} (hb : 1 < b) (ht : ∀ d ∈ t, d < b) (hlen : t.length = l.length)
    (h : c < d) : value b (c :: t) < value b (d :: l) := by
  by_contra hle
  exact absurd (head_le_of_value_le hb ht hlen.symm (Nat.le_of_not_lt hle)) (Nat.not_le.2 h)

theorem value_replicate_last (b n : ℕ) : value (b + 1) (List.replicate n b) + 1 = (b + 1) ^ n := by
  induction n with
  | zero => rfl
  | succ n ih =>
    rw [List.replicate_succ, value_cons, List.length_replicate, Nat.add_assoc, ih, Nat.pow_succ]
    ring

/-! ## Nondecreasing numerals -/

/-- The greatest nondecreasing numeral of the length that is not above the numeral; `b` is the greatest digit. -/
def lower (b : ℕ) : List ℕ → List ℕ
  | [] => []
  | d :: l =>
    match lower b l with
    | [] => [d]
    | e :: t => if d ≤ e then d :: e :: t else (d - 1) :: List.replicate (t.length + 1) b

variable {e : ℕ} {t : List ℕ}

theorem lower_cons_nil (h : lower b l = []) : lower b (d :: l) = [d] := by
  rw [lower, h]

theorem lower_cons_le (h : lower b l = e :: t) (hde : d ≤ e) : lower b (d :: l) = d :: e :: t := by
  rw [lower, h]
  exact if_pos hde

theorem lower_cons_gt (h : lower b l = e :: t) (hed : e < d) :
    lower b (d :: l) = (d - 1) :: List.replicate (t.length + 1) b := by
  rw [lower, h]
  exact if_neg hed.not_ge

theorem length_lower (b : ℕ) (l : List ℕ) : (lower b l).length = l.length := by
  induction l with
  | nil => rfl
  | cons d l ih =>
    rcases h : lower b l with _ | ⟨e, t⟩
    · rw [lower_cons_nil h, List.length_cons, List.length_cons, ← ih, h]
    · rw [h] at ih
      rcases le_or_gt d e with hde | hed
      · rw [lower_cons_le h hde, List.length_cons, ih, List.length_cons]
      · rw [lower_cons_gt h hed, List.length_cons, List.length_replicate, List.length_cons, ← ih,
          List.length_cons]

/-- What becomes of a digit in front: it is kept, unless the digit behind it has become a smaller one. -/
theorem lower_cons_cases (b d : ℕ) (l : List ℕ) :
    (l = [] ∧ lower b (d :: l) = [d]) ∨ ∃ e t, lower b l = e :: t ∧ t.length + 1 = l.length ∧
      (d ≤ e ∧ lower b (d :: l) = d :: e :: t ∨
        e < d ∧ lower b (d :: l) = (d - 1) :: List.replicate (t.length + 1) b) := by
  have hlen := length_lower b l
  rcases h : lower b l with _ | ⟨e, t⟩
  · rw [h, List.length_nil] at hlen
    exact Or.inl ⟨List.eq_nil_of_length_eq_zero hlen.symm, lower_cons_nil h⟩
  · rw [h, List.length_cons] at hlen
    refine Or.inr ⟨e, t, rfl, hlen, ?_⟩
    rcases le_or_gt d e with hde | hed
    · exact Or.inl ⟨hde, lower_cons_le h hde⟩
    · exact Or.inr ⟨hed, lower_cons_gt h hed⟩

theorem lower_le (hl : ∀ d ∈ l, d ≤ b) : ∀ d ∈ lower b l, d ≤ b := by
  induction l with
  | nil => exact hl
  | cons d l ih =>
    obtain ⟨hd, hl⟩ := List.forall_mem_cons.1 hl
    obtain ⟨-, heq⟩ | ⟨e, t, h, -, ⟨-, heq⟩ | ⟨-, heq⟩⟩ := lower_cons_cases b d l <;> rw [heq, List.forall_mem_cons]
    · exact ⟨hd, fun d' hd' => absurd hd' List.not_mem_nil⟩
    · exact ⟨hd, h ▸ ih hl⟩
    · exact ⟨(Nat.sub_le d 1).trans hd, fun d' hd' => (List.eq_of_mem_replicate hd').le⟩

theorem lower_nondecreasing (hl : ∀ d ∈ l, d ≤ b) : (lower b l).Pairwise (· ≤ ·) := by
  induction l with
  | nil => exact List.Pairwise.nil
  | cons d l ih =>
    obtain ⟨hd, hl⟩ := List.forall_mem_cons.1 hl
    obtain ⟨-, heq⟩ | ⟨e, t, h, -, ⟨hde, heq⟩ | ⟨-, heq⟩⟩ := lower_cons_cases b d l <;> rw [heq, List.pairwise_cons]
    · exact ⟨fun x hx => absurd hx List.not_mem_nil, List.Pairwise.nil⟩
    · have hrest := ih hl
      rw [h] at hrest
      refine ⟨List.forall_mem_cons.2 ⟨hde, fun x hx => ?_⟩, hrest⟩
      exact hde.trans ((List.pairwise_cons.1 hrest).1 x hx)
    · refine ⟨fun x hx => ?_, List.pairwise_replicate.2 (Or.inr le_rfl)⟩
      rw [List.eq_of_mem_replicate hx]
      exact (Nat.sub_le d 1).trans hd

theorem value_lower_le (b : ℕ) (l : List ℕ) : value (b + 1) (lower b l) ≤ value (b + 1) l := by
  induction l with
  | nil => exact le_rfl
  | cons d l ih =>
    obtain ⟨rfl, heq⟩ | ⟨e, t, h, hlen, ⟨-, heq⟩ | ⟨hed, heq⟩⟩ := lower_cons_cases b d l <;> rw [heq]
    · rw [← h, value_cons, value_cons (b + 1) d l, length_lower]
      exact Nat.add_le_add_left ih _
    · -- one less in front, and the greatest digits behind
      have hlast := value_replicate_last b (t.length + 1)
      rw [value_cons, value_cons (b + 1) d l, List.length_replicate, ← hlen]
      obtain ⟨c, rfl⟩ := Nat.exists_eq_succ_of_ne_zero (Nat.ne_of_gt (Nat.zero_lt_of_lt hed))
      rw [Nat.succ_sub_one, Nat.succ_mul]
      omega

/-- No other nondecreasing numeral of the length is between the two. -/
theorem value_le_lower {s : List ℕ} (hb : 0 < b) (hl : ∀ d ∈ l, d ≤ b) (hs : ∀ d ∈ s, d ≤ b)
    (hlen : s.length = l.length) (hsorted : s.Pairwise (· ≤ ·)) (hle : value (b + 1) s ≤ value (b + 1) l) :
    value (b + 1) s ≤ value (b + 1) (lower b l) := by
  induction l generalizing s with
  | nil => exact hle
  | cons d l ih =>
    obtain ⟨c, s, rfl⟩ := List.exists_cons_of_length_eq_add_one hlen
    have hbase : 1 < b + 1 := Nat.succ_lt_succ hb
    have hlen' : s.length = l.length := Nat.succ.inj hlen
    obtain ⟨-, hl'⟩ := List.forall_mem_cons.1 hl
    obtain ⟨-, hs'⟩ := List.forall_mem_cons.1 hs
    have hdigits : ∀ d' ∈ s, d' < b + 1 := fun d' hd' => Nat.lt_succ_of_le (hs' d' hd')
    have hcd : c ≤ d := head_le_of_value_le hbase (fun d' hd' => Nat.lt_succ_of_le (hl' d' hd')) hlen' hle
    obtain ⟨hc, hsorted'⟩ := List.pairwise_cons.1 hsorted
    -- if the first digits are the same, it depends on the rest
    have hrest : c = d → value (b + 1) s ≤ value (b + 1) (lower b l) := fun heq => by
      rw [heq, value_cons, value_cons (b + 1) d l, hlen'] at hle
      exact ih hl' hs' hlen' hsorted' (Nat.le_of_add_le_add_left hle)
    obtain ⟨rfl, heq⟩ | ⟨e, t, h, hlower, ⟨-, heq⟩ | ⟨hed, heq⟩⟩ := lower_cons_cases b d l <;> rw [heq]
    · exact hle
    · rw [← h]
      rcases hcd.lt_or_eq with hlt | rfl
      · exact (value_lt_of_head_lt hbase hdigits (by rw [hlen', length_lower]) hlt).le
      · rw [value_cons, value_cons (b + 1) c (lower b l), length_lower, hlen']
        exact Nat.add_le_add_left (hrest rfl) _
    · rcases hcd.lt_or_eq with hlt | rfl
      · have hlast := value_replicate_last b (t.length + 1)
        have hvalue := value_lt hbase hdigits
        have hmul : c * (b + 1) ^ l.length ≤ (d - 1) * (b + 1) ^ l.length := Nat.mul_le_mul_right _ (by omega)
        rw [hlen'] at hvalue
        rw [hlower] at hlast
        rw [value_cons, value_cons (b + 1) (d - 1), List.length_replicate, hlower, hlen']
        omega
      · -- the second digit would be below the first one
        obtain ⟨c', s, rfl⟩ := List.exists_cons_of_length_eq_add_one (hlen'.trans hlower.symm)
        have htail : ∀ d' ∈ t, d' < b + 1 := fun d' hd' =>
          Nat.lt_succ_of_le (lower_le hl' d' (h ▸ List.mem_cons_of_mem e hd'))
        have hlen'' : s.length = t.length := by rw [List.length_cons] at hlen'; omega
        have hce := head_le_of_value_le hbase htail hlen'' (h ▸ hrest rfl)
        have hcc := hc c' List.mem_cons_self
        omega

/-- The number with the digits of `lower` is the greatest one with nondecreasing digits that is not above the number. -/
theorem isGreatest_lower (hb : 0 < b) (hl : ∀ d ∈ l, d ≤ b) :
    IsGreatest {m | m ≤ value (b + 1) l ∧ (numeral (b + 1) m).Pairwise (· ≤ ·)} (value (b + 1) (lower b l)) := by
  have hbase : 1 < b + 1 := Nat.succ_lt_succ hb
  refine ⟨⟨value_lower_le b l, ?_⟩, fun m hm => ?_⟩
  · rw [numeral_value hbase fun d hd => Nat.lt_succ_of_le (lower_le hl d hd)]
    exact (lower_nondecreasing hl).sublist (List.dropWhile_sublist _)
  · -- with leading zeros a smaller number has as many digits
    obtain ⟨hle, hsorted⟩ := hm
    have hlen : (numeral (b + 1) m).length ≤ l.length := by
      unfold numeral
      rw [List.length_reverse, Nat.digits_length_le_iff hbase]
      exact hle.trans_lt (value_lt hbase fun d hd => Nat.lt_succ_of_le (hl d hd))
    have hvalue := value_replicate_zero_append (b + 1) (l.length - (numeral (b + 1) m).length) (numeral (b + 1) m)
    rw [value_numeral] at hvalue
    have hgreatest := value_le_lower
      (s := List.replicate (l.length - (numeral (b + 1) m).length) 0 ++ numeral (b + 1) m)
      hb hl ?_ ?_ ?_ (by rwa [hvalue])
    · rwa [hvalue] at hgreatest
    · intro d hd
      rcases List.mem_append.1 hd with hd | hd
      · rw [List.eq_of_mem_replicate hd]
        exact Nat.zero_le b
      · exact Nat.le_of_lt_succ (numeral_lt hbase d hd)
    · rw [List.length_append, List.length_replicate]
      omega
    · rw [List.pairwise_append]
      refine ⟨List.pairwise_replicate.2 (Or.inr le_rfl), hsorted, fun x hx y _ => ?_⟩
      rw [List.eq_of_mem_replicate hx]
      exact Nat.zero_le y

/-! ## Where the digits first decrease -/

theorem lower_of_nondecreasing (hl : l.Pairwise (· ≤ ·)) : lower b l = l := by
  induction l with
  | nil => rfl
  | cons d l ih =>
    obtain ⟨hd, hrest⟩ := List.pairwise_cons.1 hl
    have h := ih hrest
    rcases l with _ | ⟨e, t⟩
    · exact lower_cons_nil h
    · exact lower_cons_le h (hd e List.mem_cons_self)

theorem lower_head_le (h : lower b (d :: l) = e :: t) : e ≤ d := by
  obtain ⟨-, heq⟩ | ⟨e', t', -, -, ⟨-, heq⟩ | ⟨-, heq⟩⟩ := lower_cons_cases b d l <;> rw [heq] at h
  · exact (List.cons.inj h).1.ge
  · exact (List.cons.inj h).1.ge
  · exact (List.cons.inj h).1 ▸ Nat.sub_le d 1

/-- The digit before a smaller one, and the same digits before it: the first of them becomes less. -/
theorem lower_run {a c : ℕ} (hca : c < a) (k : ℕ) (post : List ℕ) :
    lower b (List.replicate (k + 1) a ++ c :: post) = (a - 1) :: List.replicate (k + 1 + post.length) b := by
  induction k with
  | zero =>
    have hlen := length_lower b (c :: post)
    rcases h : lower b (c :: post) with _ | ⟨e, t⟩
    · rw [h] at hlen
      cases hlen
    · rw [h, List.length_cons, List.length_cons] at hlen
      rw [List.replicate_one, List.singleton_append, lower_cons_gt h ((lower_head_le h).trans_lt hca), hlen]
      congr 2
      omega
  | succ k ih =>
    rw [List.replicate_succ, List.cons_append, lower_cons_gt ih (by omega), List.length_replicate]
    congr 2
    omega

/-- Smaller digits before them are kept. -/
theorem lower_append {pre : List ℕ} (hpre : pre.Pairwise (· ≤ ·)) (h : lower b l = e :: t) (hle : ∀ x ∈ pre, x ≤ e) :
    lower b (pre ++ l) = pre ++ e :: t := by
  induction pre with
  | nil => exact h
  | cons d pre ih =>
    obtain ⟨hd, hrest⟩ := List.pairwise_cons.1 hpre
    have hih := ih hrest fun x hx => hle x (List.mem_cons_of_mem d hx)
    rcases pre with _ | ⟨d', pre⟩
    · exact lower_cons_le hih (hle d List.mem_cons_self)
    · exact lower_cons_le hih (hd d' List.mem_cons_self)

end GoodGoodStudy.Lib
