/-
Balanced words over an opening and a closing letter; other letters are passed over. A balanced word that ends with a
closing letter closes the opening one just before the longest balanced word in between, so the longest balanced word at
the end of a text is known from those at the ends of its beginnings.
-/
import Mathlib.Data.List.Basic
import Mathlib.Data.List.Infix
import Mathlib.Data.Nat.Notation

namespace GoodGoodStudy.Lib

variable {α : Type*} [DecidableEq α] {o c : α}

/-- No beginning closes more than it has opened. -/
def Climbs (o c : α) (w : List α) : Prop := ∀ u, u <+: w → u.count c ≤ u.count o

/-- What is opened is closed, and nothing else. -/
structure Balanced (o c : α) (w : List α) : Prop where
  climbs : Climbs o c w
  closed : w.count c = w.count o

variable {u v w q b : List α}

theorem climbs_nil : Climbs o c [] := by
  rintro u hu
  rw [List.prefix_nil.1 hu]
  exact le_rfl

theorem climbs_append : Climbs o c (v ++ w) ↔
    Climbs o c v ∧ ∀ u, u <+: w → v.count c + u.count c ≤ v.count o + u.count o := by
  constructor
  · intro h
    refine ⟨fun u hu => h u (hu.trans (List.prefix_append v w)), fun u hu => ?_⟩
    have hle := h (v ++ u) ((List.prefix_append_right_inj v).2 hu)
    rwa [List.count_append, List.count_append] at hle
  · rintro ⟨hv, hw⟩ u hu
    rcases List.prefix_or_prefix_of_prefix hu (List.prefix_append v w) with hu' | ⟨u', rfl⟩
    · exact hv u hu'
    · rw [List.count_append, List.count_append]
      exact hw u' ((List.prefix_append_right_inj v).1 hu)

theorem balanced_nil : Balanced o c [] := ⟨climbs_nil, rfl⟩

theorem Balanced.append (hv : Balanced o c v) (hw : Balanced o c w) : Balanced o c (v ++ w) := by
  refine ⟨climbs_append.2 ⟨hv.climbs, fun u hu => ?_⟩, ?_⟩
  · rw [hv.closed]
    exact Nat.add_le_add_left (hw.climbs u hu) _
  · rw [List.count_append, List.count_append, hv.closed, hw.closed]

/-- What is left of a balanced word without one at its end. -/
theorem Balanced.of_append_right (h : Balanced o c (v ++ w)) (hw : Balanced o c w) : Balanced o c v := by
  refine ⟨(climbs_append.1 h.climbs).1, ?_⟩
  have hclosed := h.closed
  rw [List.count_append, List.count_append, hw.closed] at hclosed
  exact Nat.add_right_cancel hclosed

/-- A letter between which and the end as much is closed as opened. -/
theorem exists_opening (hne : o ≠ c) {k : ℕ} (h : w.count c + k < w.count o) :
    ∃ x y, w = x ++ o :: y ∧ x.count o = x.count c + k ∧ Climbs o c y := by
  -- from the end: the letter is found in front of the last one, or it is the last one
  induction w using List.reverseRecOn with
  | nil => exact absurd h (Nat.not_lt_zero _)
  | append_singleton w a ih =>
    by_cases hw : w.count c + k < w.count o
    · obtain ⟨x, y, rfl, hx, hy⟩ := ih hw
      refine ⟨x, y ++ [a], by rw [List.append_assoc]; rfl, hx, climbs_append.2 ⟨hy, fun u hu => ?_⟩⟩
      rcases List.prefix_concat_iff.1 (show u <+: [] ++ [a] from hu) with rfl | hu
      · simp only [List.count_append, List.count_cons_self, List.count_cons_of_ne hne, List.nil_append] at h ⊢
        omega
      · rw [List.prefix_nil.1 hu]
        exact hy y List.prefix_rfl
    · have ha : a = o := by
        by_contra ha
        rw [List.count_append, List.count_append, List.count_singleton, List.count_singleton] at h
        simp only [beq_iff_eq, ha, if_false] at h
        omega
      subst ha
      have hcount : (w ++ [a]).count c = w.count c ∧ (w ++ [a]).count a = w.count a + 1 := by simp [hne]
      exact ⟨w, [], rfl, by omega, climbs_nil⟩

/-- The letter that is closed at the end of a balanced word. -/
theorem Balanced.exists_opening (hne : o ≠ c) (h : Balanced o c (w ++ [c])) :
    ∃ x y, w = x ++ o :: y ∧ Balanced o c x ∧ Balanced o c y := by
  have hclosed := h.closed
  have hcount : (w ++ [c]).count c = w.count c + 1 ∧ (w ++ [c]).count o = w.count o := by
    simp [Ne.symm hne]
  obtain ⟨x, y, rfl, hx, hy⟩ := Lib.exists_opening (k := 0) hne (w := w) (c := c) (by omega)
  have hsum : (x ++ o :: y).count c = x.count c + y.count c ∧ (x ++ o :: y).count o = x.count o + (y.count o + 1) := by
    simp [hne]
  have hclimbs := (climbs_append.1 (climbs_append.1 h.climbs).1).1
  exact ⟨x, y, rfl, ⟨hclimbs, by omega⟩, ⟨hy, by omega⟩⟩

theorem not_balanced_opening (hne : o ≠ c) : ¬ Balanced o c (w ++ [o]) := by
  intro h
  have hclosed := h.closed
  have hle := h.climbs w (List.prefix_append w [o])
  have hcount : (w ++ [o]).count c = w.count c ∧ (w ++ [o]).count o = w.count o + 1 := by
    simp [hne]
  omega

/-- A balanced word in brackets. -/
theorem Balanced.wrap (hne : o ≠ c) (h : Balanced o c w) : Balanced o c (o :: w ++ [c]) := by
  refine ⟨fun u hu => ?_, ?_⟩
  · rcases List.prefix_concat_iff.1 hu with rfl | hu
    · simp [hne, hne.symm, h.closed]
    · rcases List.prefix_cons_iff.1 hu with rfl | ⟨t, rfl, ht⟩
      · exact le_rfl
      · have hle := h.climbs t ht
        rw [List.count_cons_self, List.count_cons_of_ne hne]
        omega
  · simp [hne, hne.symm, h.closed]

/-! ## The longest balanced word at the end -/

/-- `b` is the longest balanced word at the end of `q ++ b`. -/
structure LongestEnd (o c : α) (q b : List α) : Prop where
  balanced : Balanced o c b
  longest : ∀ x, x <:+ q ++ b → Balanced o c x → x.length ≤ b.length

/-- Behind an opening letter there is none. -/
theorem longestEnd_opening (hne : o ≠ c) (w : List α) : LongestEnd o c (w ++ [o]) [] where
  balanced := balanced_nil
  longest x hx hbal := by
    rw [List.append_nil] at hx
    rcases List.suffix_concat_iff.1 hx with rfl | ⟨t, rfl, -⟩
    · exact le_rfl
    · exact absurd hbal (not_balanced_opening hne)

/-- A balanced word that the next closing letter ends begins before the opening letter in front of the longest one. -/
theorem LongestEnd.of_closing (hne : o ≠ c) (h : LongestEnd o c q b) {x : List α} (hx : x <:+ q ++ b ++ [c])
    (hbal : Balanced o c x) : x = [] ∨ ∃ q' y, q = q' ++ [o] ∧ x = y ++ o :: b ++ [c] ∧ y <:+ q' ∧ Balanced o c y := by
  rcases List.suffix_concat_iff.1 hx with rfl | ⟨t, rfl, ht⟩
  · exact Or.inl rfl
  · right
    obtain ⟨y, z, rfl, hy, hz⟩ := hbal.exists_opening hne
    obtain ⟨r, hr⟩ := ht
    -- what the letter closes is the longest one: between them no word that ends with an opening letter is balanced
    have hz' : z <:+ q ++ b := ⟨r ++ y ++ [o], by rw [← hr]; simp⟩
    obtain ⟨d, hd⟩ := List.suffix_of_suffix_length_le hz' (List.suffix_append q b) (h.longest z hz' hz)
    have hd' : Balanced o c d := (hd ▸ h.balanced).of_append_right hz
    have hsplit : r ++ y ++ [o] = q ++ d := by
      have heq : r ++ y ++ [o] ++ z = q ++ d ++ z := by rw [List.append_assoc q, hd, ← hr]; simp
      exact List.append_cancel_right heq
    rcases List.eq_nil_or_concat d with rfl | ⟨d', a, rfl⟩
    · rw [List.append_nil] at hsplit
      rw [List.nil_append] at hd
      subst hd
      exact ⟨r ++ y, y, hsplit.symm, rfl, List.suffix_append r y, hy⟩
    · rw [List.concat_eq_append, ← List.append_assoc] at hsplit
      obtain ⟨-, ha⟩ := List.append_inj' hsplit rfl
      rw [List.concat_eq_append, ← List.cons.inj ha |>.1] at hd'
      exact absurd hd' (not_balanced_opening hne)

/-- The next letter closes the opening one in front of the longest word. -/
theorem LongestEnd.close (hne : o ≠ c) {q' b' : List α} (h : LongestEnd o c (q' ++ b' ++ [o]) b)
    (h' : LongestEnd o c q' b') : LongestEnd o c q' (b' ++ (o :: b ++ [c])) where
  balanced := h'.balanced.append (h.balanced.wrap hne)
  longest x hx hbal := by
    have hx' : x <:+ q' ++ b' ++ [o] ++ b ++ [c] := by simpa using hx
    rcases h.of_closing hne hx' hbal with rfl | ⟨r, y, hr, rfl, hy, hybal⟩
    · exact Nat.zero_le _
    · obtain rfl := (List.append_inj' hr rfl).1
      have hle := h'.longest y hy hybal
      simp only [List.length_append, List.length_cons, List.length_nil]
      omega

/-- Without an opening letter in front of the longest word the next letter closes nothing. -/
theorem LongestEnd.stop (hne : o ≠ c) (h : LongestEnd o c q b) (hq : ∀ q', q ≠ q' ++ [o]) :
    LongestEnd o c (q ++ b ++ [c]) [] where
  balanced := balanced_nil
  longest x hx hbal := by
    rw [List.append_nil] at hx
    rcases h.of_closing hne hx hbal with rfl | ⟨q', -, hq', -⟩
    · exact le_rfl
    · exact absurd hq' (hq q')

theorem longestEnd_nil : LongestEnd o c [] ([] : List α) where
  balanced := balanced_nil
  longest x hx _ := by rw [List.suffix_nil.1 hx]

/-! ## Deleting letters -/

/-- Without the first `n` of these letters. -/
def strikeFirst (a : α) : ℕ → List α → List α
  | 0, l => l
  | _ + 1, [] => []
  | n + 1, b :: l => if b = a then strikeFirst a n l else b :: strikeFirst a (n + 1) l

section Strike

variable {a : α}

theorem strikeFirst_sublist (a : α) (n : ℕ) (l : List α) : (strikeFirst a n l).Sublist l := by
  fun_induction strikeFirst a n l with
  | case1 l => exact List.Sublist.refl l
  | case2 => exact List.Sublist.refl []
  | case3 n l ih => exact ih.cons a
  | case4 n b l hb ih => exact ih.cons_cons b

theorem count_strikeFirst_self (a : α) (n : ℕ) (l : List α) : (strikeFirst a n l).count a = l.count a - n := by
  fun_induction strikeFirst a n l with
  | case1 l => rfl
  | case2 => rw [List.count_nil, Nat.zero_sub]
  | case3 n l ih =>
    rw [ih, List.count_cons_self]
    omega
  | case4 n b l hb ih => rw [List.count_cons_of_ne hb, List.count_cons_of_ne hb, ih]

theorem filter_strikeFirst {p : α → Bool} (hp : p a = false) (n : ℕ) (l : List α) :
    (strikeFirst a n l).filter p = l.filter p := by
  fun_induction strikeFirst a n l with
  | case1 l => rfl
  | case2 => rfl
  | case3 n l ih => rw [ih, List.filter_cons_of_neg (by simp [hp])]
  | case4 n b l hb ih => rw [List.filter_cons, List.filter_cons, ih]

theorem count_strikeFirst_of_ne {b : α} (hb : b ≠ a) (n : ℕ) (l : List α) :
    (strikeFirst a n l).count b = l.count b := by
  have hfilter := congrArg List.length (filter_strikeFirst (p := (· == b)) (a := a) (by simpa using hb.symm) n l)
  rwa [← List.countP_eq_length_filter, ← List.countP_eq_length_filter] at hfilter

/-- One letter more. -/
theorem erase_strikeFirst (a : α) (n : ℕ) (l : List α) : (strikeFirst a n l).erase a = strikeFirst a (n + 1) l := by
  induction l generalizing n with
  | nil => cases n <;> rfl
  | cons b l ih =>
    by_cases hb : b = a
    · subst hb
      cases n with
      | zero => rw [strikeFirst, strikeFirst, if_pos rfl, List.erase_cons_head, strikeFirst]
      | succ n => rw [strikeFirst, if_pos rfl, strikeFirst, if_pos rfl, ih]
    · have herase : ∀ l : List α, (b :: l).erase a = b :: l.erase a := fun l => List.erase_cons_tail (by simpa using hb)
      cases n with
      | zero => rw [strikeFirst, strikeFirst, if_neg hb, herase, ← ih, strikeFirst]
      | succ n => rw [strikeFirst, if_neg hb, strikeFirst, if_neg hb, herase, ih]

/-- A beginning of what is left is what is left of a beginning. -/
theorem exists_of_prefix_strikeFirst {n : ℕ} {u l : List α} (hu : u <+: strikeFirst a n l) :
    ∃ v, v <+: l ∧ u = strikeFirst a n v := by
  induction l generalizing n u with
  | nil => exact ⟨[], List.prefix_rfl, by cases n <;> exact List.prefix_nil.1 hu⟩
  | cons b l ih =>
    cases n with
    | zero => exact ⟨u, hu, by rw [strikeFirst]⟩
    | succ n =>
      rw [strikeFirst] at hu
      by_cases hb : b = a
      · rw [if_pos hb] at hu
        obtain ⟨v, hv, rfl⟩ := ih hu
        exact ⟨b :: v, List.cons_prefix_cons.2 ⟨rfl, hv⟩, by rw [strikeFirst, if_pos hb]⟩
      · rw [if_neg hb] at hu
        rcases List.prefix_cons_iff.1 hu with rfl | ⟨t, rfl, ht⟩
        · exact ⟨[], List.nil_prefix, by rw [strikeFirst]⟩
        · obtain ⟨v, hv, rfl⟩ := ih ht
          exact ⟨b :: v, List.cons_prefix_cons.2 ⟨rfl, hv⟩, by rw [strikeFirst, if_neg hb]⟩

theorem length_strikeFirst {n : ℕ} {l : List α} (h : n ≤ l.count a) : (strikeFirst a n l).length + n = l.length := by
  fun_induction strikeFirst a n l with
  | case1 l => rfl
  | case2 => exact absurd h (Nat.not_succ_le_zero _)
  | case3 n l ih =>
    rw [List.count_cons_self] at h
    rw [List.length_cons, ← ih (Nat.le_of_succ_le_succ h), Nat.add_assoc]
  | case4 n b l hb ih =>
    rw [List.count_cons_of_ne hb] at h
    rw [List.length_cons, List.length_cons, ← ih h]
    omega

end Strike

section Minimal

variable {s t : List α} {k n : ℕ}

/-- If no beginning closes more than `k` letters too many, it is enough to delete the first `k` of those that close. -/
theorem climbs_strikeFirst (hne : o ≠ c) (h : ∀ u, u <+: s → u.count c ≤ u.count o + k) :
    Climbs o c (strikeFirst c k s) := by
  intro u hu
  obtain ⟨v, hv, rfl⟩ := exists_of_prefix_strikeFirst hu
  have hle := h v hv
  rw [count_strikeFirst_self, count_strikeFirst_of_ne hne]
  omega

/-- Seen from the end. -/
theorem balanced_of_suffixes (hclosed : w.count c = w.count o) (h : ∀ u, u <:+ w → u.count o ≤ u.count c) :
    Balanced o c w := by
  refine ⟨?_, hclosed⟩
  rintro u ⟨t, rfl⟩
  have hle := h t (List.suffix_append u t)
  rw [List.count_append, List.count_append] at hclosed
  omega

/-- If `n` letters are left open, it is enough to delete the last `n` of those that open. -/
theorem Climbs.balanced_strike (hne : o ≠ c) (h : Climbs o c s) (hn : s.count o = s.count c + n) :
    Balanced o c (strikeFirst o n s.reverse).reverse := by
  apply balanced_of_suffixes
  · rw [List.count_reverse, List.count_reverse, count_strikeFirst_self, count_strikeFirst_of_ne hne.symm,
      List.count_reverse, List.count_reverse]
    omega
  · intro u hu
    have hu' : u.reverse <+: strikeFirst o n s.reverse := by rwa [← List.reverse_suffix, List.reverse_reverse]
    obtain ⟨v, hv, hstrike⟩ := exists_of_prefix_strikeFirst hu'
    obtain ⟨p, hp⟩ : v.reverse <:+ s := by rwa [← List.reverse_prefix, List.reverse_reverse]
    have hclimb := h p ⟨_, hp⟩
    have hcount : s.count o = p.count o + v.count o ∧ s.count c = p.count c + v.count c := by
      rw [← hp, List.count_append, List.count_append, List.count_reverse, List.count_reverse]
      exact ⟨rfl, rfl⟩
    rw [← List.count_reverse, ← List.count_reverse (a := c), hstrike, count_strikeFirst_self,
      count_strikeFirst_of_ne hne.symm]
    omega

/-- The letters that a part leaves out are at least those of the two kinds. -/
theorem length_add_counts_le (hne : o ≠ c) (h : t.Sublist s) :
    t.length + s.count o + s.count c ≤ s.length + t.count o + t.count c := by
  induction h with
  | slnil => exact le_rfl
  | cons a _ ih =>
    rw [List.length_cons, List.count_cons, List.count_cons]
    have hnot : ¬ ((a == o) = true ∧ (a == c) = true) := by
      simp only [beq_iff_eq]
      rintro ⟨rfl, hc⟩
      exact hne hc
    split_ifs with ho hc
    · exact absurd ⟨ho, hc⟩ hnot
    · omega
    · omega
    · omega
  | cons_cons a _ ih =>
    rw [List.length_cons, List.length_cons, List.count_cons, List.count_cons, List.count_cons, List.count_cons]
    omega

/-- A balanced part leaves out what some beginning closes too much, and what is left open. -/
theorem Balanced.length_le (hne : o ≠ c) (h : Balanced o c t) (hsub : t.Sublist s) {p : List α} (hp : p <+: s)
    (hk : p.count c = p.count o + k) (hn : s.count o + k = s.count c + n) : t.length + k + n ≤ s.length := by
  obtain ⟨r, rfl⟩ := hp
  obtain ⟨t₁, t₂, rfl, h₁, h₂⟩ := List.sublist_append_iff.1 hsub
  have hlength := length_add_counts_le hne hsub
  have hclimb := (climbs_append.1 h.climbs).1 t₁ List.prefix_rfl
  have hopen := h₁.count_le o
  have hclose := h₂.count_le c
  have hclosed := h.closed
  simp only [List.count_append] at hclosed hlength hn
  omega

end Minimal

end GoodGoodStudy.Lib
