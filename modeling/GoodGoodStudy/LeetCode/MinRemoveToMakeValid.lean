/-
1249. 移除无效的括号: brackets are deleted until what is left is balanced. For every bracket that closes nothing the first
closing bracket of what is left is deleted, which may be another one, and in the end the last opening brackets, as many
as are left open.
-/
import GoodGoodStudy.Lib.Brackets
import GoodGoodStudy.Lib.Loop
import GoodGoodStudy.Lib.Sequence

namespace GoodGoodStudy.LeetCode.MinRemoveToMakeValid

open GoodGoodStudy.Lib

/-- `res.remove(a)` -/
def remove (res : List Char) (a : Char) : Option (List Char) := if a ∈ res then some (res.erase a) else none

/-- A round of the first loop, with `res` and `stack`, whose top comes first. -/
def scan (st : List Char × List Char) (a : Char) : Option (List Char × List Char) := do
  let (res, stack) := st
  let res ← if stack = [] ∧ a = ')' then remove res a else some res
  let stack := if stack ≠ [] ∧ a = ')' then stack.tail else stack
  return (res, if a = '(' then '(' :: stack else stack)

/-- The second loop from the index in front of `j` down. -/
def strip : ℕ → ℕ → List Char → Option (List Char)
  | 0, _, res => some res
  | j + 1, num, res =>
    if num = 0 then some res
    else do
      if (← item? res j) = '(' then strip j (num - 1) (res.eraseIdx j)
      else strip j num res

def minRemoveToMakeValid (s : List Char) : Option (List Char) :=
  if s = [] then return s
  else do
    let (res, stack) ← s.foldlM scan (s, [])
    strip res.length stack.length res

example : minRemoveToMakeValid "a)b(c)d)(".toList = some "ab(cd)".toList := by decide

theorem open_ne_close : '(' ≠ ')' := by decide

/-! ## The two loops -/

/-- Behind the letters `pre`: the first `k` closing brackets of `s` are deleted. -/
structure Scanned (s pre : List Char) (k : ℕ) (st : List Char × List Char) : Prop where
  res : st.1 = strikeFirst ')' k s
  stack : st.2.length + pre.count ')' = pre.count '(' + k
  le : ∀ u, u <+: pre → u.count ')' ≤ u.count '(' + k
  reached : ∃ u, u <+: pre ∧ u.count ')' = u.count '(' + k

/-- The next letter, if it leaves the right stack. Another bracket is deleted only when the stack is empty. -/
theorem Scanned.next {s pre : List Char} {k k' : ℕ} {st st' : List Char × List Char} (h : Scanned s pre k st)
    (a : Char) (hk : k ≤ k') (hres : st'.1 = strikeFirst ')' k' s)
    (hstack : st'.2.length + (pre ++ [a]).count ')' = (pre ++ [a]).count '(' + k') (hempty : k' = k ∨ st'.2 = []) :
    Scanned s (pre ++ [a]) k' st' := by
  refine ⟨hres, hstack, fun u hu => ?_, ?_⟩
  · rcases List.prefix_concat_iff.1 hu with rfl | hu
    · omega
    · exact (h.le u hu).trans (Nat.add_le_add_left hk _)
  · rcases hempty with rfl | hempty
    · obtain ⟨u, hu, hreached⟩ := h.reached
      exact ⟨u, hu.trans (List.prefix_append pre [a]), hreached⟩
    · rw [hempty, List.length_nil, Nat.zero_add] at hstack
      exact ⟨pre ++ [a], List.prefix_rfl, hstack⟩

/-- A closing bracket that closes nothing is among what is left. -/
theorem Scanned.mem {s pre rest res : List Char} {k : ℕ} (hs : pre ++ ')' :: rest = s) (h : Scanned s pre k (res, [])) :
    ')' ∈ res := by
  have hres : res = strikeFirst ')' k s := h.res
  have hstack : 0 + pre.count ')' = pre.count '(' + k := h.stack
  have hcount : s.count ')' = pre.count ')' + (rest.count ')' + 1) := by simp [← hs]
  rw [hres, ← List.count_pos_iff, count_strikeFirst_self]
  omega

theorem scan_scanned {s pre rest : List Char} {a : Char} (hs : pre ++ a :: rest = s) {k : ℕ}
    {st : List Char × List Char} (h : Scanned s pre k st) :
    ∃ k' st', scan st a = some st' ∧ Scanned s (pre ++ [a]) k' st' := by
  obtain ⟨res, stack⟩ := st
  have hres : res = strikeFirst ')' k s := h.res
  have hstack : stack.length + pre.count ')' = pre.count '(' + k := h.stack
  by_cases hclose : a = ')'
  · subst hclose
    have hcount : (pre ++ [')']).count ')' = pre.count ')' + 1 ∧ (pre ++ [')']).count '(' = pre.count '(' := by simp
    by_cases hempty : stack = []
    · subst hempty
      -- the first closing bracket is deleted, which need not be this one
      have hmem := h.mem hs
      refine ⟨k + 1, (res.erase ')', []), ?_, h.next ')' (Nat.le_succ k) ?_ ?_ (Or.inr rfl)⟩
      · simp [scan, remove, hmem]
      · rw [hres, erase_strikeFirst]
      · rw [List.length_nil] at hstack ⊢
        omega
    · have hpos := List.length_pos_iff.2 hempty
      refine ⟨k, (res, stack.tail), ?_, h.next ')' le_rfl hres ?_ (Or.inl rfl)⟩
      · simp [scan, hempty]
      · rw [List.length_tail]
        omega
  · have hcount : (pre ++ [a]).count ')' = pre.count ')' := by simp [hclose]
    by_cases hopen : a = '('
    · subst hopen
      have hcount' : (pre ++ ['(']).count '(' = pre.count '(' + 1 := by simp
      refine ⟨k, (res, '(' :: stack), ?_, h.next '(' le_rfl hres ?_ (Or.inl rfl)⟩
      · simp [scan]
      · rw [List.length_cons]
        omega
    · have hcount' : (pre ++ [a]).count '(' = pre.count '(' := by simp [hopen]
      refine ⟨k, (res, stack), ?_, h.next a le_rfl hres ?_ (Or.inl rfl)⟩
      · simp [scan, hclose, hopen]
      · rw [hcount, hcount']
        exact hstack

theorem scan_all (s : List Char) : ∃ k st, s.foldlM scan (s, []) = some st ∧ Scanned s s k st := by
  have hinit : Scanned s [] 0 (s, []) :=
    ⟨by rw [strikeFirst], rfl, fun u hu => by rw [List.prefix_nil.1 hu]; exact le_rfl, [], List.prefix_rfl, rfl⟩
  have hstep : ∀ pre a rest st, pre ++ a :: rest = s → (∃ k, Scanned s pre k st) →
      ∃ st', scan st a = some st' ∧ ∃ k, Scanned s (pre ++ [a]) k st' := by
    rintro pre a rest st hs ⟨k, hst⟩
    obtain ⟨k', st', hscan, hst'⟩ := scan_scanned hs hst
    exact ⟨st', hscan, k', hst'⟩
  obtain ⟨st, hst, k, hscanned⟩ := exists_foldlM_split hstep s [] rfl ⟨0, hinit⟩
  exact ⟨k, st, hst, hscanned⟩

/-- The loop deletes the last opening brackets of the part that it passes. -/
theorem strip_eq (pre : List Char) (num : ℕ) (post : List Char) :
    strip pre.length num (pre.reverse ++ post) = some ((strikeFirst '(' num pre).reverse ++ post) := by
  induction pre generalizing num post with
  | nil => cases num <;> rfl
  | cons a pre ih =>
    rw [List.length_cons, strip, List.reverse_cons, List.append_assoc, List.singleton_append]
    cases num with
    | zero => simp [strikeFirst]
    | succ num =>
      have hitem : item? (pre.reverse ++ a :: post) pre.length = some a :=
        item?_append (by rw [List.length_reverse]) a post
      rw [if_neg (Nat.succ_ne_zero num), hitem, Option.bind_eq_bind, Option.bind_some, strikeFirst]
      by_cases ha : a = '('
      · have herase : (pre.reverse ++ a :: post).eraseIdx pre.length = pre.reverse ++ post := by
          rw [List.eraseIdx_append_of_length_le (by rw [List.length_reverse]), List.length_reverse, Nat.sub_self]
          rfl
        rw [if_pos ha, if_pos ha, herase, Nat.add_sub_cancel, ih]
      · rw [if_neg ha, if_neg ha, ih, List.reverse_cons, List.append_assoc, List.singleton_append]

/-! ## The result -/

def isLetter (a : Char) : Bool := a ≠ '(' ∧ a ≠ ')'

theorem minRemoveToMakeValid_eq (s : List Char) : ∃ k st, Scanned s s k st ∧
    minRemoveToMakeValid s = some (strikeFirst '(' st.2.length (strikeFirst ')' k s).reverse).reverse := by
  obtain ⟨k, ⟨res, stack⟩, hscan, h⟩ := scan_all s
  refine ⟨k, _, h, ?_⟩
  have hres : res = strikeFirst ')' k s := h.res
  have hstrip := strip_eq res.reverse stack.length []
  rw [List.length_reverse, List.reverse_reverse, List.append_nil, List.append_nil] at hstrip
  unfold minRemoveToMakeValid
  rw [← hres, ← hstrip]
  by_cases hnil : s = []
  · subst hnil
    cases hscan
    rfl
  · rw [if_neg hnil, hscan]
    rfl

/-- For every string only brackets are deleted, what is left is balanced, and nothing longer that is left by deletions
is balanced. -/
theorem minRemoveToMakeValid_longest (s : List Char) : ∃ res, minRemoveToMakeValid s = some res ∧ res.Sublist s ∧
    res.filter isLetter = s.filter isLetter ∧ Balanced '(' ')' res ∧
      ∀ t : List Char, t.Sublist s → Balanced '(' ')' t → t.length ≤ res.length := by
  obtain ⟨k, ⟨res, stack⟩, ⟨-, hstack, hle, p, hp, hreached⟩, heq⟩ := minRemoveToMakeValid_eq s
  dsimp only at hstack heq
  have hopen := open_ne_close
  have hcount : (strikeFirst ')' k s).count '(' = (strikeFirst ')' k s).count ')' + stack.length := by
    have hk : k ≤ s.count ')' := by
      have hprefix := hp.sublist.count_le ')'
      omega
    rw [count_strikeFirst_self, count_strikeFirst_of_ne hopen]
    omega
  refine ⟨_, heq, ?_, ?_, (climbs_strikeFirst hopen hle).balanced_strike hopen hcount, fun t hsub hbal => ?_⟩
  · have hsub := (strikeFirst_sublist '(' stack.length (strikeFirst ')' k s).reverse).reverse
    rw [List.reverse_reverse] at hsub
    exact hsub.trans (strikeFirst_sublist ')' k s)
  · rw [List.filter_reverse, filter_strikeFirst (by decide), List.filter_reverse, List.reverse_reverse,
      filter_strikeFirst (by decide)]
  · have hlength := hbal.length_le hopen hsub hp hreached (n := stack.length) (by omega)
    have h₁ : (strikeFirst ')' k s).length + k = s.length := by
      refine length_strikeFirst ?_
      have hprefix := hp.sublist.count_le ')'
      omega
    have h₂ := length_strikeFirst (a := '(') (n := stack.length) (l := (strikeFirst ')' k s).reverse) (by
      rw [List.count_reverse]
      omega)
    rw [List.length_reverse] at h₂ ⊢
    omega

end GoodGoodStudy.LeetCode.MinRemoveToMakeValid
