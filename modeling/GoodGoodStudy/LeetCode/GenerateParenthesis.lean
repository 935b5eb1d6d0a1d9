/-
The three `generateParenthesis` of the exercise 22. A bracket is opened while there are some left and closed while one
is open; one function works on a path that it puts back, two pass strings. They return the Dyck words.
-/
import Mathlib.Combinatorics.Enumerative.DyckWord
import GoodGoodStudy.Lib.Backtrack

namespace GoodGoodStudy.LeetCode.GenerateParenthesis

open GoodGoodStudy.Lib DyckStep

abbrev Text := List Char

/-- `dfs` with `path` and `res`, which its calls share. -/
def dfs (n left_n right_n : ℕ) (s : Text × List Text) : Text × List Text :=
  let s := if left_n = n ∧ right_n = n then (s.1, s.2 ++ [s.1]) else s
  let s :=
    if left_n < n then
      let s := dfs n (left_n + 1) right_n (s.1 ++ ['('], s.2)
      (s.1.dropLast, s.2)
    else s
  if right_n < left_n then
    let s := dfs n left_n (right_n + 1) (s.1 ++ [')'], s.2)
    (s.1.dropLast, s.2)
  else s
termination_by 2 * (n - left_n) + (left_n - right_n)

/-- The strings that a call appends to `res`. -/
def generate (n left right : ℕ) (s : Text) (res : List Text) : List Text :=
  if right = n ∧ left = n then res ++ [s]
  else
    let res := if left < n then generate n (left + 1) right (s ++ ['(']) res else res
    if right < left then generate n left (right + 1) (s ++ [')']) res else res
termination_by 2 * (n - left) + (left - right)

namespace Search

def generateParenthesis (n : ℕ) : List Text := if n = 0 then [] else (dfs n 0 0 ([], [])).2

def generateParenthesis2 (n : ℕ) : List Text := if n = 0 then [] else generate n 0 0 [] []

end Search

namespace Recursion

def generateParenthesis (n : ℕ) : List Text := if n = 0 then [] else generate n 0 0 [] []

end Recursion

/-! ## Words of steps up and down -/

def bracket : DyckStep → Char
  | U => '('
  | D => ')'

theorem bracket_injective : Function.Injective bracket := by
  intro a b h
  cases a <;> cases b <;> first | rfl | exact absurd h (by decide)

/-- A bracket may be opened while fewer than `n` are, and closed while one is open. -/
def Fits (n : ℕ) (w : List DyckStep) : DyckStep → Prop
  | U => w.count U < n
  | D => w.count D < w.count U

instance (n : ℕ) (w : List DyckStep) : DecidablePred (Fits n w)
  | U => inferInstanceAs (Decidable (w.count U < n))
  | D => inferInstanceAs (Decidable (w.count D < w.count U))

/-- What the searches find behind a word. -/
abbrev words (n left : ℕ) (w : List DyckStep) : List (List DyckStep) := extensions (Fits n) [U, D] left w

theorem count_add_count (w : List DyckStep) : w.count U + w.count D = w.length := by
  induction w with
  | nil => rfl
  | cons a w ih =>
    cases a <;> simp <;> omega

/-- At most `n` brackets are opened, and not more closed than opened. -/
structure Fit (n : ℕ) (w : List DyckStep) : Prop where
  up_le : w.count U ≤ n
  down_le : w.count D ≤ w.count U

theorem fit_nil (n : ℕ) : Fit n [] := ⟨Nat.zero_le n, Nat.le_refl 0⟩

theorem Fit.concat_iff {n : ℕ} {w : List DyckStep} (h : Fit n w) (a : DyckStep) : Fit n (w ++ [a]) ↔ Fits n w a := by
  have hup := h.up_le
  have hdown := h.down_le
  cases a with
  | U =>
    have hcount : (w ++ [U]).count U = w.count U + 1 ∧ (w ++ [U]).count D = w.count D := by simp
    unfold Fits
    refine ⟨fun h => ?_, fun hlt => ⟨by omega, by omega⟩⟩
    have hle := h.up_le
    omega
  | D =>
    have hcount : (w ++ [D]).count U = w.count U ∧ (w ++ [D]).count D = w.count D + 1 := by simp
    unfold Fits
    refine ⟨fun h => ?_, fun hlt => ⟨by omega, by omega⟩⟩
    have hle := h.down_le
    omega

theorem allowed_iff_fit {n : ℕ} {pre suf : List DyckStep} (h : Fit n pre) :
    Allowed (Fits n) pre suf ↔ ∀ u, u <+: suf → Fit n (pre ++ u) := by
  induction suf generalizing pre with
  | nil =>
    apply iff_of_true trivial
    intro u hu
    rw [List.prefix_nil.1 hu, List.append_nil]
    exact h
  | cons a suf ih =>
    unfold Allowed
    constructor
    · rintro ⟨ha, hsuf⟩ u hu
      rcases List.prefix_cons_iff.1 hu with rfl | ⟨v, rfl, hv⟩
      · rwa [List.append_nil]
      · have hfit := (ih ((h.concat_iff a).2 ha)).1 hsuf v hv
        rwa [List.append_assoc] at hfit
    · intro hall
      have ha : Fit n (pre ++ [a]) := hall [a] (List.prefix_append [a] suf)
      refine ⟨(h.concat_iff a).1 ha, (ih ha).2 fun u hu => ?_⟩
      rw [List.append_assoc]
      exact hall (a :: u) (List.cons_prefix_cons.2 ⟨rfl, hu⟩)

theorem mem_words {n : ℕ} {w : List DyckStep} :
    w ∈ words n (2 * n) [] ↔ ∃ d : DyckWord, d.semilength = n ∧ d.toList = w := by
  rw [mem_extensions]
  constructor
  · rintro ⟨suf, hw, hlen, -, hallowed⟩
    rw [hw]
    have hfit := (allowed_iff_fit (fit_nil n)).1 hallowed
    have hsum := count_add_count suf
    have hup := (hfit suf List.prefix_rfl).up_le
    have hdown := (hfit suf List.prefix_rfl).down_le
    rw [List.nil_append] at hup hdown
    refine ⟨⟨suf, by omega, fun i => (hfit _ (List.take_prefix i suf)).down_le⟩, ?_, rfl⟩
    change suf.count U = n
    omega
  · rintro ⟨d, rfl, rfl⟩
    refine ⟨d.toList, rfl, d.two_mul_semilength_eq_length.symm, fun a _ => by cases a <;> simp, ?_⟩
    refine (allowed_iff_fit (fit_nil _)).2 fun u hu => ⟨hu.sublist.count_le _, ?_⟩
    have hprefix := d.count_D_le_count_U u.length
    rwa [← List.prefix_iff_eq_take.1 hu] at hprefix

theorem nodup_words (n left : ℕ) (w : List DyckStep) : (words n left w).Nodup :=
  nodup_extensions _ _ (by decide) left w

/-! ## The searches -/

/-- The texts of the words behind a word. -/
def texts (n left : ℕ) (w : List DyckStep) : List Text := (words n left w).map (List.map bracket)

theorem texts_zero (n : ℕ) (w : List DyckStep) : texts n 0 w = [w.map bracket] := rfl

theorem texts_succ (n left : ℕ) (w : List DyckStep) : texts n (left + 1) w =
    (if w.count U < n then texts n left (w ++ [U]) else []) ++
      (if w.count D < w.count U then texts n left (w ++ [D]) else []) := by
  unfold texts
  rw [words, extensions, List.flatMap_cons, List.flatMap_singleton, List.map_append]
  congr 1
  · exact apply_ite (List.map (List.map bracket)) (w.count U < n) _ _
  · exact apply_ite (List.map (List.map bracket)) (w.count D < w.count U) _ _

/-- When both kinds of brackets are used up. -/
theorem Fit.all_used {n : ℕ} {w : List DyckStep} (h : Fit n w) :
    (w.count U = n ∧ w.count D = n) ↔ w.length = 2 * n := by
  have hsum := count_add_count w
  have hup := h.up_le
  have hdown := h.down_le
  omega

theorem generate_eq {n left : ℕ} {w : List DyckStep} (h : Fit n w) (hlen : w.length + left = 2 * n) (res : List Text) :
    generate n (w.count U) (w.count D) (w.map bracket) res = res ++ texts n left w := by
  induction left generalizing w res with
  | zero =>
    have hend := h.all_used.2 hlen
    rw [generate, if_pos hend.symm, texts_zero]
  | succ left ih =>
    have hgo := mt h.all_used.1 (by omega)
    rw [generate, if_neg (mt And.symm hgo), texts_succ]
    have hup : w.count U < n → ∀ res, generate n (w.count U + 1) (w.count D) (w.map bracket ++ ['(']) res =
        res ++ texts n left (w ++ [U]) := by
      intro hlt res
      have hcall := ih ((h.concat_iff U).2 hlt) (by simp; omega) res
      simpa [bracket] using hcall
    have hdown : w.count D < w.count U → ∀ res, generate n (w.count U) (w.count D + 1) (w.map bracket ++ [')']) res =
        res ++ texts n left (w ++ [D]) := by
      intro hlt res
      have hcall := ih ((h.concat_iff D).2 hlt) (by simp; omega) res
      simpa [bracket] using hcall
    split_ifs with hopen hclose hclose
    · simp only [hup hopen, hdown hclose, List.append_assoc]
    · simp only [hup hopen, List.append_nil]
    · simp only [hdown hclose, List.nil_append]
    · simp only [List.append_nil]

theorem dfs_eq {n left : ℕ} {w : List DyckStep} (h : Fit n w) (hlen : w.length + left = 2 * n) (res : List Text) :
    dfs n (w.count U) (w.count D) (w.map bracket, res) = (w.map bracket, res ++ texts n left w) := by
  induction left generalizing w res with
  | zero =>
    have hend := h.all_used.2 hlen
    rw [dfs, if_pos hend, texts_zero, if_neg (by omega), if_neg (by omega)]
  | succ left ih =>
    have hgo := mt h.all_used.1 (by omega)
    rw [dfs, if_neg hgo, texts_succ]
    have hup : w.count U < n → ∀ res, dfs n (w.count U + 1) (w.count D) (w.map bracket ++ ['('], res) =
        (w.map bracket ++ ['('], res ++ texts n left (w ++ [U])) := by
      intro hlt res
      have hcall := ih ((h.concat_iff U).2 hlt) (by simp; omega) res
      simpa [bracket] using hcall
    have hdown : w.count D < w.count U → ∀ res, dfs n (w.count U) (w.count D + 1) (w.map bracket ++ [')'], res) =
        (w.map bracket ++ [')'], res ++ texts n left (w ++ [D])) := by
      intro hlt res
      have hcall := ih ((h.concat_iff D).2 hlt) (by simp; omega) res
      simpa [bracket] using hcall
    split_ifs with hclose hopen hopen
    · simp only [hup hopen, hdown hclose, List.dropLast_concat, List.append_assoc]
    · simp only [hdown hclose, List.dropLast_concat, List.nil_append]
    · simp only [hup hopen, List.dropLast_concat, List.append_nil]
    · simp only [List.append_nil]

/-- Each Dyck word with `n` pairs is there once, and nothing else. -/
def DyckWords (n : ℕ) (res : List Text) : Prop :=
  res.Nodup ∧ ∀ s, s ∈ res ↔ ∃ d : DyckWord, d.semilength = n ∧ d.toList.map bracket = s

theorem dyckWords_texts (n : ℕ) : DyckWords n (texts n (2 * n) []) := by
  refine ⟨(nodup_words n (2 * n) []).map (List.map_injective_iff.2 bracket_injective), fun s => ?_⟩
  unfold texts
  rw [List.mem_map]
  constructor
  · rintro ⟨w, hw, rfl⟩
    obtain ⟨d, hd, rfl⟩ := mem_words.1 hw
    exact ⟨d, hd, rfl⟩
  · rintro ⟨d, hd, rfl⟩
    exact ⟨d.toList, mem_words.2 ⟨d, hd, rfl⟩, rfl⟩

/-- The three functions return the Dyck words with `n` pairs of brackets, if there is a pair. -/
theorem generateParenthesis_dyckWords (n : ℕ) (hn : 1 ≤ n) : DyckWords n (Search.generateParenthesis n) ∧
    DyckWords n (Search.generateParenthesis2 n) ∧ DyckWords n (Recursion.generateParenthesis n) := by
  have hne : n ≠ 0 := Nat.one_le_iff_ne_zero.1 hn
  have hdfs := dfs_eq (fit_nil n) (Nat.zero_add (2 * n)) []
  have hgenerate := generate_eq (fit_nil n) (Nat.zero_add (2 * n)) []
  unfold Search.generateParenthesis Search.generateParenthesis2 Recursion.generateParenthesis
  rw [if_neg hne, if_neg hne]
  simp only [List.count_nil, List.map_nil, List.nil_append] at hdfs hgenerate
  rw [hdfs, hgenerate]
  exact ⟨dyckWords_texts n, dyckWords_texts n, dyckWords_texts n⟩

theorem generateParenthesis_dyckWords_one : 1 ≤ 1 ∧ DyckWords 1 (Search.generateParenthesis 1) :=
  ⟨le_rfl, (generateParenthesis_dyckWords 1 le_rfl).1⟩

end GoodGoodStudy.LeetCode.GenerateParenthesis
