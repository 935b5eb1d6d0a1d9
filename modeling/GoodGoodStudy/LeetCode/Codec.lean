/-
The `Codec` of the exercise "serialize and deserialize a binary tree": the values in preorder with a mark
for every missing child, joined by commas. Deserialising what was serialised gives the tree back, so
different trees have different texts.

The text of an integer and the integer of a text are Python's; what the codec relies on is bundled with
them.
-/
import GoodGoodStudy.Lib.Search
import Mathlib.Data.Tree.Basic

namespace GoodGoodStudy.LeetCode.Codec

open GoodGoodStudy.Lib BinaryTree

/-- A node with its value and its children; `nil` is `None`. -/
abbrev TreeNode := BinaryTree Int

abbrev Text := List Char

def comma : Char := ','

/-- `"#"`. -/
def mark : Text := ['#']

/-- `str` of an integer and `int` of a text: no text of an integer is empty, has a comma or is the mark,
and `int` reads it back. A text that is not a number makes `int` raise `ValueError`. -/
structure IntText where
  str : Int → Text
  int : Text → Option Int
  str_ne_nil : ∀ n, str n ≠ []
  comma_notMem : ∀ n, comma ∉ str n
  str_ne_mark : ∀ n, str n ≠ mark
  int_str : ∀ n, int (str n) = some n

/-- The exceptions that `deserialize` raises: `next` at the end of the pieces, `int` on another text. -/
inductive Exc
  | stopIteration
  | valueError
  deriving DecidableEq, Repr

variable (text : IntText)

/-- `dfs` of `serialize`: what the call appends to `vals`. -/
def serializeDfs : TreeNode → List Text
  | node val left right => text.str val :: (serializeDfs left ++ serializeDfs right)
  | nil => [mark]

def serialize (root : TreeNode) : Text := [comma].intercalate (serializeDfs text root)

/-- `dfs` of `deserialize`: the tree, and the pieces that the iterator has left. -/
def deserializeDfs : (val : List Text) → Except Exc (TreeNode × {rest : List Text // rest.length < val.length})
  | [] => .error .stopIteration
  | v :: val =>
    if v = mark then .ok (nil, ⟨val, Nat.lt_succ_self _⟩)
    else
      match text.int v with
      | none => .error .valueError
      | some n =>
        match deserializeDfs val with
        | .error e => .error e
        | .ok (left, ⟨val₁, h₁⟩) =>
          match deserializeDfs val₁ with
          | .error e => .error e
          | .ok (right, ⟨val₂, h₂⟩) => .ok (node n left right, ⟨val₂, by simp only [List.length_cons]; omega⟩)
termination_by val => val.length
decreasing_by all_goals simp only [List.length_cons]; omega

def deserialize (data : Text) : Except Exc TreeNode := (deserializeDfs text (splitOnSub [comma] data)).map Prod.fst

/-! ## Round trip -/

theorem serializeDfs_ne_nil (t : TreeNode) : serializeDfs text t ≠ [] := by
  cases t <;> simp [serializeDfs]

theorem comma_notMem_serializeDfs (t : TreeNode) : ∀ v ∈ serializeDfs text t, comma ∉ v := by
  induction t with
  | nil =>
    intro v hv
    rw [List.mem_singleton.1 hv]
    decide
  | node val l r ihl ihr =>
    intro v hv
    rcases List.mem_cons.1 hv with rfl | hv
    · exact text.comma_notMem val
    · rcases List.mem_append.1 hv with hv | hv
      · exact ihl v hv
      · exact ihr v hv

/-- The descent reads a tree from the front of any pieces and leaves the others. -/
theorem deserializeDfs_serializeDfs (t : TreeNode) (rest : List Text) :
    ∃ h, deserializeDfs text (serializeDfs text t ++ rest) = .ok (t, ⟨rest, h⟩) := by
  induction t generalizing rest with
  | nil =>
    refine ⟨by simp [serializeDfs], ?_⟩
    simp [serializeDfs, deserializeDfs]
  | node val l r ihl ihr =>
    -- behind the value come the pieces of the left child, those of the right one, and the rest
    have hcons : serializeDfs text (node val l r) ++ rest =
        text.str val :: (serializeDfs text l ++ (serializeDfs text r ++ rest)) := by
      rw [serializeDfs, List.cons_append, List.append_assoc]
    obtain ⟨hl, hleft⟩ := ihl (serializeDfs text r ++ rest)
    obtain ⟨hr, hright⟩ := ihr rest
    rw [hcons]
    refine ⟨by simp only [List.length_cons]; omega, ?_⟩
    rw [deserializeDfs, if_neg (text.str_ne_mark val)]
    simp only [text.int_str, hleft, hright]

theorem deserialize_serialize (t : TreeNode) : deserialize text (serialize text t) = .ok t := by
  obtain ⟨h, hdfs⟩ := deserializeDfs_serializeDfs text t []
  have happ : serializeDfs text t = serializeDfs text t ++ [] := (List.append_nil _).symm
  unfold deserialize serialize
  rw [splitOnSub_intercalate (serializeDfs_ne_nil text t) (comma_notMem_serializeDfs text t), happ, hdfs]
  rfl

/-- Deserialising the text of a tree gives the tree back, and different trees have different texts. -/
theorem codec_roundTrip :
    (∀ t, deserialize text (serialize text t) = .ok t) ∧ Function.Injective (serialize text) := by
  refine ⟨deserialize_serialize text, fun t u h => ?_⟩
  have ht := deserialize_serialize text t
  rw [h, deserialize_serialize text u] at ht
  exact (Except.ok.inj ht).symm

/-! ## Python's texts of integers -/

/-- `str` of an integer. -/
def strInt : Int → Text
  | .ofNat n => Nat.toDigits 10 n
  | .negSucc n => '-' :: Nat.toDigits 10 (n + 1)

/-- `int` of a text of digits, with or without a minus sign. -/
def intText : Text → Option Int
  | [] => none
  | c :: s =>
    if c = '-' then
      if s ≠ [] ∧ s.all Char.isDigit then some (-(Nat.ofDigitChars 10 s 0 : Int)) else none
    else if (c :: s).all Char.isDigit then some (Nat.ofDigitChars 10 (c :: s) 0) else none

theorem isDigit_of_mem_toDigits {c : Char} {n : Nat} (h : c ∈ Nat.toDigits 10 n) : c.isDigit = true :=
  Nat.isDigit_of_mem_toDigits (by decide) (by decide) h

theorem all_isDigit_toDigits (n : Nat) : (Nat.toDigits 10 n).all Char.isDigit = true :=
  List.all_eq_true.2 fun _ h => isDigit_of_mem_toDigits h

/-- The texts that CPython gives, and reads back. -/
def pythonText : IntText where
  str := strInt
  int := intText
  str_ne_nil n := by
    cases n with
    | ofNat n => exact Nat.toDigits_ne_nil
    | negSucc n => exact List.cons_ne_nil _ _
  comma_notMem n := by
    cases n with
    | ofNat n => exact fun h => absurd (isDigit_of_mem_toDigits h) (by decide)
    | negSucc n =>
      intro h
      rcases List.mem_cons.1 h with h | h
      · exact absurd h (by decide)
      · exact absurd (isDigit_of_mem_toDigits h) (by decide)
  str_ne_mark n := by
    intro h
    cases n with
    | ofNat n =>
      have hmem : '#' ∈ Nat.toDigits 10 n := by
        rw [show Nat.toDigits 10 n = mark from h]
        exact List.mem_singleton_self _
      exact absurd (isDigit_of_mem_toDigits hmem) (by decide)
    | negSucc n => exact absurd (List.cons.inj h).1 (by decide)
  int_str n := by
    cases n with
    | ofNat n =>
      unfold strInt
      dsimp only
      cases hd : Nat.toDigits 10 n with
      | nil => exact absurd hd Nat.toDigits_ne_nil
      | cons c s =>
        have hall := all_isDigit_toDigits n
        have hval := Nat.ofDigitChars_ten_toDigits (n := n)
        rw [hd] at hall hval
        have hc : c ≠ '-' := by
          rintro rfl
          exact absurd (List.all_eq_true.1 hall '-' List.mem_cons_self) (by decide)
        rw [intText, if_neg hc, if_pos hall, hval]
        rfl
    | negSucc n =>
      have hval := Nat.ofDigitChars_ten_toDigits (n := n + 1)
      rw [strInt, intText, if_pos rfl, if_pos ⟨Nat.toDigits_ne_nil, all_isDigit_toDigits _⟩, hval]
      rfl

/-- With the texts of CPython. -/
theorem codec_roundTrip_python : deserialize pythonText (serialize pythonText (node 1 nil (node (-20) nil nil))) =
    .ok (node 1 nil (node (-20) nil nil)) :=
  (codec_roundTrip pythonText).1 _

example : serialize pythonText (node 1 nil (node (-20) nil nil)) = "1,#,-20,#,#".toList := by decide

end GoodGoodStudy.LeetCode.Codec
