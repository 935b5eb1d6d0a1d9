/-
The obfuscator's pass over the numeric literals: a literal becomes `cipherNum ^ key`, where the key is drawn at random
and `cipherNum` is `value ^ key`. The operator works on signed integers of 32 bits, so the pass keeps the value of a
literal exactly if it is an integer below 2 ^ 31; a fraction is cut off, and a greater number is wrapped around.
-/
import Mathlib.Data.Rat.Floor
import GoodGoodStudy.Js.Number

namespace GoodGoodStudy.Confound

open GoodGoodStudy.Js

/-! ## The pass -/

/-- The expressions as far as the pass sees them: the literals, the operator that it brings in, and other operators. -/
inductive Expression (Op : Type)
  | numericLiteral (value : Number)
  | xorExpression (left right : Expression Op)
  | operation (op : Op) (left right : Expression Op)

/-- `parseInt(Math.random() * (999999 - 100000) + 100000, 10)` -/
def drawKey (random : ℚ) : ℤ := ⌊random * (999999 - 100000) + 100000⌋

variable {Op : Type}

/-- The `NumericLiteral` visitor. -/
def visitNumericLiteral (value : Number) (random : ℚ) : Expression Op :=
  let key := Number.finite (drawKey random)
  let cipherNum := value.xor key
  .xorExpression (.numericLiteral cipherNum) (.numericLiteral key)

/-- The traversal. `Math.random()` gives the numbers of a sequence; the result is the new tree and how many were taken.
The literals of a new node are skipped. -/
def numericEncrypt (random : ℕ → ℚ) : Expression Op → ℕ → Expression Op × ℕ
  | .numericLiteral value, i => (visitNumericLiteral value (random i), i + 1)
  | .xorExpression left right, i =>
    let (left, i) := numericEncrypt random left i
    let (right, i) := numericEncrypt random right i
    (.xorExpression left right, i)
  | .operation op left right, i =>
    let (left, i) := numericEncrypt random left i
    let (right, i) := numericEncrypt random right i
    (.operation op left right, i)

/-- The value of an expression, where `apply` says what the other operators do. -/
def Expression.eval (apply : Op → Number → Number → Number) : Expression Op → Number
  | .numericLiteral value => value
  | .xorExpression left right => (left.eval apply).xor (right.eval apply)
  | .operation op left right => apply op (left.eval apply) (right.eval apply)

/-! ## What is kept -/

/-- The key is one of the numbers with six digits. -/
theorem drawKey_mem {random : ℚ} (h0 : 0 ≤ random) (h1 : random < 1) :
    100000 ≤ drawKey random ∧ drawKey random < 999999 := by
  unfold drawKey
  rw [Int.le_floor, Int.floor_lt]
  constructor
  · push_cast
    linarith
  · push_cast
    linarith

/-- An integer that fits into 31 bits. -/
def Fits (value : Number) : Prop := ∃ n : ℕ, value = .finite n ∧ n < 2 ^ 31

variable (apply : Op → Number → Number → Number)

theorem eval_visitNumericLiteral (value : Number) (random : ℚ) :
    (visitNumericLiteral value random).eval apply = Number.ofInt32 value.toInt32 :=
  Number.xor_xor value _

/-- A literal keeps its value, exactly if it fits into 31 bits, whatever key is drawn. -/
theorem eval_numericLiteral_eq_iff (random : ℕ → ℚ) (i : ℕ) {value : Number} (hvalue : value.NonNeg) :
    (numericEncrypt random (.numericLiteral value) i).1.eval apply = value ↔ Fits value := by
  unfold numericEncrypt
  rw [eval_visitNumericLiteral]
  exact Number.ofInt32_toInt32_eq_iff hvalue

theorem eval_numericLiteral_eq_iff_five :
    (numericEncrypt (fun _ => 1 / 2) (.numericLiteral (.finite 5)) 0).1.eval (fun (_ : Unit) a _ => a) = .finite 5 ↔
      Fits (.finite 5) :=
  eval_numericLiteral_eq_iff _ _ 0 (by decide)

/-- The first number that is wrapped around. -/
theorem eval_numericLiteral_wraps :
    (numericEncrypt (fun _ => 1 / 2) (.numericLiteral (.finite 2147483648)) 0).1.eval (fun (_ : Unit) a _ => a) =
      .finite (-2147483648) ∧
    (numericEncrypt (fun _ => 1 / 2) (.numericLiteral (.finite 2147483648)) 0).1.eval (fun (_ : Unit) a _ => a) ≠
      .finite 2147483648 := by
  have hbits : (Number.finite 2147483648).toInt32 = BitVec.ofInt 32 2147483648 := Number.toInt32_intCast 2147483648
  have heval : (numericEncrypt (fun _ => 1 / 2) (.numericLiteral (.finite 2147483648)) 0).1.eval
      (fun (_ : Unit) a _ => a) = .finite (-2147483648) := by
    unfold numericEncrypt
    rw [eval_visitNumericLiteral, hbits]
    rfl
  refine ⟨heval, fun heq => ?_⟩
  rw [heval] at heq
  exact absurd (Number.finite.inj heq) (by norm_num)

/-! ## The whole tree -/

/-- The literals of an expression. -/
def Expression.literals : Expression Op → List Number
  | .numericLiteral value => [value]
  | .xorExpression left right => left.literals ++ right.literals
  | .operation _ left right => left.literals ++ right.literals

/-- The pass keeps the value of an expression, if all its literals fit into 31 bits. -/
theorem eval_numericEncrypt (random : ℕ → ℚ) {e : Expression Op} (h : ∀ value ∈ e.literals, Fits value) (i : ℕ) :
    (numericEncrypt random e i).1.eval apply = e.eval apply := by
  induction e generalizing i with
  | numericLiteral value =>
    have hfits := h value (List.mem_singleton_self value)
    have hvalue : value.NonNeg := by
      obtain ⟨n, rfl, -⟩ := hfits
      exact Nat.cast_nonneg n
    unfold numericEncrypt
    rw [eval_visitNumericLiteral]
    exact (Number.ofInt32_toInt32_eq_iff hvalue).2 hfits
  | xorExpression left right ihl ihr =>
    unfold Expression.literals at h
    unfold numericEncrypt
    simp only [Expression.eval, ihl fun value hv => h value (List.mem_append_left _ hv),
      ihr fun value hv => h value (List.mem_append_right _ hv)]
  | operation op left right ihl ihr =>
    unfold Expression.literals at h
    unfold numericEncrypt
    simp only [Expression.eval, ihl fun value hv => h value (List.mem_append_left _ hv),
      ihr fun value hv => h value (List.mem_append_right _ hv)]

end GoodGoodStudy.Confound
