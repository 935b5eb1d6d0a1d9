/-
The arithmetic of Base64: bytes regrouped as numbers of six bits, the number of padding characters, and
the way back. What is left of a group of three bytes is filled up with zero bits.
-/
import Mathlib.Data.List.Basic

namespace GoodGoodStudy.Lib

/-- The six bit numbers of a list of bytes. -/
def sextets : List Nat → List Nat
  | [] => []
  | [a] => [a / 4, a % 4 * 16]
  | [a, b] => [a / 4, a % 4 * 16 + b / 16, b % 16 * 4]
  | a :: b :: c :: rest => a / 4 :: (a % 4 * 16 + b / 16) :: (b % 16 * 4 + c / 64) :: c % 64 :: sextets rest

/-- The bytes of a list of six bit numbers; bits that do not fill a byte are dropped. -/
def octets : List Nat → List Nat
  | a :: b :: c :: d :: rest => (a * 4 + b / 16) :: (b % 16 * 16 + c / 4) :: (c % 4 * 64 + d) :: octets rest
  | [a, b, c] => [a * 4 + b / 16, b % 16 * 16 + c / 4]
  | [a, b] => [a * 4 + b / 16]
  | _ => []

/-- The number of padding characters behind `n` bytes. -/
def padding (n : Nat) : Nat := (3 - n % 3) % 3

theorem octets_sextets : ∀ {l : List Nat}, (∀ b ∈ l, b < 256) → octets (sextets l) = l
  | [], _ => rfl
  | [a], h => by
    have ha := h a (by simp)
    simp only [sextets, octets, List.cons.injEq, and_true]
    omega
  | [a, b], h => by
    have ha := h a (by simp)
    have hb := h b (by simp)
    simp only [sextets, octets, List.cons.injEq, and_true]
    omega
  | a :: b :: c :: rest, h => by
    have ha := h a (by simp)
    have hb := h b (by simp)
    have hc := h c (by simp)
    have ih := octets_sextets fun d hd => h d (List.mem_cons_of_mem a (List.mem_cons_of_mem b (List.mem_cons_of_mem c hd)))
    simp only [sextets, octets, List.cons.injEq, ih, and_true]
    omega

theorem sextets_lt : ∀ {l : List Nat}, (∀ b ∈ l, b < 256) → ∀ x ∈ sextets l, x < 64
  | [], _ => by simp [sextets]
  | [a], h => by
    have ha := h a (by simp)
    simp only [sextets, List.forall_mem_cons]
    exact ⟨by omega, by omega, List.forall_mem_nil _⟩
  | [a, b], h => by
    have ha := h a (by simp)
    have hb := h b (by simp)
    simp only [sextets, List.forall_mem_cons]
    exact ⟨by omega, by omega, by omega, List.forall_mem_nil _⟩
  | a :: b :: c :: rest, h => by
    have ha := h a (by simp)
    have hb := h b (by simp)
    have hc := h c (by simp)
    have ih := sextets_lt fun d hd => h d (List.mem_cons_of_mem a (List.mem_cons_of_mem b (List.mem_cons_of_mem c hd)))
    simp only [sextets, List.forall_mem_cons]
    exact ⟨by omega, by omega, by omega, by omega, ih⟩

/-- With the padding the length is a multiple of four, and without it never one more than that. -/
theorem length_sextets : ∀ l : List Nat, ((sextets l).length + padding l.length) % 4 = 0 ∧ (sextets l).length % 4 ≠ 1
  | [] => ⟨rfl, by decide⟩
  | [_] => ⟨by simp [sextets, padding], by simp [sextets]⟩
  | [_, _] => ⟨by simp [sextets, padding], by simp [sextets]⟩
  | a :: b :: c :: rest => by
    obtain ⟨ih, ih'⟩ := length_sextets rest
    unfold padding at ih ⊢
    simp only [sextets, List.length_cons]
    omega

theorem padding_le (n : Nat) : padding n ≤ 2 := by
  unfold padding
  omega

end GoodGoodStudy.Lib
