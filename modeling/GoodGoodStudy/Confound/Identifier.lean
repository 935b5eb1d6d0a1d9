/-
The names that the obfuscator gives to identifiers: a number in base 3 with the digits `O`, `o` and `0`. Short ones are
filled with `O` up to six letters, and a long one that would begin with `0` gets another `O`. The letter `O` is the
digit zero, so both only put zeros in front, and different numbers keep different names.
-/
import GoodGoodStudy.Js.Text
import GoodGoodStudy.Lib.Fresh
import GoodGoodStudy.Lib.Numeral

namespace GoodGoodStudy.Confound

open GoodGoodStudy.Js GoodGoodStudy.Lib

/-! ## The passes -/

namespace Identifier

/-- What the loop pushes, the last digit first. -/
def retval (decNum : ℕ) : List ℕ := if decNum > 0 then decNum % 3 :: retval (decNum / 3) else []
termination_by decNum
decreasing_by omega

/-- `s.substr(-n)` -/
def substrLast (n : ℕ) (s : JsString) : JsString := s.drop (s.length - n)

/-- The body of the function, which both files have; `arr[v]` that is not there is joined as the empty string. -/
def generate (arr : List JsString) (decNum : ℕ) : JsString :=
  let identifier := (retval decNum).reverse.flatMap fun v => arr.getD v []
  if identifier.length < 6 then substrLast 6 (text "OOOOOO" ++ identifier)
  else if charAt identifier 0 = text "0" then text "O" ++ identifier
  else identifier

end Identifier

/-- In all.js. -/
def generatorIdentifier (decNum : ℕ) : JsString := Identifier.generate [text "O", text "o", text "0"] decNum

/-- In the pass that only renames. -/
def generateIdentifier (decNum : ℕ) : JsString := Identifier.generate [text "O", text "o", text "0"] decNum

/-- The loop over the own bindings of a scope: the new name of each of them, from a counter that goes on. -/
def renameOwnBinding (generate : ℕ → JsString) (ownBinding globalBinding : List JsString) (fuel : ℕ) :
    Option (List (JsString × JsString)) := do
  let (renamed, _) ← ownBinding.foldlM
    (fun (s : List (JsString × JsString) × ℕ) oldName => do
      let (newName, i) ← loop
        (fun i => if globalBinding.contains (generate i) then .again (i + 1) else .leave (generate i, i + 1)) fuel s.2
      some (s.1 ++ [(oldName, newName)], i)) ([], 0)
  some renamed

namespace Identifier

/-- The letter of a digit. -/
def letter (d : ℕ) : UInt16 := if d = 0 then 79 else if d = 1 then 111 else 48

def digit (c : UInt16) : ℕ := if c = 79 then 0 else if c = 111 then 1 else 2

theorem digit_letter {d : ℕ} (hd : d < 3) : digit (letter d) = d := by
  interval_cases d <;> rfl

theorem retval_eq (n : ℕ) : retval n = Nat.digits 3 n := by
  induction n using Nat.strong_induction_on with
  | _ n ih =>
    rw [retval]
    split_ifs with hn
    · rw [ih (n / 3) (by omega), Nat.digits_def' (by decide) hn]
    · rw [Nat.eq_zero_of_not_pos hn, Nat.digits_zero]

/-- The letters of the digits, one after the other. -/
theorem flatMap_retval (n : ℕ) :
    (retval n).reverse.flatMap (fun v => [text "O", text "o", text "0"].getD v []) = (numeral 3 n).map letter := by
  rw [retval_eq, ← numeral]
  have hlt : ∀ d ∈ numeral 3 n, d < 3 := numeral_lt (by decide)
  generalize numeral 3 n = l at hlt
  induction l with
  | nil => rfl
  | cons d l ih =>
    obtain ⟨hd, hl⟩ := List.forall_mem_cons.1 hlt
    have hletter : [text "O", text "o", text "0"].getD d [] = [letter d] := by
      interval_cases d <;> rfl
    rw [List.flatMap_cons, hletter, ih hl, List.map_cons, List.singleton_append]

/-- Zeros are put in front; if there are none, the first letter is not that of the digit 2. -/
theorem exists_generate (n : ℕ) : ∃ k, generate [text "O", text "o", text "0"] n =
    (List.replicate k 0 ++ numeral 3 n).map letter ∧ (k = 0 → ∃ d rest, numeral 3 n = d :: rest ∧ d ≠ 2) := by
  unfold generate
  simp only [flatMap_retval, List.length_map]
  split_ifs with hshort hzero
  · have hzeros : text "OOOOOO" = List.replicate 6 (letter 0) := by decide
    refine ⟨6 - (numeral 3 n).length, ?_, fun hk => by omega⟩
    unfold substrLast
    rw [hzeros, List.length_append, List.length_replicate, List.length_map, Nat.add_sub_cancel_left,
      List.drop_append_of_le_length (by rw [List.length_replicate]; omega), List.drop_replicate, List.map_append,
      List.map_replicate]
  · refine ⟨1, rfl, fun hk => absurd hk Nat.one_ne_zero⟩
  · refine ⟨0, rfl, fun _ => ?_⟩
    obtain ⟨d, rest, hd⟩ := List.exists_cons_of_length_pos (Nat.lt_of_lt_of_le (by decide) (Nat.le_of_not_lt hshort))
    refine ⟨d, rest, hd, ?_⟩
    rintro rfl
    rw [hd] at hzero
    exact hzero rfl

/-- The number can be read from its name. -/
theorem value_generate (n : ℕ) : value 3 ((generate [text "O", text "o", text "0"] n).map digit) = n := by
  obtain ⟨k, hname, -⟩ := exists_generate n
  have hdigits : ∀ d ∈ List.replicate k 0 ++ numeral 3 n, (digit ∘ letter) d = id d := fun d hd => by
    rcases List.mem_append.1 hd with hd | hd
    · exact digit_letter (List.eq_of_mem_replicate hd ▸ Nat.succ_pos 2)
    · exact digit_letter (numeral_lt (by decide) d hd)
  rw [hname, List.map_map, List.map_congr_left hdigits, List.map_id, value_replicate_zero_append, value_numeral]

/-- A name over the three letters that does not begin with the digit `0`. -/
def Legal (name : JsString) : Prop := (∀ c ∈ name, c ∈ text "Oo0") ∧ ∃ c rest, name = c :: rest ∧ c ∈ text "Oo"

theorem letter_mem {d : ℕ} (hd : d < 3) : letter d ∈ text "Oo0" := by
  interval_cases d <;> decide

theorem legal_generate (n : ℕ) : Legal (generate [text "O", text "o", text "0"] n) := by
  obtain ⟨k, hname, hfirst⟩ := exists_generate n
  have hlt : ∀ d ∈ numeral 3 n, d < 3 := numeral_lt (by decide)
  rw [hname]
  refine ⟨fun c hc => ?_, ?_⟩
  · obtain ⟨d, hd, rfl⟩ := List.mem_map.1 hc
    rcases List.mem_append.1 hd with hd | hd
    · rw [List.eq_of_mem_replicate hd]
      exact letter_mem (by decide)
    · exact letter_mem (hlt d hd)
  · cases k with
    | zero =>
      obtain ⟨d, rest, hd, hne⟩ := hfirst rfl
      have hd3 := hlt d (hd ▸ List.mem_cons_self)
      refine ⟨letter d, rest.map letter, by rw [hd]; rfl, ?_⟩
      interval_cases d
      · decide
      · decide
      · exact absurd rfl hne
    | succ k => exact ⟨letter 0, _, rfl, by decide⟩

theorem generate_injective : Function.Injective (generate [text "O", text "o", text "0"]) := fun m n h => by
  rw [← value_generate m, h, value_generate]

end Identifier

open Identifier

/-- The names of both files. -/
theorem identifiers_injective_legal :
    (Function.Injective generatorIdentifier ∧ ∀ n, Legal (generatorIdentifier n)) ∧
      Function.Injective generateIdentifier ∧ ∀ n, Legal (generateIdentifier n) :=
  ⟨⟨generate_injective, legal_generate⟩, generate_injective, legal_generate⟩

/-- The new names of a scope are different ones, and no other binding has one of them. -/
theorem renameOwnBinding_returns {generate : ℕ → JsString} (hgenerate : Function.Injective generate)
    (ownBinding globalBinding : List JsString) :
    ∃ renamed, Returns (renameOwnBinding generate ownBinding globalBinding) renamed ∧
      renamed.map Prod.fst = ownBinding ∧ (renamed.map Prod.snd).Nodup ∧
        ∀ name ∈ renamed.map Prod.snd, name ∉ globalBinding ∧ ∃ i, generate i = name := by
  have htaken : ∀ name, globalBinding.contains name = true ↔ name ∈ globalBinding := fun _ => List.contains_iff_mem
  have hfinite : {name | globalBinding.contains name = true}.Finite := by
    simp only [htaken]
    exact globalBinding.finite_toSet
  simp only [← htaken]
  exact drawAll_returns hgenerate hfinite ownBinding

theorem renameOwnBinding_legal (ownBinding globalBinding : List JsString) :
    ∃ renamed, Returns (renameOwnBinding generatorIdentifier ownBinding globalBinding) renamed ∧
      renamed.map Prod.fst = ownBinding ∧ (renamed.map Prod.snd).Nodup ∧
        ∀ name ∈ renamed.map Prod.snd, name ∉ globalBinding ∧ Legal name := by
  obtain ⟨renamed, hreturns, hown, hnodup, hnames⟩ :=
    renameOwnBinding_returns generate_injective ownBinding globalBinding
  refine ⟨renamed, hreturns, hown, hnodup, fun name hname => ?_⟩
  obtain ⟨hfree, i, rfl⟩ := hnames name hname
  exact ⟨hfree, legal_generate i⟩

end GoodGoodStudy.Confound
