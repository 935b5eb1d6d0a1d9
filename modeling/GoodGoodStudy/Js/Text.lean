/-
The part of JavaScript's strings that the obfuscator uses: strings as lists of UTF-16 code units,
`charCodeAt` with `NaN` behind the end, `charAt` with the empty string there, and `atob`.
-/
import Mathlib.Data.List.Nodup
import GoodGoodStudy.Lib.Base64

namespace GoodGoodStudy.Js

open GoodGoodStudy.Lib

/-- A string is a list of UTF-16 code units. -/
abbrev JsString := List UInt16

/-- The text of an ASCII literal. -/
def text (s : String) : JsString := s.toList.map fun c => c.toNat.toUInt16

/-- `s.charCodeAt(i)`; `none` is `NaN`. -/
def charCodeAt (s : JsString) (i : Nat) : Option Nat := s[i]?.map UInt16.toNat

/-- A number as an operand of a bit operator: `NaN` counts as zero. -/
def toInt32 (n : Option Nat) : Nat := n.getD 0

/-- `s.charAt(i)`. -/
def charAt (s : JsString) (i : Nat) : JsString := s[i]?.toList

/-! ## atob -/

def equalsSign : UInt16 := 61

/-- The Base64 alphabet. -/
def base64Alphabet : JsString := text "ABCDEFGHIJKLMNOPQRSTUVWXYZabcdefghijklmnopqrstuvwxyz0123456789+/"

def isAsciiWhitespace (c : UInt16) : Bool := c = 9 || c = 10 || c = 12 || c = 13 || c = 32

/-- Up to two padding characters at the end of a text whose length is a multiple of four. -/
def stripPadding (s : JsString) : JsString :=
  if s.length % 4 = 0 ∧ s.getLast? = some equalsSign then
    if s.dropLast.getLast? = some equalsSign then s.dropLast.dropLast else s.dropLast
  else s

/-- `atob`: the text is decoded without white space and padding. `none` is an `InvalidCharacterError`, for
another character or a length that no bytes have. -/
def atob (data : JsString) : Option JsString :=
  let data := stripPadding (data.filter fun c => !isAsciiWhitespace c)
  if data.length % 4 = 1 then none
  else (data.mapM fun c => base64Alphabet.idxOf? c).map fun ns => (octets ns).map fun n => n.toUInt16

/-- The text of six bit numbers, with padding. -/
def base64Text (ns : List Nat) (pad : Nat) : JsString :=
  ns.flatMap (charAt base64Alphabet) ++ List.replicate pad equalsSign

theorem length_base64Alphabet : base64Alphabet.length = 64 := by decide

theorem nodup_base64Alphabet : base64Alphabet.Nodup := by decide +kernel

theorem plain_base64Alphabet : base64Alphabet.all (fun c => c != equalsSign && !isAsciiWhitespace c) = true := by
  decide +kernel

/-- The character of a six bit number. -/
theorem charAt_alphabet {n : Nat} (h : n < 64) :
    ∃ c ∈ base64Alphabet, charAt base64Alphabet n = [c] ∧ base64Alphabet.idxOf? c = some n := by
  have hn : n < base64Alphabet.length := by rw [length_base64Alphabet]; exact h
  refine ⟨base64Alphabet[n], List.getElem_mem hn, ?_, ?_⟩
  · unfold charAt
    rw [List.getElem?_eq_getElem hn]
    rfl
  · rw [List.idxOf?_eq_some_iff]
    refine ⟨hn, rfl, fun j hj he => ?_⟩
    have hne := (List.Nodup.getElem_inj_iff nodup_base64Alphabet).1 he
    omega

/-- A text of six bit numbers consists of characters of the alphabet, and gives the numbers back. -/
theorem chars_spec {ns : List Nat} (h : ∀ n ∈ ns, n < 64) :
    (∀ c ∈ ns.flatMap (charAt base64Alphabet), c ∈ base64Alphabet) ∧
      (ns.flatMap (charAt base64Alphabet)).length = ns.length ∧
      ((ns.flatMap (charAt base64Alphabet)).mapM fun c => base64Alphabet.idxOf? c) = some ns := by
  induction ns with
  | nil => exact ⟨List.forall_mem_nil _, rfl, rfl⟩
  | cons n ns ih =>
    obtain ⟨hmem, hlen, hdec⟩ := ih fun m hm => h m (List.mem_cons_of_mem n hm)
    obtain ⟨c, hc, hchar, hidx⟩ := charAt_alphabet (h n List.mem_cons_self)
    rw [List.flatMap_cons, hchar, List.singleton_append]
    refine ⟨List.forall_mem_cons.2 ⟨hc, hmem⟩, by rw [List.length_cons, hlen, List.length_cons], ?_⟩
    rw [List.mapM_cons, hidx, hdec]
    rfl

theorem stripPadding_append {s : JsString} {pad : Nat} (hs : equalsSign ∉ s) (hpad : pad ≤ 2)
    (hlen : (s.length + pad) % 4 = 0) : stripPadding (s ++ List.replicate pad equalsSign) = s := by
  have hlast : s.getLast? ≠ some equalsSign := fun h => hs (List.mem_of_getLast? h)
  have hlen' : (s ++ List.replicate pad equalsSign).length % 4 = 0 := by
    rw [List.length_append, List.length_replicate]
    exact hlen
  unfold stripPadding
  obtain rfl | rfl | rfl : pad = 0 ∨ pad = 1 ∨ pad = 2 := by omega
  · rw [List.replicate_zero, List.append_nil, if_neg fun h => hlast h.2]
  · rw [List.replicate_one] at hlen' ⊢
    rw [if_pos ⟨hlen', List.getLast?_concat⟩, List.dropLast_concat, if_neg hlast]
  · have htwo : s ++ List.replicate 2 equalsSign = (s ++ [equalsSign]) ++ [equalsSign] := by
      rw [List.append_assoc]
      rfl
    rw [htwo] at hlen' ⊢
    rw [if_pos ⟨hlen', List.getLast?_concat⟩, List.dropLast_concat, if_pos List.getLast?_concat,
      List.dropLast_concat]

/-- `atob` gives the bytes back. -/
theorem atob_base64Text {bytes : List Nat} (h : ∀ b ∈ bytes, b < 256) :
    atob (base64Text (sextets bytes) (padding bytes.length)) = some (bytes.map fun b => b.toUInt16) := by
  obtain ⟨hmem, hlen, hdec⟩ := chars_spec (sextets_lt h)
  obtain ⟨hmod, hmod'⟩ := length_sextets bytes
  have hplain := List.all_eq_true.1 plain_base64Alphabet
  have heq : equalsSign ∉ (sextets bytes).flatMap (charAt base64Alphabet) := by
    intro hc
    have hne := hplain _ (hmem _ hc)
    rw [Bool.and_eq_true, bne_self_eq_false] at hne
    exact Bool.false_ne_true hne.1
  have hfilter : (base64Text (sextets bytes) (padding bytes.length)).filter (fun c => !isAsciiWhitespace c) =
      base64Text (sextets bytes) (padding bytes.length) := by
    rw [List.filter_eq_self]
    intro c hc
    rcases List.mem_append.1 hc with hc | hc
    · exact (Bool.and_eq_true _ _ ▸ hplain c (hmem c hc)).2
    · rw [List.eq_of_mem_replicate hc]
      rfl
  have hstrip : stripPadding (base64Text (sextets bytes) (padding bytes.length)) =
      (sextets bytes).flatMap (charAt base64Alphabet) :=
    stripPadding_append heq (padding_le _) (by rw [hlen]; exact hmod)
  unfold atob
  simp only [hfilter, hstrip, hlen, if_neg hmod', hdec, Option.map_some, octets_sextets h]

end GoodGoodStudy.Js
