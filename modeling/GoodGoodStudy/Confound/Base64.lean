/-
The two Base64 encoders of the obfuscator, against `atob` of the emitted program. `base64Encode` turns every
ASCII literal into a text that decodes to it. `Base64.encode` does so for the text that its pre-pass leaves, and
the pre-pass takes the `r` out of every "rn": the pattern of its `replace` has lost the backslashes of a line end.
So the two agree exactly on the literals without "rn".
-/
import Mathlib.Data.List.Infix
import GoodGoodStudy.Js.Text

namespace GoodGoodStudy.Confound

open GoodGoodStudy.Lib GoodGoodStudy.Js

/-! ## The encoders -/

def base64EncodeChars : JsString := text "ABCDEFGHIJKLMNOPQRSTUVWXYZabcdefghijklmnopqrstuvwxyz0123456789+/"

/-- The loop of `base64Encode`, from the index `a` on and with the text `r` so far. -/
def base64EncodeFrom (e : JsString) (a : Nat) (r : JsString) : JsString :=
  if a < e.length then
    let h := 255 &&& toInt32 (charCodeAt e a)
    if a + 1 = e.length then
      r ++ charAt base64EncodeChars (h >>> 2) ++ charAt base64EncodeChars ((3 &&& h) <<< 4) ++ text "=="
    else
      let o := toInt32 (charCodeAt e (a + 1))
      if a + 2 = e.length then
        r ++ charAt base64EncodeChars (h >>> 2) ++ charAt base64EncodeChars ((3 &&& h) <<< 4 ||| (240 &&& o) >>> 4) ++
          charAt base64EncodeChars ((15 &&& o) <<< 2) ++ text "="
      else
        let t := toInt32 (charCodeAt e (a + 2))
        base64EncodeFrom e (a + 3)
          (r ++ charAt base64EncodeChars (h >>> 2) ++
            charAt base64EncodeChars ((3 &&& h) <<< 4 ||| (240 &&& o) >>> 4) ++
            charAt base64EncodeChars ((15 &&& o) <<< 2 ||| (192 &&& t) >>> 6) ++ charAt base64EncodeChars (63 &&& t))
  else r
termination_by e.length - a

/-- `base64Encode` of the string encryption. -/
def base64Encode (e : JsString) : JsString := base64EncodeFrom e 0 []

def keyStr : JsString := text "ABCDEFGHIJKLMNOPQRSTUVWXYZabcdefghijklmnopqrstuvwxyz0123456789+/="

/-- `e.replace(/rn/g, "n")`. -/
def replaceRn : JsString → JsString
  | [] => []
  | [c] => [c]
  | c :: d :: rest => if [c, d] = text "rn" then text "n" ++ replaceRn rest else c :: replaceRn (d :: rest)

/-- The bytes that `_utf8_encode` adds for a code unit. -/
def utf8Unit (c : UInt16) : JsString :=
  let r := c.toNat
  if r < 128 then [r.toUInt16]
  else if 127 < r ∧ r < 2048 then [(r >>> 6 ||| 192).toUInt16, (r &&& 63 ||| 128).toUInt16]
  else [(r >>> 12 ||| 224).toUInt16, (r >>> 6 &&& 63 ||| 128).toUInt16, (r &&& 63 ||| 128).toUInt16]

def utf8Encode (e : JsString) : JsString := (replaceRn e).flatMap utf8Unit

/-- The four characters that a round of the loop of `encode` adds. The end of the text is noticed by `NaN` only. -/
def encodeRound (n r i : Option Nat) : JsString :=
  let s := toInt32 n >>> 2
  let o := (toInt32 n &&& 3) <<< 4 ||| toInt32 r >>> 4
  let u := (toInt32 r &&& 15) <<< 2 ||| toInt32 i >>> 6
  let a := toInt32 i &&& 63
  let (u, a) := match r, i with
    | none, _ => (64, 64)
    | some _, none => (u, 64)
    | some _, some _ => (u, a)
  charAt keyStr s ++ charAt keyStr o ++ charAt keyStr u ++ charAt keyStr a

/-- The loop of `encode`, from the index `f` on and with the text `t` so far. -/
def encodeFrom (e : JsString) (f : Nat) (t : JsString) : JsString :=
  if f < e.length then
    encodeFrom e (f + 3) (t ++ encodeRound (charCodeAt e f) (charCodeAt e (f + 1)) (charCodeAt e (f + 2)))
  else t
termination_by e.length - f

/-- `Base64.encode` of the array obfuscation. -/
def encode (e : JsString) : JsString := encodeFrom (utf8Encode e) 0 []

/-! ## Both loops regroup bits -/

def codes (s : JsString) : List Nat := s.map UInt16.toNat

def Ascii (s : JsString) : Prop := ∀ c ∈ s, c.toNat < 128

instance (s : JsString) : Decidable (Ascii s) := List.decidableBAll (fun c : UInt16 => c.toNat < 128) s

theorem base64EncodeChars_eq : base64EncodeChars = base64Alphabet := rfl

theorem keyStr_eq : keyStr = base64Alphabet ++ [equalsSign] := by decide +kernel

/-- The padding character is the last one of `keyStr`. -/
theorem charAt_keyStr {n : Nat} (h : n < 64) : charAt keyStr n = charAt base64Alphabet n := by
  unfold charAt
  rw [keyStr_eq, List.getElem?_append_left (by rw [length_base64Alphabet]; exact h)]

theorem charAt_keyStr_padding : charAt keyStr 64 = text "=" := by decide +kernel

theorem charCodeAt_append (pre s : JsString) (i : Nat) :
    charCodeAt (pre ++ s) (pre.length + i) = charCodeAt s i := by
  unfold charCodeAt
  rw [List.getElem?_append_right (Nat.le_add_right _ _), Nat.add_sub_cancel_left]

theorem shiftRight_two (n : Nat) : n >>> 2 = n / 4 := Nat.shiftRight_eq_div_pow n 2

theorem shiftLeft_two (n : Nat) : n <<< 2 = n * 4 := Nat.shiftLeft_eq n 2

theorem shiftLeft_four (n : Nat) : n <<< 4 = n * 16 := Nat.shiftLeft_eq n 4

theorem and_three (n : Nat) : n &&& 3 = n % 4 := Nat.and_two_pow_sub_one_eq_mod n 2

theorem and_fifteen (n : Nat) : n &&& 15 = n % 16 := Nat.and_two_pow_sub_one_eq_mod n 4

theorem and_sixtyThree (n : Nat) : n &&& 63 = n % 64 := Nat.and_two_pow_sub_one_eq_mod n 6

theorem and_byte {n : Nat} (h : n < 256) : 255 &&& n = n := by
  rw [Nat.and_comm, Nat.and_two_pow_sub_one_eq_mod n 8]
  exact Nat.mod_eq_of_lt h

/-- Two bits of the first byte and four of the second. -/
theorem second_sextet (m : Nat) {n : Nat} (h : n < 256) : m * 16 ||| n >>> 4 = m * 16 + n / 16 := by
  have hlt : n >>> 4 < 2 ^ 4 := by
    rw [Nat.shiftRight_eq_div_pow]
    omega
  rw [← shiftLeft_four, ← Nat.shiftLeft_add_eq_or_of_lt hlt, Nat.shiftRight_eq_div_pow]

/-- Four bits of the second byte and two of the third. -/
theorem third_sextet (m : Nat) {n : Nat} (h : n < 256) : m * 4 ||| n >>> 6 = m * 4 + n / 64 := by
  have hlt : n >>> 6 < 2 ^ 2 := by
    rw [Nat.shiftRight_eq_div_pow]
    omega
  rw [← shiftLeft_two, ← Nat.shiftLeft_add_eq_or_of_lt hlt, Nat.shiftRight_eq_div_pow]

/-- The mask of `base64Encode` keeps the bits that the shift leaves of a byte. -/
theorem high_nibble {n : Nat} (h : n < 256) : (240 &&& n) >>> 4 = n >>> 4 := by
  have hlt : n >>> 4 < 16 := by
    rw [Nat.shiftRight_eq_div_pow]
    omega
  rw [Nat.shiftRight_and_distrib, Nat.and_comm]
  exact (Nat.and_two_pow_sub_one_eq_mod _ 4).trans (Nat.mod_eq_of_lt hlt)

theorem high_bits {n : Nat} (h : n < 256) : (192 &&& n) >>> 6 = n >>> 6 := by
  have hlt : n >>> 6 < 4 := by
    rw [Nat.shiftRight_eq_div_pow]
    omega
  rw [Nat.shiftRight_and_distrib, Nat.and_comm]
  exact (Nat.and_two_pow_sub_one_eq_mod _ 2).trans (Nat.mod_eq_of_lt hlt)

/-! ## The texts they produce -/

theorem toInt32_charCodeAt {pre s : JsString} {c : UInt16} (i : Nat) (h : s[i]? = some c) :
    toInt32 (charCodeAt (pre ++ s) (pre.length + i)) = c.toNat := by
  rw [charCodeAt_append]
  unfold charCodeAt toInt32
  rw [h]
  rfl

theorem padding_add_three (n : Nat) : padding (n + 3) = padding n := by
  unfold padding
  omega

theorem base64Text_cons (n : Nat) (ns : List Nat) (pad : Nat) :
    base64Text (n :: ns) pad = charAt base64Alphabet n ++ base64Text ns pad := by
  unfold base64Text
  rw [List.flatMap_cons, List.append_assoc]

theorem base64EncodeFrom_spec : ∀ {s : JsString}, (∀ c ∈ s, c.toNat < 256) → ∀ pre r : JsString,
    base64EncodeFrom (pre ++ s) pre.length r = r ++ base64Text (sextets (codes s)) (padding s.length)
  | [], _, pre, r => by
    rw [base64EncodeFrom, if_neg (by rw [List.append_nil]; exact Nat.lt_irrefl _)]
    exact (List.append_nil r).symm
  | [h], hs, pre, r => by
    have hh := hs h (by simp)
    have h0 : toInt32 (charCodeAt (pre ++ [h]) pre.length) = h.toNat := toInt32_charCodeAt 0 rfl
    rw [base64EncodeFrom, if_pos (by simp), if_pos (by simp)]
    simp only [h0, and_byte hh, Nat.and_comm 3, and_three, shiftRight_two, shiftLeft_four, base64EncodeChars_eq,
      codes, List.map_cons, List.map_nil, sextets, base64Text_cons, List.append_assoc]
    rfl
  | [h, o], hs, pre, r => by
    have hh := hs h (by simp)
    have ho := hs o (by simp)
    have h0 : toInt32 (charCodeAt (pre ++ [h, o]) pre.length) = h.toNat := toInt32_charCodeAt 0 rfl
    have h1 : toInt32 (charCodeAt (pre ++ [h, o]) (pre.length + 1)) = o.toNat := toInt32_charCodeAt 1 rfl
    rw [base64EncodeFrom, if_pos (by simp), if_neg (by simp), if_pos (by simp)]
    simp only [h0, h1, and_byte hh, high_nibble ho, Nat.and_comm 3, Nat.and_comm 15, and_three, and_fifteen,
      shiftRight_two, shiftLeft_two, shiftLeft_four, second_sextet _ ho, base64EncodeChars_eq, codes, List.map_cons,
      List.map_nil, sextets, base64Text_cons, List.append_assoc]
    rfl
  | h :: o :: t :: rest, hs, pre, r => by
    have hh := hs h (by simp)
    have ho := hs o (by simp)
    have ht := hs t (by simp)
    have h0 : toInt32 (charCodeAt (pre ++ h :: o :: t :: rest) pre.length) = h.toNat := toInt32_charCodeAt 0 rfl
    have h1 : toInt32 (charCodeAt (pre ++ h :: o :: t :: rest) (pre.length + 1)) = o.toNat :=
      toInt32_charCodeAt 1 rfl
    have h2 : toInt32 (charCodeAt (pre ++ h :: o :: t :: rest) (pre.length + 2)) = t.toNat :=
      toInt32_charCodeAt 2 rfl
    have ih := fun r' => base64EncodeFrom_spec (s := rest) (fun c hc => hs c (by simp [hc])) (pre ++ [h, o, t]) r'
    rw [List.append_assoc, List.length_append] at ih
    rw [base64EncodeFrom, if_pos (by simp), if_neg (by simp), if_neg (by simp)]
    refine (ih _).trans ?_
    simp only [h0, h1, h2, and_byte hh, high_nibble ho, high_bits ht, Nat.and_comm 3, Nat.and_comm 15,
      Nat.and_comm 63, and_three, and_fifteen, and_sixtyThree, shiftRight_two, shiftLeft_two, shiftLeft_four,
      second_sextet _ ho, third_sextet _ ht, base64EncodeChars_eq, codes, List.map_cons, sextets, base64Text_cons,
      List.append_assoc, List.length_cons, padding_add_three]

theorem second_sextet_lt (m : Nat) {n : Nat} (h : n < 256) : m % 4 * 16 + n / 16 < 64 := by omega

theorem third_sextet_lt (m : Nat) {n : Nat} (h : n < 256) : m % 16 * 4 + n / 64 < 64 := by omega

theorem encodeRound_one {n : Nat} (hn : n < 256) : encodeRound (some n) none none = base64Text (sextets [n]) 2 := by
  have hs : n / 4 < 64 := by omega
  have ho : n % 4 * 16 < 64 := by omega
  unfold encodeRound
  simp only [toInt32, Option.getD_none, Option.getD_some, Nat.zero_shiftRight, Nat.or_zero, and_three, shiftRight_two,
    shiftLeft_four, charAt_keyStr hs, charAt_keyStr ho, charAt_keyStr_padding, sextets, base64Text_cons,
    List.append_assoc]
  rfl

theorem encodeRound_two {n r : Nat} (hn : n < 256) (hr : r < 256) :
    encodeRound (some n) (some r) none = base64Text (sextets [n, r]) 1 := by
  have hs : n / 4 < 64 := by omega
  have hu : r % 16 * 4 < 64 := by omega
  unfold encodeRound
  simp only [toInt32, Option.getD_none, Option.getD_some, Nat.zero_shiftRight, Nat.or_zero, and_three, and_fifteen,
    shiftRight_two, shiftLeft_two, shiftLeft_four, second_sextet _ hr, charAt_keyStr hs,
    charAt_keyStr (second_sextet_lt _ hr), charAt_keyStr hu, charAt_keyStr_padding, sextets, base64Text_cons,
    List.append_assoc]
  rfl

theorem encodeRound_three {n r i : Nat} (hn : n < 256) (hr : r < 256) (hi : i < 256) :
    encodeRound (some n) (some r) (some i) = base64Text (sextets [n, r, i]) 0 := by
  have hs : n / 4 < 64 := by omega
  have ha : i % 64 < 64 := Nat.mod_lt _ (by omega)
  unfold encodeRound
  simp only [toInt32, Option.getD_some, and_three, and_fifteen, and_sixtyThree, shiftRight_two, shiftLeft_two,
    shiftLeft_four, second_sextet _ hr, third_sextet _ hi, charAt_keyStr hs, charAt_keyStr (second_sextet_lt _ hr),
    charAt_keyStr (third_sextet_lt _ hi), charAt_keyStr ha, sextets, base64Text_cons, List.append_assoc]
  simp [base64Text]

theorem encodeFrom_end {e : JsString} {f : Nat} (h : e.length ≤ f) (t : JsString) : encodeFrom e f t = t := by
  rw [encodeFrom, if_neg (Nat.not_lt.2 h)]

theorem encodeFrom_spec : ∀ {s : JsString}, (∀ c ∈ s, c.toNat < 256) → ∀ pre t : JsString,
    encodeFrom (pre ++ s) pre.length t = t ++ base64Text (sextets (codes s)) (padding s.length)
  | [], _, pre, t => by
    rw [encodeFrom_end (by simp)]
    exact (List.append_nil t).symm
  | [n], hs, pre, t => by
    have h0 : charCodeAt (pre ++ [n]) pre.length = some n.toNat := charCodeAt_append pre [n] 0
    have h1 : charCodeAt (pre ++ [n]) (pre.length + 1) = none := charCodeAt_append pre [n] 1
    have h2 : charCodeAt (pre ++ [n]) (pre.length + 2) = none := charCodeAt_append pre [n] 2
    rw [encodeFrom, if_pos (by simp), encodeFrom_end (by simp), h0, h1, h2, encodeRound_one (hs n (by simp))]
    rfl
  | [n, r], hs, pre, t => by
    have h0 : charCodeAt (pre ++ [n, r]) pre.length = some n.toNat := charCodeAt_append pre [n, r] 0
    have h1 : charCodeAt (pre ++ [n, r]) (pre.length + 1) = some r.toNat := charCodeAt_append pre [n, r] 1
    have h2 : charCodeAt (pre ++ [n, r]) (pre.length + 2) = none := charCodeAt_append pre [n, r] 2
    rw [encodeFrom, if_pos (by simp), encodeFrom_end (by simp), h0, h1, h2,
      encodeRound_two (hs n (by simp)) (hs r (by simp))]
    rfl
  | n :: r :: i :: rest, hs, pre, t => by
    have h0 : charCodeAt (pre ++ n :: r :: i :: rest) pre.length = some n.toNat :=
      charCodeAt_append pre (n :: r :: i :: rest) 0
    have h1 : charCodeAt (pre ++ n :: r :: i :: rest) (pre.length + 1) = some r.toNat :=
      charCodeAt_append pre (n :: r :: i :: rest) 1
    have h2 : charCodeAt (pre ++ n :: r :: i :: rest) (pre.length + 2) = some i.toNat :=
      charCodeAt_append pre (n :: r :: i :: rest) 2
    have ih := fun t' => encodeFrom_spec (s := rest) (fun c hc => hs c (by simp [hc])) (pre ++ [n, r, i]) t'
    rw [List.append_assoc, List.length_append] at ih
    rw [encodeFrom, if_pos (by simp), h0, h1, h2,
      encodeRound_three (hs n (by simp)) (hs r (by simp)) (hs i (by simp))]
    refine (ih _).trans ?_
    rw [List.length_cons, List.length_cons, List.length_cons, padding_add_three]
    simp [base64Text, sextets, codes]

/-! ## The pre-pass -/

theorem length_replaceRn_le : ∀ s : JsString, (replaceRn s).length ≤ s.length
  | [] => Nat.le_refl _
  | [_] => Nat.le_refl _
  | c :: d :: rest => by
    have hrest := length_replaceRn_le rest
    have htail := length_replaceRn_le (d :: rest)
    unfold replaceRn
    split_ifs with hrn
    · have hn : (text "n").length = 1 := rfl
      simp only [List.length_append, List.length_cons, hn]
      omega
    · exact Nat.succ_le_succ htail

/-- The pre-pass leaves a text alone exactly when there is no "rn" in it. -/
theorem replaceRn_eq_self_iff : ∀ s : JsString, replaceRn s = s ↔ ¬ text "rn" <:+: s
  | [] => by simp [replaceRn, text]
  | [c] => by
    refine iff_of_true rfl fun h => ?_
    have hlen := h.length_le
    simp [text] at hlen
  | c :: d :: rest => by
    have ih := replaceRn_eq_self_iff (d :: rest)
    unfold replaceRn
    split_ifs with hrn
    · refine iff_of_false (fun h => ?_) fun h => h ?_
      · have hlen := length_replaceRn_le rest
        have hlen' := congrArg List.length h
        simp [text] at hlen'
        omega
      · rw [← hrn]
        exact (List.prefix_append [c, d] rest).isInfix
    · rw [List.cons.injEq, List.infix_cons_iff, not_or, ih]
      refine ⟨fun h => ⟨fun hp => hrn ?_, h.2⟩, fun h => ⟨rfl, h.2⟩⟩
      exact (List.prefix_iff_eq_take.1 hp).symm

/-- The characters of the result are characters of the text. -/
theorem mem_replaceRn : ∀ {s : JsString} {c : UInt16}, c ∈ replaceRn s → c ∈ s
  | [], _, h => h
  | [_], _, h => h
  | c :: d :: rest, x, h => by
    unfold replaceRn at h
    split_ifs at h with hrn
    · rcases List.mem_append.1 h with h | h
      · have hd : text "n" = [d] := (List.cons.inj hrn).2.symm
        rw [hd] at h
        exact List.mem_cons_of_mem c (List.mem_append_left rest h)
      · exact List.mem_cons_of_mem c (List.mem_cons_of_mem d (mem_replaceRn h))
    · rcases List.mem_cons.1 h with rfl | h
      · exact List.mem_cons_self
      · exact List.mem_cons_of_mem c (mem_replaceRn h)

theorem Ascii.replaceRn {s : JsString} (h : Ascii s) : Ascii (replaceRn s) := fun c hc => h c (mem_replaceRn hc)

theorem utf8_of_ascii {s : JsString} (h : Ascii s) : s.flatMap utf8Unit = s := by
  induction s with
  | nil => rfl
  | cons c s ih =>
    have hc : utf8Unit c = [c] := by
      unfold utf8Unit
      rw [if_pos (h c List.mem_cons_self)]
      simp
    rw [List.flatMap_cons, hc, ih fun d hd => h d (List.mem_cons_of_mem c hd)]
    rfl

/-! ## The encoders against each other and against the decoder -/

theorem Ascii.byte {s : JsString} (h : Ascii s) : ∀ c ∈ s, c.toNat < 256 :=
  fun c hc => Nat.lt_trans (h c hc) (by omega)

theorem base64Encode_eq {s : JsString} (h : Ascii s) :
    base64Encode s = base64Text (sextets (codes s)) (padding s.length) :=
  base64EncodeFrom_spec h.byte [] []

/-- `Base64.encode` is the other encoder after the pre-pass. -/
theorem encode_eq {s : JsString} (h : Ascii s) : encode s = base64Encode (replaceRn s) := by
  unfold encode utf8Encode
  rw [utf8_of_ascii h.replaceRn, base64Encode_eq h.replaceRn]
  exact encodeFrom_spec h.replaceRn.byte [] []

theorem atob_base64Encode {s : JsString} (h : Ascii s) : atob (base64Encode s) = some s := by
  have hbytes : ∀ b ∈ codes s, b < 256 := by
    intro b hb
    obtain ⟨c, hc, rfl⟩ := List.mem_map.1 hb
    exact h.byte c hc
  have hlen : (codes s).length = s.length := List.length_map _
  rw [base64Encode_eq h, ← hlen, atob_base64Text hbytes]
  congr 1
  unfold codes
  rw [List.map_map]
  conv_rhs => rw [← List.map_id s]
  exact List.map_congr_left fun c _ => by simp

theorem base64Encode_injective {s t : JsString} (hs : Ascii s) (ht : Ascii t) (h : base64Encode s = base64Encode t) :
    s = t := by
  have hst := congrArg atob h
  rw [atob_base64Encode hs, atob_base64Encode ht] at hst
  exact Option.some.inj hst

/-- Both encoders turn the literal into the same text, and the emitted program reads the literal from it. -/
def DecodesToItself (s : JsString) : Prop :=
  base64Encode s = encode s ∧ atob (base64Encode s) = some s ∧ atob (encode s) = some s

/-- An ASCII literal is encrypted faithfully by both encoders exactly when "rn" does not occur in it. -/
theorem decodesToItself_iff {s : JsString} (h : Ascii s) : DecodesToItself s ↔ ¬ text "rn" <:+: s := by
  rw [← replaceRn_eq_self_iff]
  constructor
  · rintro ⟨hsame, -, -⟩
    rw [encode_eq h] at hsame
    exact (base64Encode_injective h h.replaceRn hsame).symm
  · intro hrn
    have hsame : encode s = base64Encode s := by rw [encode_eq h, hrn]
    exact ⟨hsame.symm, atob_base64Encode h, hsame ▸ atob_base64Encode h⟩

theorem decodesToItself_study : DecodesToItself (text "GOOD GOOD STUDY") :=
  (decodesToItself_iff (by decide)).2 (by decide)

/-- The encoders differ on "return", and the program that the array obfuscation emits reads "retun". -/
theorem return_decodes_to_retun :
    Ascii (text "return") ∧ ¬ DecodesToItself (text "return") ∧ base64Encode (text "return") = text "cmV0dXJu" ∧
      encode (text "return") = text "cmV0dW4=" ∧ atob (encode (text "return")) = some (text "retun") := by
  have hascii : Ascii (text "return") := by decide
  have hretun : Ascii (text "retun") := by decide
  have hencode : encode (text "return") = base64Encode (text "retun") := encode_eq hascii
  have hatob : atob (encode (text "return")) = some (text "retun") := by rw [hencode, atob_base64Encode hretun]
  refine ⟨hascii, fun h => ?_, ?_, ?_, hatob⟩
  · have hsame := Option.some.inj (hatob.symm.trans h.2.2)
    exact absurd hsame (by decide)
  · rw [base64Encode_eq hascii]
    decide +kernel
  · rw [hencode, base64Encode_eq hretun]
    decide +kernel

end GoodGoodStudy.Confound
