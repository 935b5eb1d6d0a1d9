/-
The string array of the obfuscator: `arrayConfound` replaces every literal by a read of `arr`, `arrayShuffle`
rotates `arr` to the right, and the code of demoFront.js rotates it back when the emitted program starts. The two
loops do not make the same number of rounds, sixteen against fifteen, so that the program runs with an array that
is still rotated by one. It reads its own literals exactly when they all have one encryption.
-/
import Mathlib.Data.List.Rotate
import Mathlib.Data.List.Forall2
import GoodGoodStudy.Confound.Base64

namespace GoodGoodStudy.Confound

open GoodGoodStudy.Js

/-! ## The passes -/

section

variable {S T α σ : Type}

/-- The `StringLiteral` visitor: the new `bigArr`, and the index in `atob(arr[index])` that replaces the literal. -/
def visitLiteral [DecidableEq T] (encryptFunc : S → T) (bigArr : List T) (value : S) : List T × Nat :=
  match bigArr.idxOf? (encryptFunc value) with
  | some bigArrIndex => (bigArr, bigArrIndex)
  | none =>
    let bigArr := bigArr ++ [encryptFunc value]
    (bigArr, bigArr.length - 1)

/-- The traversal, over the literals in its order. -/
def visitLiterals [DecidableEq T] (encryptFunc : S → T) : List T → List S → List T × List Nat
  | bigArr, [] => (bigArr, [])
  | bigArr, value :: rest =>
    let (bigArr, index) := visitLiteral encryptFunc bigArr value
    let (bigArr, indexes) := visitLiterals encryptFunc bigArr rest
    (bigArr, index :: indexes)

def arrayConfound [DecidableEq T] (encryptFunc : S → T) (literals : List S) : List T × List Nat :=
  visitLiterals encryptFunc [] literals

/-- `while (--nums) body`; `none` when the loop never ends. -/
def whileDecrement (body : σ → σ) : Nat → σ → Option σ
  | 0, _ => none
  | 1, s => some s
  | nums + 2, s => whileDecrement body (nums + 1) (body s)

/-- `myArr.unshift(myArr.pop())`. The entry `none` is `undefined`, which `pop` gives for an empty array. -/
def unshiftPop (myArr : List (Option α)) : List (Option α) := myArr.getLast?.join :: myArr.dropLast

/-- `myArr.push(myArr.shift())`. -/
def pushShift (myArr : List (Option α)) : List (Option α) := myArr.tail ++ [myArr.head?.join]

/-- `arrayShuffle` passes `++num` to its loop. -/
def arrayShuffle (bigArr : List (Option α)) : Option (List (Option α)) :=
  let num := 0x10
  whileDecrement unshiftPop (num + 1) bigArr

/-- demoFront.js passes `num`. -/
def demoFront (arr : List (Option α)) : Option (List (Option α)) :=
  let num := 0x10
  whileDecrement pushShift num arr

/-- The array with which the program behind demoFront.js runs. -/
def shuffleAndRestore (bigArr : List (Option α)) : Option (List (Option α)) := (arrayShuffle bigArr).bind demoFront

/-- `arr[index]`. -/
def read (arr : List (Option α)) (index : Nat) : Option α := arr[index]?.join

/-- Every replaced literal reads its own encryption at run time. -/
def Undone [DecidableEq T] (encryptFunc : S → T) (literals : List S) : Prop :=
  ∃ arr, shuffleAndRestore ((arrayConfound encryptFunc literals).1.map some) = some arr ∧
    List.Forall₂ (fun value index => read arr index = some (encryptFunc value)) literals
      (arrayConfound encryptFunc literals).2

/-! ## The array of the traversal -/

theorem visitLiteral_spec [DecidableEq T] (encryptFunc : S → T) (bigArr : List T) (value : S) :
    (bigArr <+: (visitLiteral encryptFunc bigArr value).1 ∧
      (visitLiteral encryptFunc bigArr value).1[(visitLiteral encryptFunc bigArr value).2]? =
        some (encryptFunc value)) ∧
      ∀ k < (visitLiteral encryptFunc bigArr value).1.length,
        k < bigArr.length ∨ k = (visitLiteral encryptFunc bigArr value).2 := by
  unfold visitLiteral
  rcases hidx : bigArr.idxOf? (encryptFunc value) with _ | i
  · refine ⟨⟨List.prefix_append _ _, ?_⟩, ?_⟩
    · simp
    · intro k hk
      simp only [List.length_append, List.length_cons, List.length_nil] at hk ⊢
      omega
  · rw [List.idxOf?_eq_some_iff] at hidx
    obtain ⟨hi, he, -⟩ := hidx
    refine ⟨⟨List.prefix_refl _, ?_⟩, fun k hk => Or.inl hk⟩
    simp only
    rw [List.getElem?_eq_getElem hi, he]

/-- The array only grows, every literal is at its index, and every new entry is there for a literal. -/
theorem visitLiterals_spec [DecidableEq T] (encryptFunc : S → T) (literals : List S) (bigArr : List T) :
    bigArr <+: (visitLiterals encryptFunc bigArr literals).1 ∧
      List.Forall₂ (fun value index => (visitLiterals encryptFunc bigArr literals).1[index]? = some (encryptFunc value))
        literals (visitLiterals encryptFunc bigArr literals).2 ∧
      ∀ k < (visitLiterals encryptFunc bigArr literals).1.length,
        k < bigArr.length ∨ k ∈ (visitLiterals encryptFunc bigArr literals).2 := by
  induction literals generalizing bigArr with
  | nil => exact ⟨List.prefix_refl _, List.Forall₂.nil, fun k hk => Or.inl hk⟩
  | cons value rest ih =>
    obtain ⟨⟨hgrow, hvalue⟩, hnew⟩ := visitLiteral_spec encryptFunc bigArr value
    unfold visitLiterals
    rcases hvisit : visitLiteral encryptFunc bigArr value with ⟨bigArr', index⟩
    rw [hvisit] at hgrow hvalue hnew
    obtain ⟨ihgrow, ihreads, ihnew⟩ := ih bigArr'
    refine ⟨hgrow.trans ihgrow, List.Forall₂.cons ?_ ihreads, fun k hk => ?_⟩
    · obtain ⟨more, hmore⟩ := ihgrow
      have hlt : index < bigArr'.length := (List.getElem?_eq_some_iff.1 hvalue).1
      simp only [← hmore]
      rw [List.getElem?_append_left hlt]
      exact hvalue
    · rcases ihnew k hk with hk' | hk'
      · rcases hnew k hk' with hk'' | rfl
        · exact Or.inl hk''
        · exact Or.inr List.mem_cons_self
      · exact Or.inr (List.mem_cons_of_mem index hk')

/-! ## The rotations -/

theorem whileDecrement_succ (body : σ → σ) (n : Nat) (s : σ) : whileDecrement body (n + 1) s = some (body^[n] s) := by
  induction n generalizing s with
  | zero => rfl
  | succ n ih => exact ih (body s)

theorem unshiftPop_ne_nil (myArr : List (Option α)) : unshiftPop myArr ≠ [] := List.cons_ne_nil _ _

theorem length_unshiftPop {myArr : List (Option α)} (h : myArr ≠ []) : (unshiftPop myArr).length = myArr.length := by
  have hpos := List.length_pos_of_ne_nil h
  unfold unshiftPop
  rw [List.length_cons, List.length_dropLast]
  omega

/-- One round undoes one round of the other loop, on an array that is not empty. -/
theorem pushShift_unshiftPop {myArr : List (Option α)} (h : myArr ≠ []) : pushShift (unshiftPop myArr) = myArr := by
  unfold pushShift unshiftPop
  rw [List.head?_cons, List.tail_cons, List.getLast?_eq_some_getLast h]
  exact List.dropLast_append_getLast h

theorem pushShift_iterate (n : Nat) {myArr : List (Option α)} (h : myArr ≠ []) :
    pushShift^[n] (unshiftPop^[n] myArr) = myArr := by
  induction n generalizing myArr with
  | zero => rfl
  | succ n ih =>
    rw [Function.iterate_succ_apply', Function.iterate_succ_apply, ih (unshiftPop_ne_nil myArr)]
    exact pushShift_unshiftPop h

/-- What is left of the two loops: one round of the first. -/
theorem shuffleAndRestore_eq (bigArr : List (Option α)) : shuffleAndRestore bigArr = some (unshiftPop bigArr) := by
  unfold shuffleAndRestore arrayShuffle demoFront
  rw [whileDecrement_succ, Option.bind_some, whileDecrement_succ, Function.iterate_succ_apply]
  exact congrArg some (pushShift_iterate 15 (unshiftPop_ne_nil bigArr))

/-- A rotation by one changes nothing exactly when all entries are the same. -/
theorem unshiftPop_eq_self_iff (myArr : List (Option α)) :
    unshiftPop myArr = myArr ↔ myArr ≠ [] ∧ ∀ x ∈ myArr, ∀ y ∈ myArr, x = y := by
  rcases List.eq_nil_or_concat' myArr with rfl | ⟨l, x, rfl⟩
  · exact iff_of_false (unshiftPop_ne_nil []) fun h => h.1 rfl
  have hpop : unshiftPop (l ++ [x]) = x :: l := by
    unfold unshiftPop
    rw [List.getLast?_concat, List.dropLast_concat]
    rfl
  have hrotate : (x :: l).rotate 1 = l ++ [x] := by rw [List.rotate_cons_succ, List.rotate_zero]
  rw [hpop, ← hrotate, eq_comm, List.rotate_one_eq_self_iff_eq_replicate, hrotate]
  constructor
  · rintro ⟨a, ha⟩
    have hall := (List.eq_replicate_iff.1 ha).2
    have hmem : ∀ y ∈ l ++ [x], y = a := by
      intro y hy
      exact hall y (by simpa [or_comm] using hy)
    exact ⟨by simp, fun y hy z hz => (hmem y hy).trans (hmem z hz).symm⟩
  · rintro ⟨-, h⟩
    refine ⟨x, List.eq_replicate_iff.2 ⟨rfl, fun y hy => h y ?_ x (by simp)⟩⟩
    simpa [or_comm] using hy

/-! ## What the emitted program reads -/

theorem read_map_some (bigArr : List α) (index : Nat) : read (bigArr.map some) index = bigArr[index]? := by
  unfold read
  rw [List.getElem?_map]
  cases bigArr[index]? <;> rfl

theorem exists_of_mem_left {A B : Type} {R : A → B → Prop} {l : List A} {m : List B} (h : List.Forall₂ R l m) {a : A}
    (ha : a ∈ l) : ∃ b ∈ m, R a b := by
  induction h with
  | nil => cases ha
  | cons hr _ ih =>
    rcases List.mem_cons.1 ha with rfl | ha
    · exact ⟨_, List.mem_cons_self, hr⟩
    · obtain ⟨b, hb, hr⟩ := ih ha
      exact ⟨b, List.mem_cons_of_mem _ hb, hr⟩

theorem exists_of_mem_right {A B : Type} {R : A → B → Prop} {l : List A} {m : List B} (h : List.Forall₂ R l m) {b : B}
    (hb : b ∈ m) : ∃ a ∈ l, R a b := exists_of_mem_left (R := flip R) h.flip hb

/-- The entries of the array are the encryptions of the literals. -/
theorem mem_arrayConfound [DecidableEq T] (encryptFunc : S → T) (literals : List S) (t : T) :
    t ∈ (arrayConfound encryptFunc literals).1 ↔ ∃ v ∈ literals, t = encryptFunc v := by
  obtain ⟨-, hreads, hcover⟩ := visitLiterals_spec encryptFunc literals []
  unfold arrayConfound
  constructor
  · intro ht
    obtain ⟨k, hk, rfl⟩ := List.mem_iff_getElem.1 ht
    have hindex := (hcover k hk).resolve_left (Nat.not_lt_zero k)
    obtain ⟨v, hv, he⟩ := exists_of_mem_right hreads hindex
    rw [List.getElem?_eq_getElem hk] at he
    exact ⟨v, hv, Option.some.inj he⟩
  · rintro ⟨v, hv, rfl⟩
    obtain ⟨k, -, he⟩ := exists_of_mem_left hreads hv
    exact List.mem_of_getElem? he

/-- The literals are read correctly exactly when the loops leave the array as the traversal has built it, or there
is no literal. -/
theorem undone_iff_unshiftPop [DecidableEq T] (encryptFunc : S → T) {literals : List S} (h : literals ≠ []) :
    Undone encryptFunc literals ↔
      unshiftPop ((arrayConfound encryptFunc literals).1.map some) =
        (arrayConfound encryptFunc literals).1.map some := by
  obtain ⟨-, hreads, hcover⟩ := visitLiterals_spec encryptFunc literals []
  unfold Undone
  simp only [shuffleAndRestore_eq, Option.some.injEq, exists_eq_left']
  constructor
  · intro hundone
    have hne : (arrayConfound encryptFunc literals).1.map some ≠ [] := by
      obtain ⟨v, hv⟩ := List.exists_mem_of_ne_nil literals h
      exact List.ne_nil_of_mem (List.mem_map_of_mem ((mem_arrayConfound encryptFunc literals _).2 ⟨v, hv, rfl⟩))
    have hlen := length_unshiftPop hne
    apply List.ext_getElem?
    intro k
    by_cases hk : k < (arrayConfound encryptFunc literals).1.length
    · -- some literal has the index, and reads there what the traversal has put there
      have hindex := (hcover k hk).resolve_left (Nat.not_lt_zero k)
      obtain ⟨v, -, hbuilt, hread⟩ := exists_of_mem_right (List.Forall₂.mp (fun v k => And.intro) hreads hundone) hindex
      rw [List.getElem?_map]
      refine (Option.join_eq_some_iff.1 hread).trans ?_
      exact (congrArg (Option.map some) hbuilt).symm
    · rw [List.length_map] at hlen
      rw [List.getElem?_eq_none (by omega), List.getElem?_eq_none (by rw [List.length_map]; omega)]
  · intro he
    rw [he]
    exact hreads.imp fun v k hk => (read_map_some _ k).trans hk

/-- Every literal reads its own encryption exactly when all of them have the same one. -/
theorem undone_iff [DecidableEq T] (encryptFunc : S → T) (literals : List S) :
    Undone encryptFunc literals ↔ ∀ v ∈ literals, ∀ w ∈ literals, encryptFunc v = encryptFunc w := by
  by_cases h : literals = []
  · subst h
    exact iff_of_true ⟨_, shuffleAndRestore_eq _, List.Forall₂.nil⟩ (List.forall_mem_nil _)
  rw [undone_iff_unshiftPop encryptFunc h, unshiftPop_eq_self_iff]
  constructor
  · rintro ⟨-, hsame⟩ v hv w hw
    have hentry : ∀ u ∈ literals, some (encryptFunc u) ∈ (arrayConfound encryptFunc literals).1.map some :=
      fun u hu => List.mem_map_of_mem ((mem_arrayConfound encryptFunc literals _).2 ⟨u, hu, rfl⟩)
    exact Option.some.inj (hsame _ (hentry v hv) _ (hentry w hw))
  · intro hsame
    obtain ⟨v, hv⟩ := List.exists_mem_of_ne_nil literals h
    refine ⟨List.ne_nil_of_mem (List.mem_map_of_mem ((mem_arrayConfound encryptFunc literals _).2 ⟨v, hv, rfl⟩)), ?_⟩
    intro x hx y hy
    obtain ⟨s, hs, rfl⟩ := List.mem_map.1 hx
    obtain ⟨t, ht, rfl⟩ := List.mem_map.1 hy
    obtain ⟨v, hv, rfl⟩ := (mem_arrayConfound encryptFunc literals s).1 hs
    obtain ⟨w, hw, rfl⟩ := (mem_arrayConfound encryptFunc literals t).1 ht
    rw [hsame v hv w hw]

/-- The two rotations cancel exactly on the arrays whose entries are all the same, and the emitted program reads
its literals exactly when they all have one encryption. -/
theorem shuffleAndRestore_inverse_iff :
    (∀ arr : List (Option α), shuffleAndRestore arr = some arr ↔ arr ≠ [] ∧ ∀ x ∈ arr, ∀ y ∈ arr, x = y) ∧
      ∀ [DecidableEq T] (encryptFunc : S → T) (literals : List S),
        Undone encryptFunc literals ↔ ∀ v ∈ literals, ∀ w ∈ literals, encryptFunc v = encryptFunc w := by
  refine ⟨fun arr => ?_, fun encryptFunc literals => undone_iff encryptFunc literals⟩
  rw [shuffleAndRestore_eq, Option.some.injEq]
  exact unshiftPop_eq_self_iff arr

end

/-- With `base64Encode` as the encryption, a program of ASCII literals survives exactly when it has one literal only,
in one place or in many. -/
theorem undone_base64Encode_iff {literals : List JsString} (h : ∀ s ∈ literals, Ascii s) :
    Undone base64Encode literals ↔ ∀ v ∈ literals, ∀ w ∈ literals, v = w := by
  rw [undone_iff]
  constructor
  · intro hsame v hv w hw
    exact base64Encode_injective (h v hv) (h w hw) (hsame v hv w hw)
  · intro hsame v hv w hw
    rw [hsame v hv w hw]

/-- Two literals, and both read the encryption of the other one. -/
theorem two_literals_swapped :
    arrayConfound base64Encode [text "log", text "Date"] = ([text "bG9n", text "RGF0ZQ=="], [0, 1]) ∧
      shuffleAndRestore ([text "bG9n", text "RGF0ZQ=="].map some) = some [some (text "RGF0ZQ=="), some (text "bG9n")] ∧
      ¬ Undone base64Encode [text "log", text "Date"] := by
  have hlog : base64Encode (text "log") = text "bG9n" := by
    rw [base64Encode_eq (by decide)]
    decide +kernel
  have hdate : base64Encode (text "Date") = text "RGF0ZQ==" := by
    rw [base64Encode_eq (by decide)]
    decide +kernel
  have harr : arrayConfound base64Encode [text "log", text "Date"] = ([text "bG9n", text "RGF0ZQ=="], [0, 1]) := by
    simp only [arrayConfound, visitLiterals, visitLiteral, hlog, hdate]
    decide +kernel
  refine ⟨harr, rfl, ?_⟩
  rintro ⟨arr, hrun, hreads⟩
  rw [harr] at hrun hreads
  obtain rfl := Option.some.inj hrun
  rcases hreads with _ | ⟨hfirst, -⟩
  rw [hlog] at hfirst
  exact absurd hfirst (by decide +kernel)

end GoodGoodStudy.Confound
