/-
`changeAccessMode` of the obfuscator: every member access becomes `o[...]`, and a property that is an
identifier becomes a string literal. The pass does not ask whether the access was `o.x` or `o[x]`, so the
variable `x` of `o[x]` becomes the text "x".

An expression keeps its value in all surroundings exactly if its evaluation reaches no access `o[x]`.
-/
import GoodGoodStudy.Js.Expr

namespace GoodGoodStudy.Confound

open GoodGoodStudy.Js

/-! ## The pass -/

/-- What the visitor makes of the property of a member access. -/
def visitProperty : Expr → Expr
  | .identifier name => .literal (.string name)
  | property => property

mutual
/-- `traverse` with the visitor of `changeAccessMode`, which also sets `computed`. A property that the
visitor left alone is traversed after it. -/
def changeAccessMode : Expr → Expr
  | .identifier name => .identifier name
  | .literal l => .literal l
  | .call callee arguments => .call (changeAccessMode callee) (changeAccessModes arguments)
  | .member object property _ => .member (changeAccessMode object) (visitProperty (changeAccessMode property)) true

def changeAccessModes : List Expr → List Expr
  | [] => []
  | e :: es => changeAccessMode e :: changeAccessModes es
end

/-- Traversing does not make a property an identifier that was none, nor the other way round: the order of
the visitor and the traversal below it does not matter. -/
theorem isIdentifier_changeAccessMode (e : Expr) : (changeAccessMode e).isIdentifier = e.isIdentifier := by
  cases e <;> rfl

/-! ## Where the pass is right -/

def isLiteral : Expr → Bool
  | .literal _ => true
  | _ => false

def isNull : Expr → Bool
  | .literal .null => true
  | _ => false

mutual
/-- The evaluation can come to a value: it neither reads a property of the literal `null` nor calls a
literal. -/
def completes : Expr → Bool
  | .identifier _ => true
  | .literal _ => true
  | .call callee arguments => completes callee && allComplete arguments && !isLiteral callee
  | .member object property computed =>
    completes object && (!computed || completes property) && !isNull object

def allComplete : List Expr → Bool
  | [] => true
  | e :: es => completes e && allComplete es
end

mutual
/-- No computed access by an identifier is reached. -/
def keepsMeaning : Expr → Bool
  | .identifier _ => true
  | .literal _ => true
  | .call callee arguments => keepsMeaning callee && (!completes callee || allKeepMeaning arguments)
  | .member object property computed =>
    keepsMeaning object && (!completes object || !computed || (!property.isIdentifier && keepsMeaning property))

def allKeepMeaning : List Expr → Bool
  | [] => true
  | e :: es => keepsMeaning e && (!completes e || allKeepMeaning es)
end

section Sufficient

variable {σ O : Type} (host : Host σ O)

/-- A computation that throws from every state. -/
def Throws {α : Type} (x : Eval σ O α) : Prop := ∀ s, ∃ v s', x s = (.error v, s')

/-- A computation all of whose results satisfy `P`. -/
def Yields {α : Type} (x : Eval σ O α) (P : α → Prop) : Prop := ∀ s a s', x s = (.ok a, s') → P a

theorem Throws.bind_left {α β : Type} {x : Eval σ O α} (h : Throws x) (f : α → Eval σ O β) : Throws (x.bind f) := by
  intro s
  obtain ⟨v, s', hx⟩ := h s
  exact ⟨v, s', Eval.bind_error hx f⟩

theorem Throws.bind_right {α β : Type} {x : Eval σ O α} {P : α → Prop} (hP : Yields x P) {f : α → Eval σ O β}
    (h : ∀ a, P a → Throws (f a)) : Throws (x.bind f) := by
  intro s
  rcases hx : x s with ⟨v | a, s'⟩
  · exact ⟨v, s', Eval.bind_error hx f⟩
  · obtain ⟨v, s'', hf⟩ := h a (hP s a s' hx) s'
    exact ⟨v, s'', (Eval.bind_ok hx f).trans hf⟩

/-- What comes after a computation that always throws does not matter. -/
theorem Throws.bind_congr {α β : Type} {x : Eval σ O α} (h : Throws x) (f g : α → Eval σ O β) :
    x.bind f = x.bind g := by
  funext s
  obtain ⟨v, s', hx⟩ := h s
  rw [Eval.bind_error hx, Eval.bind_error hx]

theorem Yields.trivial {α : Type} (x : Eval σ O α) : Yields x fun _ => True := fun _ _ _ _ => True.intro

theorem Yields.pure {α : Type} {P : α → Prop} {a : α} (h : P a) : Yields (Eval.pure a : Eval σ O α) P := by
  rintro s _ _ ⟨⟩
  exact h

theorem Yields.bind_pure {α β : Type} {x : Eval σ O α} {f : α → β} {P : α → Prop} {Q : β → Prop} (hP : Yields x P)
    (h : ∀ a, P a → Q (f a)) : Yields (x.bind fun a => Eval.pure (f a)) Q := by
  intro s b s' hb
  rcases hx : x s with ⟨v | a, s''⟩
  · rw [Eval.bind_error hx] at hb
    cases hb
  · rw [Eval.bind_ok hx] at hb
    cases hb
    exact h a (hP s a _ hx)

theorem throws_typeError {α : Type} : Throws (throwTypeError host : Eval σ O α) := fun _ => ⟨_, _, rfl⟩

/-- A literal is not a function. -/
theorem evalLiteral_not_callable (l : Literal) :
    Yields (evalLiteral host l) fun fn => ∀ this arguments, Throws (callValue host fn this arguments) := by
  cases l with
  | regExp pattern flags =>
    rintro s _ _ ⟨⟩ this arguments
    simp only [callValue, host.regExp_not_callable]
    exact throws_typeError host
  | _ => exact Yields.pure fun _ _ => throws_typeError host

mutual
theorem throws_of_not_completes : (e : Expr) → completes e = false → Throws (evalRef host e)
  | .identifier _, h => by cases h
  | .literal _, h => by cases h
  | .call callee arguments, h => by
    simp only [completes, Bool.and_eq_false_iff, Bool.not_eq_false'] at h
    unfold evalRef
    rcases h with (h | h) | h
    · exact (throws_of_not_completes callee h).bind_left _
    · exact .bind_right (Yields.trivial _) fun fn _ => (throws_of_not_all arguments h).bind_left _
    · cases callee with
      | literal l =>
        have hlit : Yields (evalRef host (.literal l)) fun fn =>
            ∀ this args, Throws (callValue host fn.1 this args) := by
          unfold evalRef
          exact (evalLiteral_not_callable host l).bind_pure fun fn hfn => hfn
        refine .bind_right hlit fun fn hfn => ?_
        exact .bind_right (Yields.trivial _) fun args _ => (hfn fn.2 args).bind_left _
      | _ => cases h
  | .member object property computed, h => by
    simp only [completes, Bool.and_eq_false_iff, Bool.or_eq_false_iff, Bool.not_eq_false'] at h
    unfold evalRef
    rcases h with (h | ⟨hc, h⟩) | h
    · exact (throws_of_not_completes object h).bind_left _
    · refine .bind_right (Yields.trivial _) fun base _ => Throws.bind_left ?_ _
      rw [if_pos hc]
      exact (throws_of_not_completes property h).bind_left _
    · obtain rfl : object = .literal .null := by
        cases object with
        | literal l => cases l <;> first | rfl | cases h
        | _ => cases h
      have hnull : Yields (evalRef host (.literal .null)) fun base => base.1 = Val.null := by
        rintro s _ _ ⟨⟩
        rfl
      refine .bind_right hnull fun base hbase => .bind_right (Yields.trivial _) fun key _ => Throws.bind_left ?_ _
      have hnullish : base.1.isNullish = true := by rw [hbase]; rfl
      unfold getMember
      rw [if_pos hnullish]
      exact throws_typeError host

theorem throws_of_not_all : (es : List Expr) → allComplete es = false → Throws (evalArguments host es)
  | [], h => by cases h
  | e :: es, h => by
    simp only [allComplete, Bool.and_eq_false_iff] at h
    unfold evalArguments
    rcases h with h | h
    · exact (throws_of_not_completes e h).bind_left _
    · exact .bind_right (Yields.trivial _) fun v _ => (throws_of_not_all es h).bind_left _
end

theorem visitProperty_of_not {e : Expr} (h : e.isIdentifier = false) : visitProperty e = e := by
  cases e with
  | identifier => cases h
  | _ => rfl

mutual
theorem evalRef_changeAccessMode : (e : Expr) → e.Parsed → keepsMeaning e = true →
    evalRef host (changeAccessMode e) = evalRef host e
  | .identifier _, _, _ => rfl
  | .literal _, _, _ => rfl
  | .call callee arguments, hp, hk => by
    simp only [keepsMeaning, Bool.and_eq_true, Bool.or_eq_true, Bool.not_eq_true'] at hk
    obtain ⟨hcallee, harguments⟩ := hk
    unfold changeAccessMode evalRef
    rw [evalRef_changeAccessMode callee hp.1 hcallee]
    rcases harguments with hc | ha
    · exact (throws_of_not_completes host callee hc).bind_congr _ _
    · rw [evalArguments_changeAccessModes arguments hp.2 ha]
  | .member object property computed, hp, hk => by
    simp only [keepsMeaning, Bool.and_eq_true, Bool.or_eq_true, Bool.not_eq_true'] at hk
    obtain ⟨hobject, hrest⟩ := hk
    obtain ⟨hpo, hpp, hdot⟩ := hp
    unfold changeAccessMode evalRef
    rw [evalRef_changeAccessMode object hpo hobject, if_pos rfl]
    rcases hrest with (hc | hc) | ⟨hid, hprop⟩
    · exact (throws_of_not_completes host object hc).bind_congr _ _
    · -- behind a dot there is an identifier, whose name is the text that takes its place
      subst hc
      have hid := hdot rfl
      cases property with
      | identifier name => rfl
      | _ => cases hid
    · rw [visitProperty_of_not (by rw [isIdentifier_changeAccessMode, hid]),
        evalRef_changeAccessMode property hpp hprop]
      cases computed with
      | true => rfl
      | false => rw [hdot rfl] at hid; cases hid

theorem evalArguments_changeAccessModes : (es : List Expr) → Expr.AllParsed es → allKeepMeaning es = true →
    evalArguments host (changeAccessModes es) = evalArguments host es
  | [], _, _ => rfl
  | e :: es, hp, hk => by
    simp only [allKeepMeaning, Bool.and_eq_true, Bool.or_eq_true, Bool.not_eq_true'] at hk
    obtain ⟨he, hes⟩ := hk
    unfold changeAccessModes evalArguments
    rw [evalRef_changeAccessMode e hp.1 he]
    rcases hes with hc | hes
    · exact (throws_of_not_completes host e hc).bind_congr _ _
    · rw [evalArguments_changeAccessModes es hp.2 hes]
end

end Sufficient

/-! ## Where it is wrong

A host that counts the identifiers looked up. Every object that it gives out is labelled with the count,
so that the value of an expression, or what it throws, tells how many lookups there were. -/

/-- The objects: a function for each count, and a regular expression. -/
inductive Labelled
  | count (n : Nat)
  | regExp
  deriving DecidableEq, Repr

def Labelled.callable : Labelled → Bool
  | .count _ => true
  | .regExp => false

def label (n : Nat) : Val Labelled := .object (.count n)

def countingHost : Host Nat Labelled where
  lookup _ := fun n => (.ok (label n), n + 1)
  get _ _ := fun n => (.ok (label n), n)
  toKey _ := Eval.pure (.string [])
  callable := Labelled.callable
  call _ _ _ := fun n => (.ok (label n), n)
  regExp _ _ := fun n => (.regExp, n)
  regExp_not_callable _ _ _ := rfl
  typeError := fun n => (label n, n)

mutual
/-- The number of identifiers that the evaluation looks up. -/
def lookups : Expr → Nat
  | .identifier _ => 1
  | .literal _ => 0
  | .call callee arguments => lookups callee + if completes callee then argumentLookups arguments else 0
  | .member object property computed => lookups object + if completes object && computed then lookups property else 0

def argumentLookups : List Expr → Nat
  | [] => 0
  | e :: es => lookups e + if completes e then argumentLookups es else 0
end

def isAtom : Expr → Bool
  | .identifier _ => true
  | .literal _ => true
  | _ => false

/-- What a value of `e` can be at the count `n`. -/
structure Comes (e : Expr) (n : Nat) (v : Val Labelled) : Prop where
  null : isNull e = true → v = .null
  nullish : isNull e = false → v.isNullish = false
  literal : isLiteral e = true → ∀ this arguments, callValue countingHost v this arguments = throwTypeError countingHost
  function : isLiteral e = false → ∃ k, v = label k
  labelled : isAtom e = false → v = label n

theorem isNull_of_not_literal {e : Expr} (h : isLiteral e = false) : isNull e = false := by
  cases e with
  | literal => cases h
  | _ => rfl

/-- Of an expression that is no literal comes the function of some count, and of an atom that of any. -/
theorem comes_label {e : Expr} (h : isLiteral e = false) {m n : Nat} (hn : isAtom e = false → n = m) :
    Comes e m (label n) where
  null hnull := by rw [isNull_of_not_literal h] at hnull; cases hnull
  nullish _ := rfl
  literal hlit := by rw [h] at hlit; cases hlit
  function _ := ⟨n, rfl⟩
  labelled hatom := congrArg label (hn hatom)

/-- The evaluation of `e` from the count `n`. -/
def Counts (e : Expr) (n : Nat) : Prop :=
  if completes e then
    ∃ v this, evalRef countingHost e n = (.ok (v, this), n + lookups e) ∧ Comes e (n + lookups e) v
  else evalRef countingHost e n = (.error (label (n + lookups e)), n + lookups e)

theorem propertyKey_countingHost (v : Val Labelled) : ∃ k, propertyKey countingHost v = Eval.pure k := by
  cases v <;> exact ⟨_, rfl⟩

/-- Reading a property of a value of `object`. -/
theorem getMember_countingHost {object : Expr} {m : Nat} {base : Val Labelled} (h : Comes object m base)
    (key : Val Labelled) (n : Nat) :
    getMember countingHost base key n = if isNull object then (.error (label n), n) else (.ok (label n), n) := by
  unfold getMember
  by_cases hn : isNull object = true
  · rw [if_pos hn, h.null hn]
    rfl
  · rw [Bool.not_eq_true] at hn
    obtain ⟨k, hk⟩ := propertyKey_countingHost key
    rw [hn, h.nullish hn, hk]
    rfl

theorem readMember {object property : Expr} {computed : Bool} {m : Nat} {base : Val Labelled}
    (h : Comes object m base) (key : Val Labelled) (n : Nat) :
    if !isNull object then
      ∃ v this, ((getMember countingHost base key).bind fun v => Eval.pure (v, base)) n = (.ok (v, this), n) ∧
        Comes (.member object property computed) n v
    else ((getMember countingHost base key).bind fun v => Eval.pure (v, base)) n = (.error (label n), n) := by
  have hget := getMember_countingHost h key n
  cases hn : isNull object with
  | true =>
    rw [hn, if_pos rfl] at hget
    exact Eval.bind_error hget _
  | false =>
    rw [hn, if_neg Bool.false_ne_true] at hget
    exact ⟨_, _, Eval.bind_ok hget _, comes_label rfl fun _ => rfl⟩

theorem counts_literal (l : Literal) (n : Nat) : Counts (.literal l) n := by
  unfold Counts
  cases l <;>
    exact ⟨_, _, rfl, by
      constructor <;>
        simp [isNull, isLiteral, isAtom, Val.isNullish, callValue, countingHost, Labelled.callable]⟩

/-- The evaluation of arguments from the count `n`, one after the other until one of them raises. -/
def CountsArguments (es : List Expr) (n : Nat) : Prop :=
  if allComplete es then ∃ vs, evalArguments countingHost es n = (.ok vs, n + argumentLookups es)
  else evalArguments countingHost es n = (.error (label (n + argumentLookups es)), n + argumentLookups es)

theorem counts_call {callee : Expr} {arguments : List Expr} {n : Nat} (hf : Counts callee n)
    (ha : CountsArguments arguments (n + lookups callee)) : Counts (.call callee arguments) n := by
  unfold Counts at hf ⊢
  unfold CountsArguments at ha
  unfold evalRef completes lookups
  by_cases hc : completes callee = true
  · rw [if_pos hc] at hf
    obtain ⟨fn, this, hf, hfn⟩ := hf
    rw [Eval.bind_ok hf, if_pos hc, ← Nat.add_assoc]
    by_cases hall : allComplete arguments = true
    · rw [if_pos hall] at ha
      obtain ⟨vs, ha⟩ := ha
      rw [Eval.bind_ok ha]
      -- a literal is no function, so the call raises
      by_cases hl : isLiteral callee = true
      · rw [hc, hall, hl, hfn.literal hl]
        rfl
      · rw [Bool.not_eq_true] at hl
        obtain ⟨k, rfl⟩ := hfn.function hl
        rw [hc, hall, hl]
        exact ⟨_, _, rfl, comes_label rfl fun _ => rfl⟩
    · rw [if_neg hall] at ha
      rw [Bool.not_eq_true] at hall
      rw [Eval.bind_error ha, hc, hall]
      rfl
  · rw [if_neg hc] at hf
    rw [Eval.bind_error hf, if_neg hc]
    rw [Bool.not_eq_true] at hc
    rw [hc]
    rfl

theorem counts_member {object property : Expr} {computed : Bool} {n : Nat} (ho : Counts object n)
    (hp : Counts property (n + lookups object)) : Counts (.member object property computed) n := by
  unfold Counts at ho hp ⊢
  unfold evalRef completes lookups
  by_cases hc : completes object = true
  · rw [if_pos hc] at ho
    obtain ⟨base, this, ho, hbase⟩ := ho
    rw [Eval.bind_ok ho, hc]
    -- with a dot there is no key to evaluate
    cases computed with
    | false => exact readMember hbase (.string (dotName property)) (n + lookups object)
    | true =>
      simp only [if_pos, Bool.true_and, Bool.not_true, Bool.false_or]
      rw [← Nat.add_assoc]
      by_cases hpc : completes property = true
      · rw [if_pos hpc] at hp
        obtain ⟨key, this', hp, -⟩ := hp
        rw [Eval.bind_ok (Eval.bind_ok hp _), hpc]
        exact readMember hbase key (n + lookups object + lookups property)
      · rw [if_neg hpc] at hp
        rw [Bool.not_eq_true] at hpc
        rw [Eval.bind_error (Eval.bind_error hp _), hpc]
        rfl
  · rw [if_neg hc] at ho
    rw [Bool.not_eq_true] at hc
    rw [Eval.bind_error ho, hc]
    rfl

theorem countsArguments_cons {e : Expr} {es : List Expr} {n : Nat} (he : Counts e n)
    (hes : CountsArguments es (n + lookups e)) : CountsArguments (e :: es) n := by
  unfold Counts at he
  unfold CountsArguments at hes ⊢
  unfold evalArguments allComplete argumentLookups
  by_cases hc : completes e = true
  · rw [if_pos hc] at he
    obtain ⟨v, this, he, -⟩ := he
    rw [Eval.bind_ok he, if_pos hc, hc, ← Nat.add_assoc]
    by_cases hall : allComplete es = true
    · rw [if_pos hall] at hes
      obtain ⟨vs, hes⟩ := hes
      rw [Eval.bind_ok hes, hall]
      exact ⟨_, rfl⟩
    · rw [if_neg hall] at hes
      rw [Bool.not_eq_true] at hall
      rw [Eval.bind_error hes, hall]
      rfl
  · rw [if_neg hc] at he
    rw [Eval.bind_error he, if_neg hc]
    rw [Bool.not_eq_true] at hc
    rw [hc]
    rfl

mutual
theorem counts : (e : Expr) → (n : Nat) → Counts e n
  | .identifier _, n => ⟨label n, .undefined, rfl, comes_label rfl fun h => by cases h⟩
  | .literal l, n => counts_literal l n
  | .call callee arguments, n => counts_call (counts callee n) (countsArguments arguments (n + lookups callee))
  | .member object property _, n => counts_member (counts object n) (counts property (n + lookups object))

theorem countsArguments : (es : List Expr) → (n : Nat) → CountsArguments es n
  | [], _ => ⟨_, rfl⟩
  | e :: es, n => countsArguments_cons (counts e n) (countsArguments es (n + lookups e))
end

/-! ## The pass looks up fewer identifiers -/

theorem isNull_changeAccessMode (e : Expr) : isNull (changeAccessMode e) = isNull e := by
  cases e <;> rfl

theorem isLiteral_changeAccessMode (e : Expr) : isLiteral (changeAccessMode e) = isLiteral e := by
  cases e <;> rfl

mutual
theorem completes_changeAccessMode : (e : Expr) → e.Parsed → completes (changeAccessMode e) = completes e
  | .identifier _, _ => rfl
  | .literal _, _ => rfl
  | .call callee arguments, hp => by
    unfold changeAccessMode completes
    rw [completes_changeAccessMode callee hp.1, allComplete_changeAccessModes arguments hp.2,
      isLiteral_changeAccessMode]
  | .member object property computed, ⟨hpo, hpp, hdot⟩ => by
    unfold changeAccessMode completes
    rw [completes_changeAccessMode object hpo, isNull_changeAccessMode]
    cases property with
    | identifier name => simp [changeAccessMode, visitProperty, completes]
    | _ =>
      obtain rfl : computed = true := by
        cases computed with
        | true => rfl
        | false => cases hdot rfl
      rw [visitProperty_of_not (by rw [isIdentifier_changeAccessMode]; rfl), completes_changeAccessMode _ hpp]

theorem allComplete_changeAccessModes : (es : List Expr) → Expr.AllParsed es →
    allComplete (changeAccessModes es) = allComplete es
  | [], _ => rfl
  | e :: es, hp => by
    unfold changeAccessModes allComplete
    rw [completes_changeAccessMode e hp.1, allComplete_changeAccessModes es hp.2]
end

/-- One part after the other, the second only if it is reached (`r`). -/
theorem lookups_reached {r ka kb : Bool} {a a' b b' : Nat} (ha : a' ≤ a ∧ (ka = false → a' < a))
    (hb : b' ≤ b ∧ (kb = false → b' < b)) :
    (a' + if r then b' else 0) ≤ (a + if r then b else 0) ∧
      ((ka && (!r || kb)) = false → (a' + if r then b' else 0) < a + if r then b else 0) := by
  obtain ⟨hle, hlt⟩ := ha
  obtain ⟨hble, hblt⟩ := hb
  cases r with
  | true =>
    simp only [↓reduceIte, Bool.not_true, Bool.false_or, Bool.and_eq_false_iff]
    refine ⟨by omega, ?_⟩
    rintro (h | h)
    · have := hlt h
      omega
    · have := hblt h
      omega
  | false =>
    simp only [Bool.not_false, Bool.true_or, Bool.and_true]
    exact ⟨Nat.add_le_add_right hle _, fun h => Nat.add_lt_add_right (hlt h) _⟩

mutual
/-- It never looks up more, and it looks up less where an access `o[x]` is reached. -/
theorem lookups_changeAccessMode : (e : Expr) → e.Parsed → lookups (changeAccessMode e) ≤ lookups e ∧
    (keepsMeaning e = false → lookups (changeAccessMode e) < lookups e)
  | .identifier _, _ => ⟨Nat.le_refl _, fun h => by cases h⟩
  | .literal _, _ => ⟨Nat.le_refl _, fun h => by cases h⟩
  | .call callee arguments, hp => by
    unfold changeAccessMode lookups keepsMeaning
    rw [completes_changeAccessMode callee hp.1]
    exact lookups_reached (lookups_changeAccessMode callee hp.1) (argumentLookups_changeAccessModes arguments hp.2)
  | .member object property computed, ⟨hpo, hpp, hdot⟩ => by
    have hproperty : lookups (visitProperty (changeAccessMode property)) ≤ (if computed then lookups property else 0) ∧
        ((!computed || (!property.isIdentifier && keepsMeaning property)) = false →
          lookups (visitProperty (changeAccessMode property)) < if computed then lookups property else 0) := by
      obtain ⟨hle, hlt⟩ := lookups_changeAccessMode property hpp
      cases property with
      | identifier name =>
        -- the lookup of the identifier is what the pass takes away
        have hvisit : lookups (visitProperty (changeAccessMode (.identifier name))) = 0 := rfl
        have hone : lookups (.identifier name) = 1 := rfl
        rw [hvisit, hone]
        cases computed with
        | true => exact ⟨Nat.zero_le _, fun _ => Nat.one_pos⟩
        | false => exact ⟨Nat.zero_le _, fun h => by cases h⟩
      | _ =>
        obtain rfl : computed = true := by
          cases computed with
          | true => rfl
          | false => cases hdot rfl
        rw [visitProperty_of_not (by rw [isIdentifier_changeAccessMode]; rfl), if_pos rfl]
        exact ⟨hle, hlt⟩
    have hreached := lookups_reached (r := completes object) (lookups_changeAccessMode object hpo) hproperty
    unfold changeAccessMode lookups keepsMeaning
    rw [completes_changeAccessMode object hpo, Bool.and_true, Bool.or_assoc]
    simpa only [Bool.and_eq_true, ite_and] using hreached

theorem argumentLookups_changeAccessModes : (es : List Expr) → Expr.AllParsed es →
    argumentLookups (changeAccessModes es) ≤ argumentLookups es ∧
      (allKeepMeaning es = false → argumentLookups (changeAccessModes es) < argumentLookups es)
  | [], _ => ⟨Nat.le_refl _, fun h => by cases h⟩
  | e :: es, hp => by
    unfold changeAccessModes argumentLookups allKeepMeaning
    rw [completes_changeAccessMode e hp.1]
    exact lookups_reached (lookups_changeAccessMode e hp.1) (argumentLookups_changeAccessModes es hp.2)
end

/-- The value of an expression, or what it throws, when the count starts at zero. -/
theorem eval_countingHost {e : Expr} (h : isAtom e = false) :
    (eval countingHost e 0).1 = if completes e then .ok (label (lookups e)) else .error (label (lookups e)) := by
  have hc := counts e 0
  unfold Counts at hc
  unfold eval
  split_ifs at hc ⊢ with hcomp
  · obtain ⟨v, this, hv, hcomes⟩ := hc
    rw [Eval.bind_ok hv, hcomes.labelled h, Nat.zero_add]
    rfl
  · rw [Eval.bind_error hc, Nat.zero_add]

/-- The expression has the same value, or throws the same, before and after the pass, in all surroundings. -/
def SameValue (e : Expr) : Prop :=
  ∀ (σ O : Type) (host : Host σ O) (s : σ), (eval host (changeAccessMode e) s).1 = (eval host e s).1

/-- An access by an identifier that is reached changes a value, namely in the host that counts. -/
theorem not_sameValue {e : Expr} (hp : e.Parsed) (h : keepsMeaning e = false) : ¬ SameValue e := by
  intro hsame
  have hatom : isAtom e = false := by
    cases e with
    | identifier | literal => cases h
    | call | member => rfl
  have hatom' : isAtom (changeAccessMode e) = false := by
    cases e with
    | identifier | literal => cases h
    | call | member => rfl
  have hlt := (lookups_changeAccessMode e hp).2 h
  have heq := hsame Nat Labelled countingHost 0
  rw [eval_countingHost hatom, eval_countingHost hatom', completes_changeAccessMode e hp] at heq
  have hcount : lookups (changeAccessMode e) = lookups e := by
    split_ifs at heq <;> injection heq with heq <;> injection heq with heq <;> injection heq
  omega

/-- The pass preserves the value of an expression in all surroundings exactly if the evaluation reaches no
computed access whose property is an identifier. -/
theorem changeAccessMode_sameValue_iff (e : ParsedExpr) : SameValue e.1 ↔ keepsMeaning e.1 = true := by
  constructor
  · intro hsame
    cases h : keepsMeaning e.1 with
    | true => rfl
    | false => exact absurd hsame (not_sameValue e.2 h)
  · intro h σ O host s
    unfold eval
    rw [evalRef_changeAccessMode host e.1 e.2 h]

/-- `var o = {a: true}, x = "a"`. -/
def demoHost : Host Unit Unit where
  lookup name := Eval.pure (if name = text "x" then .string (text "a") else .object ())
  get _ key := Eval.pure (if key = .string (text "a") then .boolean true else .undefined)
  toKey _ := Eval.pure (.string [])
  callable _ := false
  call _ _ _ := Eval.pure .undefined
  regExp _ _ := fun s => ((), s)
  regExp_not_callable _ _ _ := rfl
  typeError := fun s => (.undefined, s)

/-- `o[x]`. -/
def variableAccess : Expr := .member (.identifier (text "o")) (.identifier (text "x")) true

/-- `o[x]` is `true`, and `o["x"]`, which the pass makes of it, is `undefined`. -/
theorem variableAccess_changes :
    (eval demoHost variableAccess ()).1 = .ok (.boolean true) ∧
      (eval demoHost (changeAccessMode variableAccess) ()).1 = .ok .undefined ∧
      ¬ ∀ e : ParsedExpr, SameValue e.1 := by
  have hbefore : (eval demoHost variableAccess ()).1 = .ok (.boolean true) := by rfl
  have hafter : (eval demoHost (changeAccessMode variableAccess) ()).1 = .ok .undefined := by rfl
  refine ⟨hbefore, hafter, fun h => ?_⟩
  have hparsed : variableAccess.Parsed := ⟨trivial, trivial, fun hdot => by cases hdot⟩
  have hsame := h ⟨variableAccess, hparsed⟩ Unit Unit demoHost ()
  rw [hbefore, hafter] at hsame
  cases hsame

end GoodGoodStudy.Confound
