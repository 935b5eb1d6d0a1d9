/-
The JavaScript statements of the control-flow pass. `Stmt` is what a function body is written in: declarations,
assignments, expression statements, conditionals and returns, over expressions that are given by their
evaluation alone. `Code` adds what the pass generates: `let`, a loop, a `switch` that falls through, `break` and
`continue`, with the few expressions that it builds itself. Code runs with fuel, which only its loops use up.
-/
import Mathlib.Tactic.SplitIfs
import GoodGoodStudy.Js.Text
import GoodGoodStudy.Lib.Search

namespace GoodGoodStudy.Js

open GoodGoodStudy.Lib

/-! ## Numerals -/

/-- `String(n)`. -/
def numberText (n : Nat) : JsString := (Nat.toDigits 10 n).map fun c => c.toNat.toUInt16

def isDigit (c : UInt16) : Bool := 48 ≤ c && c ≤ 57

/-- `+s` for a text of decimal digits, of which the empty one counts as zero. The other texts are left out. -/
def toNumber (s : JsString) : Option Nat :=
  if s.all isDigit then some (s.foldl (fun n c => 10 * n + (c.toNat - 48)) 0) else none

theorem toNat_of_mem_toDigits {n : Nat} {c : Char} (h : c ∈ Nat.toDigits 10 n) : 48 ≤ c.toNat ∧ c.toNat ≤ 57 := by
  have hdigit := Nat.isDigit_of_mem_toDigits (by omega) (by omega) h
  unfold Char.isDigit at hdigit
  rw [Bool.and_eq_true, decide_eq_true_iff, decide_eq_true_iff] at hdigit
  exact ⟨UInt32.le_iff_toNat_le.1 hdigit.1, UInt32.le_iff_toNat_le.1 hdigit.2⟩

theorem digit_toNat {n : Nat} {c : Char} (h : c ∈ Nat.toDigits 10 n) : c.toNat.toUInt16.toNat = c.toNat := by
  have hc := (toNat_of_mem_toDigits h).2
  rw [Nat.toUInt16_eq, UInt16.toNat_ofNat']
  exact Nat.mod_eq_of_lt (by omega)

theorem isDigit_numberText {n : Nat} {c : UInt16} (h : c ∈ numberText n) : isDigit c = true := by
  obtain ⟨d, hd, rfl⟩ := List.mem_map.1 h
  obtain ⟨hlo, hhi⟩ := toNat_of_mem_toDigits hd
  unfold isDigit
  rw [Bool.and_eq_true, decide_eq_true_iff, decide_eq_true_iff, UInt16.le_iff_toNat_le, UInt16.le_iff_toNat_le,
    digit_toNat hd]
  exact ⟨hlo, hhi⟩

theorem toNumber_numberText (n : Nat) : toNumber (numberText n) = some n := by
  unfold toNumber
  rw [if_pos (List.all_eq_true.2 fun c hc => isDigit_numberText hc)]
  have hfold : (numberText n).foldl (fun n c => 10 * n + (c.toNat - 48)) 0 =
      Nat.ofDigitChars 10 (Nat.toDigits 10 n) 0 := by
    unfold numberText
    rw [List.foldl_map, Nat.ofDigitChars_eq_foldl]
    exact List.foldl_ext _ _ _ fun m c hc => by rw [digit_toNat hc]; rfl
  rw [hfold, Nat.ofDigitChars_ten_toDigits]

/-! ## States -/

/-- What a variable holds: a value of the program, or one that generated code works with. -/
inductive Value (V : Type)
  | own (v : V)
  | undefined
  | nan
  | number (n : Nat)
  | string (s : JsString)
  | strings (elements : List JsString)
  | boolean (b : Bool)

/-- The variables of the function that is running; `none` is a name that it does not declare. -/
abbrev Scope (V : Type) := JsString → Option (Value V)

def Scope.set {V : Type} (scope : Scope V) (x : JsString) (v : Option (Value V)) : Scope V :=
  fun y => if y = x then v else scope y

/-- The variables, and everything else that a program can change. -/
structure State (V W : Type) where
  scope : Scope V
  world : W

def State.set {V W : Type} (st : State V W) (x : JsString) (v : Option (Value V)) : State V W :=
  { st with scope := st.scope.set x v }

/-- What the statements leave to the rest of the language. -/
structure Expressions (E V W : Type) where
  undefined : V
  toBoolean : V → Bool
  /-- The value of an expression or the value it throws; `none` for an evaluation that never ends. -/
  eval : E → State V W → Option (Except V V × State V W)
  /-- Assignment to a name that the function does not declare. -/
  assignOuter : JsString → V → W → Except V Unit × W

inductive Completion (V : Type)
  | normal
  | ret (v : V)
  | throw (v : V)
  | brk
  | cont

/-! ## Statements of the program -/

inductive Stmt (E : Type)
  | var (declarators : List (JsString × Option E))
  | assign (x : JsString) (e : E)
  | expr (e : E)
  | ifElse (test : E) (consequent alternate : List (Stmt E))
  | ret (argument : Option E)

section Statements

variable {E V W : Type} (lang : Expressions E V W)

/-- Go on with the value of an expression. -/
def withValue (e : E) (st : State V W) (k : V → State V W → Option (Completion V × State V W)) :
    Option (Completion V × State V W) :=
  match lang.eval e st with
  | none => none
  | some (.error v, st) => some (.throw v, st)
  | some (.ok v, st) => k v st

/-- Go on with the next statement, unless this one was left for good. -/
def andThen (r : Option (Completion V × State V W)) (k : State V W → Option (Completion V × State V W)) :
    Option (Completion V × State V W) :=
  match r with
  | some (.normal, st) => k st
  | r => r

theorem andThen_normal (r : Option (Completion V × State V W)) : andThen r (fun st => some (.normal, st)) = r := by
  unfold andThen
  rcases r with _ | ⟨_ | _ | _ | _ | _, st⟩ <;> rfl

def execDeclarators : List (JsString × Option E) → State V W → Option (Completion V × State V W)
  | [], st => some (.normal, st)
  | (_, none) :: ds, st => execDeclarators ds st
  | (x, some e) :: ds, st => withValue lang e st fun v st => execDeclarators ds (st.set x (some (.own v)))

/-- `x = v`. -/
def assignTo (x : JsString) (v : V) (st : State V W) : Option (Completion V × State V W) :=
  if (st.scope x).isSome then some (.normal, st.set x (some (.own v)))
  else
    match lang.assignOuter x v st.world with
    | (.ok _, world) => some (.normal, { st with world })
    | (.error v, world) => some (.throw v, { st with world })

mutual
def execStmt : Stmt E → State V W → Option (Completion V × State V W)
  | .var ds, st => execDeclarators lang ds st
  | .assign x e, st => withValue lang e st (assignTo lang x)
  | .expr e, st => withValue lang e st fun _ st => some (.normal, st)
  | .ifElse test consequent alternate, st =>
    withValue lang test st fun v st => if lang.toBoolean v then execStmts consequent st else execStmts alternate st
  | .ret none, st => some (.ret lang.undefined, st)
  | .ret (some e), st => withValue lang e st fun v st => some (.ret v, st)

def execStmts : List (Stmt E) → State V W → Option (Completion V × State V W)
  | [], st => some (.normal, st)
  | s :: ss, st => andThen (execStmt s st) (execStmts ss)
end

mutual
/-- The names that `var` declares, in a statement or in its blocks. -/
def Stmt.varNames : Stmt E → List JsString
  | .var ds => ds.map Prod.fst
  | .ifElse _ consequent alternate => Stmt.allVarNames consequent ++ Stmt.allVarNames alternate
  | _ => []

def Stmt.allVarNames : List (Stmt E) → List JsString
  | [] => []
  | s :: ss => s.varNames ++ Stmt.allVarNames ss
end

/-- On entry the declared names are there, and undefined unless they name a parameter. -/
def hoist (names : List JsString) (st : State V W) : State V W :=
  { st with
    scope := fun x => if x ∈ names ∧ (st.scope x).isNone then some (.own lang.undefined) else st.scope x }

/-- The value that a call returns, or throws. A body is not left by `break` or `continue`. -/
def Completion.result : Completion V → Except V V
  | .ret v => .ok v
  | .throw v => .error v
  | _ => .ok lang.undefined

/-- A call of a function with this body: the result, and the state when it is left. -/
def callBody (body : List (Stmt E)) (st : State V W) : Option (Except V V × State V W) :=
  (execStmts lang body (hoist lang (Stmt.allVarNames body) st)).map fun r => (r.1.result lang, r.2)

/-! ## Variables that a statement does not know -/

@[simp] theorem State.set_set (st : State V W) (x : JsString) (v v' : Option (Value V)) :
    (st.set x v).set x v' = st.set x v' := by
  have hscope : (st.scope.set x v).set x v' = st.scope.set x v' := by
    funext y
    unfold Scope.set
    split_ifs <;> rfl
  exact congrArg (State.mk · st.world) hscope

theorem State.set_comm (st : State V W) {x y : JsString} (h : x ≠ y) (v w : Option (Value V)) :
    (st.set x v).set y w = (st.set y w).set x v := by
  have hscope : (st.scope.set x v).set y w = (st.scope.set y w).set x v := by
    funext z
    unfold Scope.set
    split_ifs with hy hx
    · exact absurd (hx.symm.trans hy) h
    · rfl
    · rfl
    · rfl
  exact congrArg (State.mk · st.world) hscope

theorem State.scope_set (st : State V W) {x y : JsString} (h : y ≠ x) (v : Option (Value V)) :
    (st.set x v).scope y = st.scope y := if_neg h

@[simp] theorem State.scope_set_self (st : State V W) (x : JsString) (v : Option (Value V)) :
    (st.set x v).scope x = v := if_pos rfl

theorem State.set_self (st : State V W) (x : JsString) : st.set x (st.scope x) = st := by
  have hscope : st.scope.set x (st.scope x) = st.scope := by
    funext y
    unfold Scope.set
    split_ifs with h
    · rw [h]
    · rfl
  exact congrArg (State.mk · st.world) hscope

/-- The expression neither reads nor writes the variable, nor does a function that it calls. -/
def Expressions.Ignores (x : JsString) (e : E) : Prop :=
  ∀ st v, lang.eval e (st.set x v) = (lang.eval e st).map fun r => (r.1, r.2.set x v)

mutual
/-- Nothing in the statement has to do with the name. -/
def Stmt.Ignores (x : JsString) : Stmt E → Prop
  | .var ds => ∀ d ∈ ds, d.1 ≠ x ∧ ∀ e ∈ d.2, lang.Ignores x e
  | .assign y e => y ≠ x ∧ lang.Ignores x e
  | .expr e => lang.Ignores x e
  | .ifElse test consequent alternate =>
    lang.Ignores x test ∧ Stmt.AllIgnore x consequent ∧ Stmt.AllIgnore x alternate
  | .ret argument => ∀ e ∈ argument, lang.Ignores x e

def Stmt.AllIgnore (x : JsString) : List (Stmt E) → Prop
  | [] => True
  | s :: ss => s.Ignores x ∧ Stmt.AllIgnore x ss
end

/-- A run that does not depend on the variable, and leaves it. -/
def Keeps (x : JsString) (f : State V W → Option (Completion V × State V W)) : Prop :=
  ∀ st v, f (st.set x v) = (f st).map fun r => (r.1, r.2.set x v)

variable {lang} {x : JsString}

theorem keeps_withValue {e : E} {k : V → State V W → Option (Completion V × State V W)} (he : lang.Ignores x e)
    (hk : ∀ v, Keeps x (k v)) : Keeps x fun st => withValue lang e st k := by
  intro st v
  simp only [withValue, he st v]
  rcases lang.eval e st with _ | ⟨_ | w, st'⟩
  · rfl
  · rfl
  · exact hk w st' v

theorem keeps_andThen {f g : State V W → Option (Completion V × State V W)} (hf : Keeps x f) (hg : Keeps x g) :
    Keeps x fun st => andThen (f st) g := by
  intro st v
  simp only [andThen, hf st v]
  rcases f st with _ | ⟨_ | _ | _ | _ | _, st'⟩
  · rfl
  · exact hg st' v
  all_goals rfl

theorem keeps_normal : Keeps x fun st : State V W => some (.normal, st) := fun _ _ => rfl

theorem keeps_set {y : JsString} (h : y ≠ x) (w : Option (Value V)) {f : State V W → Option (Completion V × State V W)}
    (hf : Keeps x f) : Keeps x fun st => f (st.set y w) := by
  intro st v
  show f ((st.set x v).set y w) = _
  rw [State.set_comm st h.symm]
  exact hf _ v

theorem keeps_declarators : ∀ {ds : List (JsString × Option E)}, (Stmt.var ds).Ignores lang x →
    Keeps x (execDeclarators lang ds)
  | [], _ => keeps_normal
  | (_, none) :: ds, h => by
    have hds : Keeps x (execDeclarators lang ds) := keeps_declarators fun d hd => h d (List.mem_cons_of_mem _ hd)
    exact hds
  | (y, some e) :: _, h => by
    obtain ⟨hne, he⟩ := h (y, some e) List.mem_cons_self
    have hds := keeps_declarators fun d hd => h d (List.mem_cons_of_mem _ hd)
    exact keeps_withValue (he e rfl) fun v => keeps_set hne _ hds

theorem keeps_assignTo {y : JsString} (h : y ≠ x) (v : V) : Keeps x (assignTo lang y v) := by
  intro st w
  unfold assignTo
  rw [State.scope_set st h]
  split_ifs
  · rw [State.set_comm st h.symm]
    rfl
  · rcases hout : lang.assignOuter y v st.world with ⟨_ | _, world⟩
    · simp only [State.set, hout]
      rfl
    · simp only [State.set, hout]
      rfl

mutual
theorem keeps_stmt : ∀ {s : Stmt E}, s.Ignores lang x → Keeps x (execStmt lang s)
  | .var _, h => keeps_declarators h
  | .assign _ _, h => keeps_withValue h.2 (keeps_assignTo h.1)
  | .expr _, h => keeps_withValue h fun _ => keeps_normal
  | .ifElse test consequent alternate, h => by
    refine keeps_withValue h.1 fun v => ?_
    split_ifs
    · exact keeps_stmts h.2.1
    · exact keeps_stmts h.2.2
  | .ret none, _ => fun _ _ => rfl
  | .ret (some e), h => keeps_withValue (h e rfl) fun _ _ _ => rfl

theorem keeps_stmts : ∀ {ss : List (Stmt E)}, Stmt.AllIgnore lang x ss → Keeps x (execStmts lang ss)
  | [], _ => keeps_normal
  | _ :: _, h => keeps_andThen (keeps_stmt h.1) (keeps_stmts h.2)
end

theorem allIgnore_of_forall : ∀ {ss : List (Stmt E)}, (∀ s ∈ ss, s.Ignores lang x) → Stmt.AllIgnore lang x ss
  | [], _ => trivial
  | s :: _, h => ⟨h s List.mem_cons_self, allIgnore_of_forall fun t ht => h t (List.mem_cons_of_mem s ht)⟩

mutual
theorem notMem_varNames : ∀ {s : Stmt E}, s.Ignores lang x → x ∉ s.varNames
  | .var ds, h => by
    intro hx
    obtain ⟨d, hd, rfl⟩ := List.mem_map.1 hx
    exact (h d hd).1 rfl
  | .assign _ _, _ => List.not_mem_nil
  | .expr _, _ => List.not_mem_nil
  | .ifElse _ _ _, h => by
    intro hx
    rcases List.mem_append.1 hx with hx | hx
    · exact notMem_allVarNames h.2.1 hx
    · exact notMem_allVarNames h.2.2 hx
  | .ret _, _ => List.not_mem_nil

theorem notMem_allVarNames : ∀ {ss : List (Stmt E)}, Stmt.AllIgnore lang x ss → x ∉ Stmt.allVarNames ss
  | [], _ => List.not_mem_nil
  | _ :: _, h => by
    intro hx
    rcases List.mem_append.1 hx with hx | hx
    · exact notMem_varNames h.1 hx
    · exact notMem_allVarNames h.2 hx
end

theorem mem_allVarNames : ∀ {ss : List (Stmt E)}, x ∈ Stmt.allVarNames ss ↔ ∃ s ∈ ss, x ∈ s.varNames
  | [] => by simp [Stmt.allVarNames]
  | s :: ss => by
    have ih : x ∈ Stmt.allVarNames ss ↔ ∃ t ∈ ss, x ∈ t.varNames := mem_allVarNames
    simp [Stmt.allVarNames, ih]

/-- Entering a function leaves a name alone that it does not declare. -/
theorem scope_hoist {names : List JsString} (h : x ∉ names) (st : State V W) :
    (hoist lang names st).scope x = st.scope x := if_neg fun hx => h hx.1

theorem hoist_congr {names names' : List JsString} (h : ∀ y, y ∈ names ↔ y ∈ names') (st : State V W) :
    hoist lang names st = hoist lang names' st := by
  unfold hoist
  simp only [h]

/-! ## How a statement ends -/

/-- The run does not end with a jump out of a `switch` or to the next round of a loop. -/
def NoJump (r : Option (Completion V × State V W)) : Prop :=
  ∀ st, r ≠ some (.brk, st) ∧ r ≠ some (.cont, st)

theorem noJump_normal (st : State V W) : NoJump (some (.normal, st)) := fun _ => ⟨nofun, nofun⟩

theorem noJump_withValue {e : E} {st : State V W} {k : V → State V W → Option (Completion V × State V W)}
    (hk : ∀ v st, NoJump (k v st)) : NoJump (withValue lang e st k) := by
  unfold withValue
  rcases lang.eval e st with _ | ⟨_ | v, st'⟩
  · exact fun _ => ⟨nofun, nofun⟩
  · exact fun _ => ⟨nofun, nofun⟩
  · exact hk v st'

theorem noJump_declarators : ∀ (ds : List (JsString × Option E)) (st : State V W), NoJump (execDeclarators lang ds st)
  | [], st => noJump_normal st
  | (_, none) :: ds, st => noJump_declarators ds st
  | (_, some _) :: ds, _ => noJump_withValue fun _ _ => noJump_declarators ds _

theorem noJump_assignTo (y : JsString) (v : V) (st : State V W) : NoJump (assignTo lang y v st) := by
  unfold assignTo
  split_ifs
  · exact noJump_normal _
  · rcases lang.assignOuter y v st.world with ⟨_ | _, world⟩
    · exact fun _ => ⟨nofun, nofun⟩
    · exact noJump_normal _

mutual
/-- A statement of a function body outside of a loop contains no jump. -/
theorem noJump_stmt : ∀ (s : Stmt E) (st : State V W), NoJump (execStmt lang s st)
  | .var ds, st => noJump_declarators ds st
  | .assign x _, _ => noJump_withValue fun v st => noJump_assignTo x v st
  | .expr _, _ => noJump_withValue fun _ st => noJump_normal st
  | .ifElse _ consequent alternate, _ => by
    refine noJump_withValue fun v st => ?_
    split_ifs
    · exact noJump_stmts consequent st
    · exact noJump_stmts alternate st
  | .ret none, _ => fun _ => ⟨nofun, nofun⟩
  | .ret (some _), _ => noJump_withValue fun _ _ _ => ⟨nofun, nofun⟩

theorem noJump_stmts : ∀ (ss : List (Stmt E)) (st : State V W), NoJump (execStmts lang ss st)
  | [], st => noJump_normal st
  | s :: ss, st => by
    have hs := noJump_stmt s st
    show NoJump (andThen (execStmt lang s st) (execStmts lang ss))
    unfold andThen
    rcases h : execStmt lang s st with _ | ⟨_ | _ | _ | _ | _, st'⟩
    · exact fun _ => ⟨nofun, nofun⟩
    · exact noJump_stmts ss st'
    · exact fun _ => ⟨nofun, nofun⟩
    · exact fun _ => ⟨nofun, nofun⟩
    · exact absurd h (hs st').1
    · exact absurd h (hs st').2
end

end Statements

/-! ## Generated code -/

/-- The expressions of generated code. -/
inductive Gen
  | stringLiteral (s : JsString)
  | numericLiteral (n : Nat)
  | identifier (x : JsString)
  | split (object separator : Gen)  -- `object.split(separator)`
  | update (x : JsString)  -- `x++`
  | member (object property : Gen)  -- `object[property]`
  | plus (argument : Gen)
  | not (argument : Gen)
  | emptyArray

inductive Code (E : Type)
  | own (s : Stmt E)
  | lets (declarators : List (JsString × Gen))
  | while (test : Gen) (body : List (Code E))
  | switch (discriminant : Gen) (cases : List (Nat × List (Code E)))
  | brk
  | cont

section Code

variable {E V W : Type}

/-- Generated code uses no other values as conditions. -/
def Value.toBoolean : Value V → Option Bool
  | .own _ => none
  | .undefined => some false
  | .nan => some false
  | .number n => some (n != 0)
  | .string s => some (s != [])
  | .strings _ => some true
  | .boolean b => some b

def Value.toNumber : Value V → Option (Value V)
  | .undefined => some .nan
  | .nan => some .nan
  | .number n => some (.number n)
  | .string s => (Js.toNumber s).map .number
  | _ => none

/-- `none` where the operands are not those of generated code. -/
def Gen.eval : Gen → Scope V → Option (Value V × Scope V)
  | .stringLiteral s, scope => some (.string s, scope)
  | .numericLiteral n, scope => some (.number n, scope)
  | .identifier x, scope => (scope x).map fun v => (v, scope)
  | .split object separator, scope =>
    match object.eval scope with
    | some (.string s, scope) =>
      match separator.eval scope with
      | some (.string sep, scope) => some (.strings (splitOnSub sep s), scope)
      | _ => none
    | _ => none
  | .update x, scope =>
    match scope x with
    | some (.number n) => some (.number n, scope.set x (some (.number (n + 1))))
    | _ => none
  | .member object property, scope =>
    match object.eval scope with
    | some (.strings elements, scope) =>
      match property.eval scope with
      | some (.number n, scope) => some ((elements[n]?.map .string).getD .undefined, scope)
      | _ => none
    | _ => none
  | .plus e, scope => (e.eval scope).bind fun r => r.1.toNumber.map fun v => (v, r.2)
  | .not e, scope => (e.eval scope).bind fun r => r.1.toBoolean.map fun b => (.boolean !b, r.2)
  | .emptyArray, scope => some (.strings [], scope)

def declareLets : List (JsString × Gen) → Scope V → Option (Scope V)
  | [], scope => some scope
  | (x, e) :: ds, scope => (e.eval scope).bind fun r => declareLets ds (r.2.set x (some r.1))

/-- The statements from the case with the value on: a case falls through to the next one. -/
def casesFrom (v : Value V) (cases : List (Nat × List (Code E))) : List (Code E) :=
  (cases.dropWhile fun c => match v with | .number n => n != c.1 | _ => true).flatMap Prod.snd

/-- A list of statements, given how one of them runs. -/
def execList (exec : Code E → State V W → Option (Completion V × State V W)) :
    List (Code E) → State V W → Option (Completion V × State V W)
  | [], st => some (.normal, st)
  | c :: cs, st => andThen (exec c st) (execList exec cs)

/-- A `break` in a `switch` ends it. -/
def endSwitch : Option (Completion V × State V W) → Option (Completion V × State V W)
  | some (.brk, st) => some (.normal, st)
  | r => r

/-- What a loop makes of a round: a `break` ends it, and `continue` begins the next round. -/
def nextRound (again : State V W → Option (Completion V × State V W)) :
    Option (Completion V × State V W) → Option (Completion V × State V W)
  | some (.normal, st) => again st
  | some (.cont, st) => again st
  | some (.brk, st) => some (.normal, st)
  | r => r

variable (lang : Expressions E V W)

def exec : Nat → Code E → State V W → Option (Completion V × State V W)
  | 0, _, _ => none
  | _ + 1, .own s, st => execStmt lang s st
  | _ + 1, .lets ds, st => (declareLets ds st.scope).map fun scope => (.normal, { st with scope })
  | fuel + 1, .while test body, st =>
    (test.eval st.scope).bind fun r =>
      match r.1.toBoolean with
      | none => none
      | some false => some (.normal, { st with scope := r.2 })
      | some true => nextRound (exec fuel (.while test body)) (execList (exec fuel) body { st with scope := r.2 })
  | fuel + 1, .switch discriminant cases, st =>
    (discriminant.eval st.scope).bind fun r =>
      endSwitch (execList (exec fuel) (casesFrom r.1 cases) { st with scope := r.2 })
  | _ + 1, .brk, st => some (.brk, st)
  | _ + 1, .cont, st => some (.cont, st)

mutual
def Code.varNames : Code E → List JsString
  | .own s => s.varNames
  | .while _ body => Code.allVarNames body
  | .switch _ cases => Code.casesVarNames cases
  | _ => []

def Code.allVarNames : List (Code E) → List JsString
  | [] => []
  | c :: cs => c.varNames ++ Code.allVarNames cs

def Code.casesVarNames : List (Nat × List (Code E)) → List JsString
  | [] => []
  | (_, body) :: cases => Code.allVarNames body ++ Code.casesVarNames cases
end

/-- The names of the `let` declarations of a block. -/
def letNames : List (Code E) → List JsString
  | [] => []
  | .lets ds :: cs => ds.map Prod.fst ++ letNames cs
  | _ :: cs => letNames cs

/-- The variables of a block are gone when it is left. -/
def leaveBlock (names : List JsString) (before after : State V W) : State V W :=
  { after with scope := fun x => if x ∈ names then before.scope x else after.scope x }

/-- A call of a function whose body is generated code. -/
def callCode (fuel : Nat) (body : List (Code E)) (st : State V W) : Option (Except V V × State V W) :=
  (execList (exec lang fuel) body (hoist lang (Code.allVarNames body) st)).map fun r =>
    (r.1.result lang, leaveBlock (letNames body) st r.2)

end Code

end GoodGoodStudy.Js
