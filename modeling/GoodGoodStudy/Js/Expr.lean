/-
The JavaScript expressions that the obfuscator's access pass meets: identifiers, literals, calls and
member accesses, as Babel's tree has them, and their evaluation in the order of the language. What the
surroundings of a program decide is a `Host`: what an identifier is bound to, what reading a property of
a value or calling a function does, how an object becomes a property key. A host may do anything to its
state at each of these points, and throw.
-/
import GoodGoodStudy.Js.Text

namespace GoodGoodStudy.Js

inductive Literal
  | null
  | boolean (b : Bool)
  | numeric (bits : UInt64)  -- the double
  | bigInt (n : Int)
  | string (s : JsString)
  | regExp (pattern flags : JsString)
  deriving DecidableEq, Repr

/-- `MemberExpression` has `o.p` with `computed` false, and `o[e]` with `computed` true. -/
inductive Expr
  | identifier (name : JsString)
  | literal (l : Literal)
  | call (callee : Expr) (arguments : List Expr)
  | member (object property : Expr) (computed : Bool)

def Expr.isIdentifier : Expr → Bool
  | .identifier _ => true
  | _ => false

mutual
/-- What a parser makes of a program: the property behind a dot is an identifier. -/
def Expr.Parsed : Expr → Prop
  | .identifier _ => True
  | .literal _ => True
  | .call callee arguments => callee.Parsed ∧ Expr.AllParsed arguments
  | .member object property computed =>
    object.Parsed ∧ property.Parsed ∧ (computed = false → property.isIdentifier = true)

def Expr.AllParsed : List Expr → Prop
  | [] => True
  | e :: es => e.Parsed ∧ Expr.AllParsed es
end

/-- The expressions of programs. -/
def ParsedExpr := {e : Expr // e.Parsed}

/-- The values over a type of objects. -/
inductive Val (O : Type)
  | undefined
  | null
  | boolean (b : Bool)
  | numeric (bits : UInt64)
  | bigInt (n : Int)
  | string (s : JsString)
  | symbol (id : Nat)
  | object (o : O)
  deriving DecidableEq, Repr

def Val.isNullish {O : Type} : Val O → Bool
  | .undefined => true
  | .null => true
  | _ => false

inductive PropertyKey
  | string (s : JsString)
  | symbol (id : Nat)
  deriving DecidableEq, Repr

/-- A computation that changes the state of the host, and gives a result or throws a value. -/
abbrev Eval (σ O α : Type) := σ → Except (Val O) α × σ

namespace Eval

variable {σ O α β : Type}

def pure (a : α) : Eval σ O α := fun s => (.ok a, s)

def bind (x : Eval σ O α) (f : α → Eval σ O β) : Eval σ O β := fun s =>
  match x s with
  | (.ok a, s') => f a s'
  | (.error v, s') => (.error v, s')

theorem bind_ok {x : Eval σ O α} {a : α} {s s' : σ} (h : x s = (.ok a, s')) (f : α → Eval σ O β) :
    x.bind f s = f a s' := by
  simp only [bind, h]

theorem bind_error {x : Eval σ O α} {v : Val O} {s s' : σ} (h : x s = (.error v, s')) (f : α → Eval σ O β) :
    x.bind f s = (.error v, s') := by
  simp only [bind, h]

end Eval

/-- The surroundings of a program. -/
structure Host (σ O : Type) where
  /-- The value of an identifier; an unbound one throws. -/
  lookup : JsString → Eval σ O (Val O)
  /-- The property of a value that is neither `undefined` nor `null`. -/
  get : Val O → PropertyKey → Eval σ O (Val O)
  /-- The property key of a value that is no string. -/
  toKey : Val O → Eval σ O PropertyKey
  callable : O → Bool
  call : O → Val O → List (Val O) → Eval σ O (Val O)
  /-- A new regular expression, which is no function. -/
  regExp : JsString → JsString → σ → O × σ
  regExp_not_callable : ∀ pattern flags s, callable (regExp pattern flags s).1 = false
  /-- A new `TypeError`. -/
  typeError : σ → Val O × σ

section Evaluation

variable {σ O : Type} (host : Host σ O)

def throwTypeError {α : Type} : Eval σ O α := fun s => (.error (host.typeError s).1, (host.typeError s).2)

def evalLiteral : Literal → Eval σ O (Val O)
  | .null => Eval.pure .null
  | .boolean b => Eval.pure (.boolean b)
  | .numeric bits => Eval.pure (.numeric bits)
  | .bigInt n => Eval.pure (.bigInt n)
  | .string s => Eval.pure (.string s)
  | .regExp pattern flags => fun s => (.ok (.object (host.regExp pattern flags s).1), (host.regExp pattern flags s).2)

/-- `ToPropertyKey`. -/
def propertyKey : Val O → Eval σ O PropertyKey
  | .string s => Eval.pure (.string s)
  | .symbol id => Eval.pure (.symbol id)
  | v => host.toKey v

/-- Reading the property `key` of `base`, with `key` still to be made a property key. -/
def getMember (base key : Val O) : Eval σ O (Val O) :=
  if base.isNullish then throwTypeError host else (propertyKey host key).bind fun k => host.get base k

def callValue (fn this : Val O) (arguments : List (Val O)) : Eval σ O (Val O) :=
  match fn with
  | .object o => if host.callable o then host.call o this arguments else throwTypeError host
  | _ => throwTypeError host

/-- The key behind a dot; a parser puts nothing but identifiers there. -/
def dotName : Expr → JsString
  | .identifier name => name
  | _ => []

mutual
/-- The value of an expression, and the `this` value for a call of it: the object of a member access. -/
def evalRef : Expr → Eval σ O (Val O × Val O)
  | .identifier name => (host.lookup name).bind fun v => Eval.pure (v, .undefined)
  | .literal l => (evalLiteral host l).bind fun v => Eval.pure (v, .undefined)
  | .call callee arguments =>
    (evalRef callee).bind fun fn => (evalArguments arguments).bind fun args =>
      (callValue host fn.1 fn.2 args).bind fun v => Eval.pure (v, .undefined)
  | .member object property computed =>
    (evalRef object).bind fun base =>
      (if computed then (evalRef property).bind fun key => Eval.pure key.1
        else Eval.pure (.string (dotName property))).bind fun key =>
          (getMember host base.1 key).bind fun v => Eval.pure (v, base.1)

def evalArguments : List Expr → Eval σ O (List (Val O))
  | [] => Eval.pure []
  | e :: es => (evalRef e).bind fun v => (evalArguments es).bind fun vs => Eval.pure (v.1 :: vs)
end

def eval (e : Expr) : Eval σ O (Val O) := (evalRef host e).bind fun v => Eval.pure v.1

end Evaluation

end GoodGoodStudy.Js
