/-
The syntax tree as Babel's traversal sees it: a node has a type, with its scalar fields, and its children in the
order in which the traversal visits them. A function expression keeps its parameters and the statements of its body
apart, since the passes look for it by its body.
-/
import GoodGoodStudy.Js.Text

namespace GoodGoodStudy.Js

inductive NodeType
  | stringLiteral (value : JsString)
  | numericLiteral (value : Nat)
  | identifier (name : JsString)
  | memberExpression (computed : Bool)
  | callExpression
  | unaryExpression (operator : JsString)
  | updateExpression (operator : JsString)
  | arrayExpression
  | variableDeclaration (kind : JsString)
  | variableDeclarator
  | whileStatement
  | switchStatement
  | switchCase
  | blockStatement
  | breakStatement
  | continueStatement
  | program
  | other (type : JsString)
  deriving DecidableEq, Repr

def NodeType.isVariableDeclaration : NodeType → Bool
  | .variableDeclaration _ => true
  | _ => false

/-- The nodes whose `body` is a list of statements. -/
def NodeType.hasBody : NodeType → Bool
  | .blockStatement => true
  | .program => true
  | _ => false

/-- `undefined` can stand where a node belongs: after `body.push(undefined)`, and as the test of a default case. -/
inductive Node
  | undefined
  | node (type : NodeType) (children : List Node)
  | functionExpression (params body : List Node)

namespace Node

def string (value : JsString) : Node := .node (.stringLiteral value) []

def numeric (value : Nat) : Node := .node (.numericLiteral value) []

def ident (name : JsString) : Node := .node (.identifier name) []

/-- `value` of a string literal. -/
def stringValue : Node → Option JsString
  | .node (.stringLiteral value) _ => some value
  | _ => none

mutual
/-- The number of function expressions. -/
def functions : Node → Nat
  | .undefined => 0
  | .node _ children => functionsIn children
  | .functionExpression params body => functionsIn params + 1 + functionsIn body

def functionsIn : List Node → Nat
  | [] => 0
  | n :: ns => n.functions + functionsIn ns
end

end Node

end GoodGoodStudy.Js
