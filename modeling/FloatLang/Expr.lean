import FloatLang.Token

/-!
# Expressions

Expressions with every identifier bound to its declaration and every node at its place in the
source.

## Main definitions

* `Variable` — a declared variable
* `Reference` — a use of a variable
* `Expr` — expressions
* `Expr.isOperand` — what may stand as an operand
* `Expr.text` — an expression with its operators in front, in parentheses
* `Expr.same` — structural equality, places included
-/

namespace FloatLang

/-- A declared variable: its name and where it was declared. -/
structure Variable where
  name : String
  location : Location
  deriving DecidableEq, Repr, Inhabited

/-- The same name declared at the same place. -/
def Variable.same (a b : Variable) : Bool := a.name == b.name && a.location.same b.location

/-- A use of a variable. -/
structure Reference where
  target : Variable
  location : Location
  deriving DecidableEq, Repr, Inhabited

/-- Expressions. -/
inductive Expr
  | invalid (location : Location)
  | unary (op : Operator) (operand : Expr) (location : Location)
  | binary (op : Operator) (left right : Expr) (location : Location)
  | reference (r : Reference)
  | numeral (value : Numeral) (location : Location)
  | condition (inner : Expr) (location : Location)
  deriving DecidableEq, Repr, Inhabited

namespace Expr

/-- Where an expression is written; an operator expression is at its operator. -/
def location : Expr → Location
  | invalid l => l
  | unary _ _ l => l
  | binary _ _ _ l => l
  | reference r => r.location
  | numeral _ l => l
  | condition _ l => l

/-- Whether an expression stands for an error. -/
def isInvalid : Expr → Bool
  | invalid _ => true
  | _ => false

/-- Whether an expression is a use of a variable. -/
def isReference : Expr → Bool
  | reference _ => true
  | _ => false

/-- Whether an expression may be the operand of an operator. -/
def isOperand : Expr → Bool
  | unary .. | binary .. | reference _ | numeral .. => true
  | invalid _ | condition .. => false

/-- The expression in parentheses, operators in front: `(+ 1 (* 2 3))`. -/
def text : Expr → String
  | invalid _ => "<invalid>"
  | unary op operand _ => "(" ++ op.spelling ++ " " ++ operand.text ++ ")"
  | binary op left right _ => "(" ++ op.spelling ++ " " ++ left.text ++ " " ++ right.text ++ ")"
  | reference r => r.target.name
  | numeral value _ => value.text
  | condition inner _ => "(cond " ++ inner.text ++ ")"

instance : ToString Expr := ⟨text⟩

/-- The operand written first. -/
def leftmost : Expr → Expr
  | unary _ operand _ => operand.leftmost
  | binary _ left _ _ => left.leftmost
  | e => e

/-- Structural equality; places are compared as places in files, however a path is spelled. -/
def same : Expr → Expr → Bool
  | invalid l, invalid l' => l.same l'
  | unary op e l, unary op' e' l' => op == op' && e.same e' && l.same l'
  | binary op a b l, binary op' a' b' l' => op == op' && a.same a' && b.same b' && l.same l'
  | reference r, reference r' => r.target.same r'.target && r.location.same r'.location
  | numeral v l, numeral v' l' => v == v' && l.same l'
  | condition e l, condition e' l' => e.same e' && l.same l'
  | _, _ => false

end Expr

end FloatLang
