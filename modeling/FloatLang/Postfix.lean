import FloatLang.Expr
import FloatLang.Problem

/-!
# Postfix order

An infix expression is first put into postfix order, with a stack of the operators that still
wait for their right operand, and then assembled into a tree from its end.

## Main definitions

* `Postfix.Item` — an operand or an operator
* `Postfix.Yard` — the operators that wait and the items put in order so far
* `Postfix.Yard.shift?` — takes one operator of the infix expression
* `Postfix.assemble` — the tree of the last expression of a postfix sequence
-/

namespace FloatLang.Postfix

/-- An operand or an operator of an expression in postfix order. -/
inductive Item
  | operand (e : Expr)
  | operator (op : Operator) (location : Location)
  deriving DecidableEq, Repr

/-- The state of putting an expression into postfix order. -/
structure Yard where
  /-- The operators and opening parentheses that wait, the last one first. -/
  waiting : List (Operator × Location) := []
  /-- The items in order, the last one first. -/
  items : List Item := []
  /-- Whether the last token still lacks an operand. -/
  continues : Bool := false
  deriving DecidableEq, Repr

/-- Puts operators in order, the first of them first. -/
def release (ops : List (Operator × Location)) (items : List Item) : List Item :=
  ops.foldl (fun items (op, l) => .operator op l :: items) items

namespace Yard

variable (y : Yard)

/-- Takes an operand. -/
def operand (e : Expr) : Yard := { y with items := .operand e :: y.items, continues := false }

/-- Takes an operator that waits for what follows. -/
def wait (op : Operator) (l : Location) : Yard := { y with waiting := (op, l) :: y.waiting }

/-- Takes a closing parenthesis, if one was opened: the operators between the two are done. -/
def close? : Option Yard :=
  let inside := y.waiting.takeWhile (·.1 != .leftParen)
  match y.waiting.dropWhile (·.1 != .leftParen) with
  | [] => none
  | _ :: outside => some { y with waiting := outside, items := release inside y.items }

/-- Takes a binary operator: the operators that bind at least as tightly are done. -/
def infixed (op : Operator) (l : Location) : Yard :=
  let done := y.waiting.takeWhile (op.precedence ≤ ·.1.precedence)
  let left := y.waiting.dropWhile (op.precedence ≤ ·.1.precedence)
  { y with waiting := (op, l) :: left, items := release done y.items }

/-- Takes an operator or parenthesis; fails at a closing parenthesis without an opening one. -/
def shift? (op : Operator) (l : Location) : Option Yard :=
  let shifted : Option Yard :=
    match op with
    | .leftParen => some (y.wait op l)
    | .rightParen => y.close?
    | .increment | .decrement => some { y with items := .operator op l :: y.items }
    | .not => some (y.wait op l)
    | _ => some (y.infixed op l)
  shifted.map ({ · with continues := op.expectsOperand })

/-- The parentheses still open, the innermost first. -/
def openParentheses : List Location :=
  (y.waiting.filter (·.1 == .leftParen)).map Prod.snd

/-- All items in order, the last one first, after the waiting operators are done too. -/
def finish : List Item := release y.waiting y.items

end Yard

/-- An operator that lacks operands while a tree is assembled from the end. -/
inductive Frame
  /-- Its last operand is missing. -/
  | last (op : Operator) (location : Location)
  /-- Its first operand is missing, the second is there. -/
  | first (op : Operator) (location : Location) (right : Expr)
  deriving DecidableEq, Repr

/-- A problem at a place. -/
structure Complaint where
  location : Location
  problem : Problem
  deriving DecidableEq, Repr

/-- The outcome of handing an operand to the operators that lack one. -/
inductive Settled
  | root (e : Expr)
  | lacking (frames : List Frame)
  deriving DecidableEq, Repr

/-- Hands an operand to the innermost operator that lacks one, and the expressions this
completes to the operators around it. -/
def settle : List Frame → Expr → Except Complaint Settled
  | [], e => .ok (.root e)
  | .last op l :: frames, e =>
    if op.isUnary then
      if op.isStep && !e.isReference then .error ⟨l, .variableRequired op⟩
      else settle frames (.unary op e l)
    else .ok (.lacking (.first op l e :: frames))
  | .first op l right :: frames, e => settle frames (.binary op e right l)

/-- What is wrong when the items run out. -/
def runOut (start : Location) : List Frame → Complaint
  | [] => ⟨start, .expressionExpected⟩
  | .last op l :: _ => ⟨l, .operandExpected op⟩
  | .first op l _ :: _ => ⟨l, .operandExpected op⟩

/-- Assembles the tree of the last expression of a postfix sequence, given from its end, and
returns the items in front of it. -/
def assembleWith (start : Location) :
    List Frame → List Item → Except Complaint (Expr × List Item)
  | frames, [] => .error (runOut start frames)
  | frames, .operator op l :: items => assembleWith start (.last op l :: frames) items
  | frames, .operand e :: items =>
    match settle frames e with
    | .error complaint => .error complaint
    | .ok (.root e) => .ok (e, items)
    | .ok (.lacking frames) => assembleWith start frames items

/-- The tree of a postfix sequence, given from its end. The whole sequence has to be one
expression. -/
def assemble (start : Location) (items : List Item) : Except Complaint Expr :=
  match assembleWith start [] items with
  | .error complaint => .error complaint
  | .ok (e, []) => .ok e
  | .ok (e, _ :: _) => .error ⟨e.leftmost.location, .semicolonExpected e.leftmost.text⟩

end FloatLang.Postfix
