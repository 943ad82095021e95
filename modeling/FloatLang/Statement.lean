import FloatLang.Scope

/-!
# Statements

Statements, with the scopes that block statements own.

## Main definitions

* `Condition` — an expression that decides
* `Direction` — whether a variable is incremented or decremented
* `Statement` — statements
* `Statement.text` — a statement in parentheses, its keyword in front
-/

namespace FloatLang

/-- The expression an `if` or `for` depends on. -/
structure Condition where
  inner : Expr
  location : Location
  deriving DecidableEq, Repr, Inhabited

/-- The condition as an expression. -/
def Condition.expr (c : Condition) : Expr := .condition c.inner c.location

/-- Whether a variable is incremented or decremented. -/
inductive Direction
  | up
  | down
  deriving DecidableEq, Repr, Inhabited

namespace Direction

/-- The operator of a direction. -/
def operator : Direction → Operator
  | .up => .increment
  | .down => .decrement

/-- The direction of an operator. -/
def ofOperator? : Operator → Option Direction
  | .increment => some .up
  | .decrement => some .down
  | _ => none

/-- The name of a direction. -/
def name : Direction → String
  | .up => "inc"
  | .down => "dec"

end Direction

/-- Statements. A declaration with an initial value is the `compound` of a declaration and an
assignment; a loop's own scope holds the variable of its first clause. -/
inductive Statement
  | invalid (location : Location)
  | declare (v : Variable)
  | assign (target : Reference) (value : Expr) (location : Location)
  | step (direction : Direction) (target : Reference) (location : Location)
  | branch (condition : Condition) (body : Scope Statement) (location : Location)
  | loop (init condition increment : Option Statement) (body : Scope Statement)
      (location : Location)
  | expr (e : Expr) (location : Location)
  | compound (first second : Statement) (location : Location)
  deriving Repr, Inhabited

namespace Statement

/-- Where a statement is written. -/
def location : Statement → Location
  | invalid l => l
  | declare v => v.location
  | assign _ _ l => l
  | step _ _ l => l
  | branch _ _ l => l
  | loop _ _ _ _ l => l
  | expr _ l => l
  | compound _ _ l => l

/-- Whether a statement stands for an error. -/
def isInvalid : Statement → Bool
  | invalid _ => true
  | _ => false

/-- Whether a statement owns a scope. -/
def isBlock : Statement → Bool
  | branch .. | loop .. => true
  | _ => false

/-- The expression of a step: its operator applied to its variable. -/
def stepExpr (direction : Direction) (target : Reference) (location : Location) : Expr :=
  .unary direction.operator (.reference target) location

mutual

/-- The statement in parentheses: `(assign x (+ x 1))`. -/
def text : Statement → String
  | invalid _ => "<invalid>"
  | declare v => "(var-dec " ++ v.name ++ ")"
  | assign target value _ => "(assign " ++ target.target.name ++ " " ++ value.text ++ ")"
  | step direction target l =>
    "(" ++ direction.name ++ " " ++ (stepExpr direction target l).text ++ ")"
  | branch condition body _ => "(if " ++ condition.expr.text ++ " " ++ scopeText body ++ ")"
  | loop init condition increment body _ =>
    "(for " ++ clauseText init ++ " " ++ clauseText condition ++ " " ++ clauseText increment ++
      " " ++ scopeText body ++ ")"
  | expr e _ => "(expr " ++ e.text ++ ")"
  | compound first second _ => "(compound " ++ first.text ++ " " ++ second.text ++ ")"

/-- A scope in parentheses: `(scope …)`. -/
def scopeText : Scope Statement → String
  | ⟨_, _, _, statements⟩ => "(scope" ++ listText statements ++ ")"

/-- The statements of a scope, each after a space. -/
def listText : List Statement → String
  | [] => ""
  | s :: rest => " " ++ s.text ++ listText rest

/-- A clause of a loop; `_` if it is absent. -/
def clauseText : Option Statement → String
  | none => "_"
  | some s => s.text

end

instance : ToString Statement := ⟨text⟩

end Statement

end FloatLang
