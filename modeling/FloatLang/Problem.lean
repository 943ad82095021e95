import FloatLang.Diagnostic
import FloatLang.Token

/-!
# Problems

Everything that can be wrong with a source, by its cause, and the wording of each cause.

## Main definitions

* `Problem` — the causes
* `Problem.template`, `Problem.arguments` — their wording
* `Report` — a cause at a place
-/

namespace FloatLang

/-- The clauses of a `for` header that end in a `;`. -/
inductive HeaderClause
  | init
  | condition
  deriving DecidableEq, Repr

/-- What a header clause is called in messages. -/
def HeaderClause.name : HeaderClause → String
  | .init => "init statement"
  | .condition => "condition"

/-- What can be wrong with a source. `found` is the token that stands where another is due. -/
inductive Problem
  /-- The characters of a token are no token. -/
  | lexical (error : LexError)
  /-- An opening bracket is never closed. -/
  | unclosed (bracket : Bracket)
  /-- A closing bracket closes nothing. -/
  | unopened (op : Operator)
  | statementExpected (found : Token)
  | operatorExpected (found : Token)
  | nameExpected (found : Token)
  | assignExpected (found : Token)
  | bodyExpected (found : Token)
  | loopBodyExpected (found : Token)
  | stepExpected
  | headerSemicolonExpected (clause : HeaderClause) (found : Token)
  | terminatorExpected (found : Token)
  | duplicate (name : String)
  | previousDefinition (name : String)
  | undefined (name : String)
  /-- The file ends inside an expression that was to end at an operator. -/
  | unfinished (terminal : Operator)
  | keywordInExpression (word : Keyword)
  | operatorInExpression (op : Operator)
  /-- A closing parenthesis closes none of its expression's parentheses. -/
  | strayParenthesis
  | expressionExpected
  | semicolonExpected (operand : String)
  /-- Only variables can be incremented and decremented. -/
  | variableRequired (op : Operator)
  | operandExpected (op : Operator)
  deriving DecidableEq, Repr

namespace Problem

/-- The template of a problem's message. -/
def template : Problem → String
  | lexical _ => "%s"
  | unclosed _ => "unmatched %s"
  | unopened _ => "unmatched %s"
  | statementExpected _ => "expected statement but received %s instead"
  | operatorExpected _ => "expected operator after identifier, but received %s instead"
  | nameExpected _ => "variable declaration expected identifier but received %s instead"
  | assignExpected _ => "assignment statement expected '=' operator, but received %s instead"
  | bodyExpected _ => "if statement expected '\x7b' but received %s instead"
  | loopBodyExpected _ => "for loop expected '\x7b' but received %s instead"
  | stepExpected => "for loop expected increment or decrement statement"
  | headerSemicolonExpected _ _ => "for loop expected ';' after %s but received %s instead"
  | terminatorExpected _ => "expected ';' at end of statement, but received %s instead"
  | duplicate _ => "duplicate definition of %qs"
  | previousDefinition _ => "previous definition of %qs was here"
  | undefined _ => "%qs is undefined"
  | unfinished _ => "unresolved expression: reached EOF before expected %s"
  | keywordInExpression _ => "cannot use reserved word %qs in expression"
  | operatorInExpression _ => "cannot use %s in expression"
  | strayParenthesis => "unmatched close parenthesis"
  | expressionExpected => "expected expression"
  | semicolonExpected _ => "expected ';' before %qs"
  | variableRequired _ => "lvalue required as %s operand"
  | operandExpected _ => "expected expression as operand of %s"

/-- The arguments of a problem's message. -/
def arguments : Problem → List String
  | lexical error => [error.message]
  | unclosed bracket => [bracket.name]
  | unopened op => [op.name]
  | statementExpected found => [found.description]
  | operatorExpected found => [found.description]
  | nameExpected found => [found.description]
  | assignExpected found => [found.description]
  | bodyExpected found => [found.description]
  | loopBodyExpected found => [found.description]
  | stepExpected => []
  | headerSemicolonExpected clause found => [clause.name, found.description]
  | terminatorExpected found => [found.description]
  | duplicate name => [name]
  | previousDefinition name => [name]
  | undefined name => [name]
  | unfinished terminal => [terminal.name]
  | keywordInExpression word => [word.spelling]
  | operatorInExpression op => [op.name]
  | strayParenthesis => []
  | expressionExpected => []
  | semicolonExpected operand => [operand]
  | variableRequired op => [if op = .increment then "increment" else "decrement"]
  | operandExpected op => [op.name]

/-- The message of a problem. -/
def message (quotes : Quotes) (p : Problem) : String :=
  Message.expand quotes p.template p.arguments

end Problem

/-- A problem at a place. Only the reminder of an earlier definition is no error. -/
structure Report where
  severity : Severity := .error
  location : Location
  problem : Problem
  deriving DecidableEq, Repr

/-- The report as a diagnostic. -/
def Report.diagnostic (quotes : Quotes) (r : Report) : Diagnostic :=
  ⟨r.severity, r.location, r.problem.message quotes⟩

end FloatLang
