import FloatLang.Expr

/-!
# Scopes

A scope is a region of the program: the variables declared in it and the statements written in
it, both in order. A scope refers to its parent by number only.

## Main definitions

* `Scope` — a scope over any kind of statement
* `Scope.lookup?`, `Scope.undefine` — its variables
* `Scope.push`, `Scope.pop` — its statements
-/

namespace FloatLang

/-- A scope whose statements have type `α`. The outermost scope has no parent. -/
structure Scope (α : Type) where
  id : Nat
  parent? : Option Nat
  /-- The variables declared in the scope, in order. -/
  declared : List Variable := []
  statements : List α := []
  deriving DecidableEq, Repr, Inhabited

namespace Scope

variable {α : Type} (s : Scope α)

/-- The scope around the whole program. -/
def outermost : Scope α := { id := 0, parent? := none }

/-- Whether a scope has no parent. -/
def isOutermost : Bool := s.parent?.isNone

/-- The variable of a name declared in this very scope. -/
def lookup? (name : String) : Option Variable := s.declared.find? (·.name == name)

/-- Adds a variable. -/
def declare (v : Variable) : Scope α := { s with declared := s.declared ++ [v] }

/-- Removes the variable of a name. -/
def undefine (name : String) : Option Variable × Scope α :=
  (s.lookup? name, { s with declared := s.declared.eraseP (·.name == name) })

/-- Adds a statement. -/
def push (statement : α) : Scope α := { s with statements := s.statements ++ [statement] }

/-- Removes the last statement. -/
def pop : Option α × Scope α :=
  (s.statements.getLast?, { s with statements := s.statements.dropLast })

/-- Removes all statements; the variables stay. -/
def take : List α × Scope α := (s.statements, { s with statements := [] })

end Scope

end FloatLang
