import FloatLang.Scanner
import FloatLang.ScopeChain

/-!
# Parsers

A parser reads the tokens of a scanner into a chain of scopes. What it reports goes to the
scanner, so that the reports of both stay in order.

## Main definitions

* `Parser` — a scanner and the scopes open around the current place
* `Fault`, `Halt` — a call that no parser can answer
* `Parser.synchronize` — gives up on a line
* `Parser.define`, `Parser.resolve` — declares and looks up names
-/

namespace FloatLang

/-- A reader of programs. -/
structure Parser where
  scanner : Scanner
  scopes : ScopeChain := {}
  deriving Repr

/-- A call that can not be answered. -/
inductive Fault
  /-- The outermost scope was to be closed. -/
  | outermostLeft
  /-- An increment was to be read where there is none. -/
  | stepMissing
  /-- More nested statements were to be read than the source has tokens. -/
  | exhausted
  deriving DecidableEq, Repr

/-- The message of a fault. -/
def Fault.message : Fault → String
  | .outermostLeft => "the supercontext can not be left"
  | .stepMissing => "increment statements are only parsed ahead of '++' or '--'"
  | .exhausted => "the source has more statements than tokens"

/-- How a parser stops that can not go on: why, and what it had reported by then. -/
structure Halt where
  fault : Fault
  reports : List Report
  deriving DecidableEq, Repr

namespace Parser

variable (p : Parser)

/-- Stops. -/
def halt {α : Type} (fault : Fault) : Except Halt α := .error ⟨fault, p.scanner.reports⟩

/-- A parser at the start of a source. -/
def ofSource (source : Source) : Parser := { scanner := { source } }

/-- Changes the scanner. -/
def modifyScanner (f : Scanner → Scanner) : Parser := { p with scanner := f p.scanner }

/-- Reads ahead until at least `n` tokens are waiting. -/
def fill (n : Nat) : Parser := p.modifyScanner (·.fill n)

/-- The next token. -/
def next : Token := p.scanner.next

/-- The token `n` places after the next one. -/
def ahead (n : Nat) : Token := p.scanner.ahead n

/-- Hands out the next token. -/
def advance : Parser := p.modifyScanner Scanner.advance

/-- An upper bound for the tokens left. -/
def remaining : Nat := p.scanner.remaining

/-- Records an error. -/
def error (location : Location) (problem : Problem) : Parser :=
  p.modifyScanner (·.error location problem)

/-- Records an error about the next token and hands it out; if handing it out is reported
itself, that is the only error. -/
def reject (problem : Problem) : Parser :=
  match p.scanner.objection? p.next with
  | some _ => p.advance
  | none => p.advance.error p.next.location problem

/-- Skips the rest of the line, unless the line was already finished. -/
def synchronize : Parser :=
  match p.scanner.last? with
  | some t => if t.endsLine then p else p.modifyScanner Scanner.skipLine
  | none => p.modifyScanner Scanner.skipLine

/-- Opens a scope. -/
def enter : Parser := { p with scopes := p.scopes.enter }

/-- Closes the current scope and hands it back. -/
def leave : Except Halt (Scope Statement × Parser) :=
  match p.scopes.leave? with
  | some (s, scopes) => .ok (s, { p with scopes })
  | none => p.halt .outermostLeft

/-- Adds a statement to the current scope. -/
def push (s : Statement) : Parser := { p with scopes := p.scopes.push s }

/-- Takes the last statement of the current scope back. -/
def pop : Option Statement × Parser :=
  let (s, scopes) := p.scopes.pop
  (s, { p with scopes })

/-- Declares a name in the current scope. A second declaration is reported, and a reminder of
the first one with it. -/
def define (name : String) (location : Location) : Option Variable × Parser :=
  match p.scopes.define name location with
  | .ok (v, scopes) => (some v, { p with scopes })
  | .error r =>
    let reminder : Report :=
      { severity := .inform, location := r.previous.location, problem := .previousDefinition name }
    (none, (p.error r.location (.duplicate name)).modifyScanner (·.report reminder))

/-- The variable a name refers to. A name that refers to none is reported. -/
def resolve (name : String) (location : Location) : Option Variable × Parser :=
  match p.scopes.resolve? name with
  | some v => (some v, p)
  | none => (none, p.error location (.undefined name))

end Parser

end FloatLang
