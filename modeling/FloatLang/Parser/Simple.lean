import FloatLang.Parser.Expression

/-!
# Reading simple statements

Declarations, assignments and steps: the statements that own no scope. Each ends at a `;`, a
line break or the end of the file, which belongs to it, or before a closing brace, which does
not. A statement that fails has been reported and the rest of its line skipped.

## Main definitions

* `Parser.terminator` — reads the end of a statement
* `Parser.assignment`, `Parser.step`, `Parser.declaration` — read a statement
-/

namespace FloatLang.Parser

variable (p : Parser)

/-- Whether a token ends a statement. -/
def endsStatement (t : Token) : Bool := t.isTerminator || t.isOperator .rightBrace

/-- Reads the end of a statement; tells whether there was one. -/
def terminator : Bool × Parser :=
  let p := p.fill 1
  let t := p.next
  if t.isOperator .rightBrace then (true, p)
  else if t.isTerminator then (true, p.advance)
  else (false, (p.advance.error t.location (.terminatorExpected t)).synchronize)

/-- Reads `x = expression`. -/
def assignment : Statement × Parser :=
  let name := p.next
  let p := p.advance
  let equals := p.next
  let p := p.advance
  if equals.isOperator .assign then
    match p.resolve (name.identifier?.getD "") name.location with
    | (none, p) => (.invalid name.location, p.synchronize)
    | (some v, p) =>
      match p.expression .semicolon with
      | (none, p) => (.invalid equals.location, p.synchronize)
      | (some value, p) =>
        match p.terminator with
        | (true, p) => (.assign ⟨v, name.location⟩ value name.location, p)
        | (false, p) => (.invalid equals.location, p)
  else
    (.invalid equals.location, (p.error equals.location (.assignExpected equals)).synchronize)

/-- Reads `x++` or `x--`, and the end of the statement if `terminated` is set. -/
def step (terminated : Bool) : Except Halt (Statement × Parser) :=
  let name := p.next
  let p := p.advance
  let op := p.next
  let p := p.advance
  match op.operator?.bind Direction.ofOperator? with
  | none => p.halt .stepMissing
  | some direction =>
    match p.resolve (name.identifier?.getD "") name.location with
    | (none, p) => .ok (.invalid name.location, if terminated then p.synchronize else p)
    | (some v, p) =>
      let statement : Statement := .step direction ⟨v, name.location⟩ name.location
      if terminated then
        match p.terminator with
        | (true, p) => .ok (statement, p)
        | (false, p) => .ok (.invalid name.location, p)
      else .ok (statement, p)

/-- Reads `float x`, perhaps with an initial value: `float x = expression`. -/
def declaration : Statement × Parser :=
  let keyword := p.next
  let p := p.advance.fill 1
  let name := p.next
  match name.identifier? with
  | none => (.invalid name.location, (p.error name.location (.nameExpected name)).synchronize)
  | some x =>
    let p := p.fill 2
    if endsStatement (p.ahead 1) then
      match p.advance.terminator.2.define x name.location with
      | (some v, p) => (.declare v, p)
      | (none, p) => (.invalid name.location, p)
    else
      match p.define x name.location with
      | (some v, p) =>
        let (value, p) := p.assignment
        (.compound (.declare v) value keyword.location, p)
      | (none, p) => (.invalid name.location, p.synchronize)

end FloatLang.Parser
