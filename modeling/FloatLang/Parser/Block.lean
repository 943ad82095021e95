import FloatLang.Parser.Simple

/-!
# Reading block statements

`if` and `for` own a scope. How the statements inside are read is left open here: `body` reads
the statements of a scope up to its closing brace, `statement` reads one statement.

## Main definitions

* `Parser.blockWith` — reads a body into a scope of its own
* `Parser.branchWith` — reads an `if`
* `Parser.loopHeaderWith`, `Parser.loopWith` — read a `for`
-/

namespace FloatLang.Parser

/-- Reads a body into a new scope. Its opening brace has been read. -/
def blockWith (body : Parser → Except Halt Parser) (p : Parser) :
    Except Halt (Scope Statement × Parser) := do
  let p ← body p.enter
  p.leave

/-- Reads `if condition { … }`. -/
def branchWith (body : Parser → Except Halt Parser) (p : Parser) :
    Except Halt (Statement × Parser) :=
  let keyword := p.next
  match p.advance.condition .leftBrace with
  | (none, p) => .ok (.invalid keyword.location, p.synchronize)
  | (some condition, p) =>
    let brace := p.next
    let p := p.advance
    if brace.isOperator .leftBrace then do
      let (scope, p) ← blockWith body p
      return (.branch condition scope keyword.location, p)
    else
      .ok (.invalid keyword.location, (p.error brace.location (.bodyExpected brace)).synchronize)

/-- Reads the `;` after a clause; tells whether it was there. -/
def headerSemicolon (clause : HeaderClause) (p : Parser) : Bool × Parser :=
  let t := p.next
  let p := p.advance
  if t.isOperator .semicolon then (true, p)
  else (false, (p.error t.location (.headerSemicolonExpected clause t)).synchronize)

/-- Whether a first clause failed in a way that has skipped the rest of the header. -/
def initFailed : Statement → Bool
  | .compound first second _ => first.isInvalid || second.isInvalid
  | s => s.isInvalid

/-- Reads the first clause of a loop and the `;` that ends it, and tells whether the header may
go on. The clause is left in the loop's scope, to be taken back when the header is complete. -/
def loopInit (statement : Parser → Except Halt (Statement × Parser)) (p : Parser) :
    Except Halt (Bool × Parser) := do
  let p := p.fill 1
  if p.next.isOperator .semicolon then return (true, p.advance)
  let (init, p) ← statement p
  if initFailed init then return (false, p)
  let p := p.push init
  if init.isBlock then return p.headerSemicolon .init
  return (true, p)

/-- Reads the condition of a loop and the `;` that ends it. -/
def loopCondition (p : Parser) : Option (Option Statement) × Parser :=
  let p := p.fill 1
  if p.next.isOperator .semicolon then (some none, p.advance)
  else
    match p.condition .semicolon with
    | (none, p) => (none, p.synchronize)
    | (some condition, p) =>
      match p.headerSemicolon .condition with
      | (true, p) => (some (some (.expr condition.expr condition.location)), p)
      | (false, p) => (none, p)

/-- Reads the last clause of a loop, which only a step can be. -/
def loopIncrement (p : Parser) : Except Halt (Option (Option Statement) × Parser) :=
  let p := p.fill 1
  if p.next.identifier?.isNone then .ok (some none, p)
  else
    let p := p.fill 2
    let after := p.ahead 1
    if (after.operator?.bind Direction.ofOperator?).isSome then do
      let (increment, p) ← p.step false
      if increment.isInvalid then return (none, p.synchronize)
      return (some (some increment), p)
    else .ok (none, (p.advance.error after.location .stepExpected).synchronize)

/-- The clauses of a loop but the first. -/
structure LoopHeader where
  condition : Option Statement
  increment : Option Statement

/-- Reads everything between `for` and the body, with the opening brace of the body. -/
def loopHeaderWith (statement : Parser → Except Halt (Statement × Parser)) (p : Parser) :
    Except Halt (Option LoopHeader × Parser) := do
  match ← loopInit statement p with
  | (false, p) => return (none, p)
  | (true, p) =>
    match p.loopCondition with
    | (none, p) => return (none, p)
    | (some condition, p) =>
      match ← p.loopIncrement with
      | (none, p) => return (none, p)
      | (some increment, p) =>
        let brace := p.next
        let p := p.advance
        if brace.isOperator .leftBrace then return (some ⟨condition, increment⟩, p)
        return (none, (p.error brace.location (.loopBodyExpected brace)).synchronize)

/-- Reads `for init; condition; increment { … }`, of which every clause may be absent. The
loop's scope is open from its first clause on; a header that fails abandons it. -/
def loopWith (body : Parser → Except Halt Parser)
    (statement : Parser → Except Halt (Statement × Parser)) (p : Parser) :
    Except Halt (Statement × Parser) := do
  let keyword := p.next
  match ← loopHeaderWith statement p.advance.enter with
  | (none, p) =>
    let (_, p) ← p.leave
    return (.invalid keyword.location, p)
  | (some header, p) =>
    let (init, p) := p.pop
    let p ← body p
    let (scope, p) ← p.leave
    return (.loop init header.condition header.increment scope keyword.location, p)

end FloatLang.Parser
