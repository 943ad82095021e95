import FloatLang.Parser.Block

/-!
# Reading programs

A statement is chosen by its first tokens. A body is a sequence of statements; blank lines and
stray semicolons separate statements without being statements. A program is a body that ends
with the file.

## Main definitions

* `Parser.statementWithin`, `Parser.bodyWithin` — read with a bound on the nesting
* `Parser.statement`, `Parser.body`, `Parser.block`, `Parser.branch`, `Parser.loop` — the
  same with a bound that suffices for the tokens left
* `Parser.program` — reads a whole program
-/

namespace FloatLang.Parser

/-- Skips a line that starts with a name without an operator behind it. -/
def rejectName (p : Parser) (after : Token) : Statement × Parser :=
  (.invalid p.next.location,
    (p.advance.error after.location (.operatorExpected after)).synchronize)

/-- Skips a line that starts with what starts no statement. -/
def rejectStatement (p : Parser) : Statement × Parser :=
  (.invalid p.next.location, (p.reject (.statementExpected p.next)).synchronize)

/-- Reads a statement that starts with a name: a step, if an increment or decrement follows, or
else an assignment. -/
def named (p : Parser) : Except Halt (Statement × Parser) :=
  let p := p.fill 2
  match (p.ahead 1).operator? with
  | some op => if op.isStep then p.step true else .ok p.assignment
  | none => .ok (p.rejectName (p.ahead 1))

mutual

/-- Reads a statement. -/
def statementWithin : Nat → Parser → Except Halt (Statement × Parser)
  | 0, p => p.halt .exhausted
  | n + 1, p =>
    let p := p.fill 1
    match p.next.kind with
    | .keyword .float => .ok p.declaration
    | .keyword .if => branchWith (bodyWithin n false) p
    | .keyword .for => loopWith (bodyWithin n false) (statementWithin n) p
    | .identifier _ => p.named
    | _ => .ok p.rejectStatement

/-- Reads statements into the current scope. A body ends at its closing brace or at the end of
the file, a program (`top`) only there, and a program then reports the brackets left open. -/
def bodyWithin : Nat → Bool → Parser → Except Halt Parser
  | 0, _, p => p.halt .exhausted
  | n + 1, top, p =>
    let p := p.fill 1
    let t := p.next
    if t.isEndOfFile then .ok (if top then p.modifyScanner Scanner.flush else p)
    else if t.isEndOfLine || t.isOperator .semicolon then bodyWithin n top p.advance
    else if t.isOperator .rightBrace then
      if top then bodyWithin n top p.advance else .ok p.advance
    else do
      let (s, p) ← statementWithin n p
      bodyWithin n top (if s.isInvalid then p else p.push s)

end

variable (p : Parser)

/-- A bound on the nesting of statements that no source with so many tokens exceeds. -/
def bound : Nat := 2 * p.remaining + 2

/-- Reads the next statement. -/
def statement : Except Halt (Statement × Parser) := statementWithin p.bound p

/-- Reads statements into the current scope. -/
def body (top : Bool) : Except Halt Parser := bodyWithin p.bound top p

/-- Reads a body into a new scope. Its opening brace has been read. -/
def block : Except Halt (Scope Statement × Parser) :=
  blockWith (bodyWithin p.bound false) p

/-- Reads `if condition { … }`. -/
def branch : Except Halt (Statement × Parser) :=
  branchWith (bodyWithin p.bound false) p

/-- Reads `for init; condition; increment { … }`. -/
def loop : Except Halt (Statement × Parser) :=
  loopWith (bodyWithin p.bound false) (statementWithin p.bound) p

/-- Reads the whole source into the current scope. -/
def program : Except Halt Parser := p.body true

end FloatLang.Parser
