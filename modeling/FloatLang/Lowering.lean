import FloatLang.Statement

/-!
# Lowering

A program is lowered by making calls to a backend, children before parents. The backend answers
each call with a handle of its own choosing and may keep a state. What the backend can not be
asked for is replaced by one call for an invalid node, and nothing below that node is lowered.

## Main definitions

* `Backend` — the calls
* `LoweredScope` — a scope whose statements are handles
* `Expr.lower`, `Statement.lower` — lowering
-/

namespace FloatLang

/-- A scope whose statements have been lowered to handles. -/
structure LoweredScope (S : Type) where
  id : Nat
  declared : List Variable
  statements : List S
  deriving DecidableEq, Repr

/-- A target of lowering with state `σ` and handles `V` for variables, `E` for expressions and
`S` for statements. -/
structure Backend (σ V E S : Type) where
  object : Variable → StateM σ V
  invalidExpr : StateM σ E
  unary : Operator → E → Location → StateM σ E
  binary : Operator → E → E → Location → StateM σ E
  reference : V → Location → StateM σ E
  numeral : Numeral → Location → StateM σ E
  condition : E → Location → StateM σ E
  invalidStatement : StateM σ S
  declare : V → StateM σ S
  assign : E → E → Location → StateM σ S
  increment : E → Location → StateM σ S
  decrement : E → Location → StateM σ S
  branch : E → LoweredScope S → Location → StateM σ S
  loop : Option S → Option S → Option S → LoweredScope S → Location → StateM σ S
  expr : E → Location → StateM σ S
  compound : S → S → Location → StateM σ S
  enterScope : StateM σ Unit
  leaveScope : StateM σ Unit

variable {σ V E S : Type}

namespace Reference

/-- Lowers a use of a variable. -/
def lower (b : Backend σ V E S) (r : Reference) : StateM σ E := do
  let v ← b.object r.target
  b.reference v r.location

end Reference

namespace Expr

/-- Whether an operator may be lowered over an operand. -/
def accepts (op : Operator) (operand : Expr) : Bool :=
  (!op.isStep || operand.isReference) && operand.isOperand

/-- Lowers an expression. -/
def lower (b : Backend σ V E S) : Expr → StateM σ E
  | invalid _ => b.invalidExpr
  | unary op operand l =>
    if accepts op operand then do
      let e ← operand.lower b
      b.unary op e l
    else b.invalidExpr
  | binary op left right l =>
    if left.isOperand && right.isOperand then do
      let e ← left.lower b
      let e' ← right.lower b
      b.binary op e e' l
    else b.invalidExpr
  | reference r => r.lower b
  | numeral value l => b.numeral value l
  | condition inner l =>
    if inner.isOperand then do
      let e ← inner.lower b
      b.condition e l
    else b.invalidExpr

end Expr

/-- The call for a step in a direction. -/
def Backend.step (b : Backend σ V E S) : Direction → E → Location → StateM σ S
  | .up => b.increment
  | .down => b.decrement

namespace Statement

mutual

/-- Lowers a statement. The body of a block is lowered between entering and leaving its scope,
a loop's clauses with it; the condition of a branch comes after its body. -/
def lower (b : Backend σ V E S) : Statement → StateM σ S
  | invalid _ => b.invalidStatement
  | declare v => do
    let v ← b.object v
    b.declare v
  | assign target value l =>
    if value.isOperand then do
      let e ← target.lower b
      let e' ← value.lower b
      b.assign e e' l
    else b.invalidStatement
  | step direction target l => do
    let e ← (stepExpr direction target l).lower b
    b.step direction e l
  | branch condition body l => do
    b.enterScope
    let body ← lowerScope b body
    b.leaveScope
    let e ← condition.expr.lower b
    b.branch e body l
  | loop init condition increment body l => do
    b.enterScope
    let init ← lowerClause b init
    let condition ← lowerClause b condition
    let increment ← lowerClause b increment
    let body ← lowerScope b body
    b.leaveScope
    b.loop init condition increment body l
  | expr e l =>
    if e.isInvalid then b.invalidStatement
    else do
      let e ← e.lower b
      b.expr e l
  | compound first second l =>
    if first.isInvalid || second.isInvalid then b.invalidStatement
    else do
      let s ← first.lower b
      let s' ← second.lower b
      b.compound s s' l

/-- Lowers the statements of a scope. -/
def lowerScope (b : Backend σ V E S) : Scope Statement → StateM σ (LoweredScope S)
  | ⟨id, _, declared, statements⟩ => do
    let handles ← lowerAll b statements
    pure { id, declared, statements := handles }

/-- Lowers statements in order. -/
def lowerAll (b : Backend σ V E S) : List Statement → StateM σ (List S)
  | [] => pure []
  | s :: rest => do
    let h ← s.lower b
    let hs ← lowerAll b rest
    pure (h :: hs)

/-- Lowers a clause of a loop, if it is there. -/
def lowerClause (b : Backend σ V E S) : Option Statement → StateM σ (Option S)
  | none => pure none
  | some s => do
    let h ← s.lower b
    pure (some h)

end

end Statement

end FloatLang
