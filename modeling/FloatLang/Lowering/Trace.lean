import FloatLang.Lowering

/-!
# Lowering to a record of calls

The backend that writes down every call it receives. The handle of a call is its place in the
record.

## Main definitions

* `Call` — a call with its arguments
* `Backend.trace` — the backend; its state is the calls made so far
-/

namespace FloatLang

/-- A call to a backend. Handles are places in the record of calls. -/
inductive Call
  | object (v : Variable)
  | invalidExpr
  | unary (op : Operator) (operand : Nat) (location : Location)
  | binary (op : Operator) (left right : Nat) (location : Location)
  | reference (v : Nat) (location : Location)
  | numeral (value : Numeral) (location : Location)
  | condition (inner : Nat) (location : Location)
  | invalidStatement
  | declare (v : Nat)
  | assign (target value : Nat) (location : Location)
  | increment (operand : Nat) (location : Location)
  | decrement (operand : Nat) (location : Location)
  | branch (condition : Nat) (body : LoweredScope Nat) (location : Location)
  | loop (init condition increment : Option Nat) (body : LoweredScope Nat) (location : Location)
  | expr (e : Nat) (location : Location)
  | compound (first second : Nat) (location : Location)
  | enterScope
  | leaveScope
  deriving DecidableEq, Repr

namespace Backend

/-- Writes a call down and answers with its place. -/
def record (call : Call) : StateM (Array Call) Nat :=
  modifyGet fun calls => (calls.size, calls.push call)

/-- Writes every call down. -/
def trace : Backend (Array Call) Nat Nat Nat where
  object v := record (.object v)
  invalidExpr := record .invalidExpr
  unary op e l := record (.unary op e l)
  binary op e e' l := record (.binary op e e' l)
  reference v l := record (.reference v l)
  numeral value l := record (.numeral value l)
  condition e l := record (.condition e l)
  invalidStatement := record .invalidStatement
  declare v := record (.declare v)
  assign e e' l := record (.assign e e' l)
  increment e l := record (.increment e l)
  decrement e l := record (.decrement e l)
  branch e body l := record (.branch e body l)
  loop init condition increment body l := record (.loop init condition increment body l)
  expr e l := record (.expr e l)
  compound s s' l := record (.compound s s' l)
  enterScope := do let _ ← record .enterScope
  leaveScope := do let _ ← record .leaveScope

end Backend

end FloatLang
