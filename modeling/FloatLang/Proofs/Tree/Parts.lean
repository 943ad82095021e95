import FloatLang.Parser.Block
import FloatLang.Proofs.Infix.Assembly

/-!
# The parts of a tree

Views of statements: the statements nested in them, the variables they declare, the scopes they
own and the places at which they use variables, each with the scopes around it.

## Main definitions

* `Expr.references` — the uses of variables in an expression
* `Statement.parts` — a statement and everything nested in it
* `Statement.declared` — the variables a statement declares in the scope around it
* `Statement.failures` — the statements that could not be read
* `Statement.owned?` — the scope a block statement owns, with the first clause of a loop
* `Statement.uses`, `Scope.uses` — the uses of variables, each with the scopes around it
* `Statement.isWellShaped` — what can be read
-/

namespace FloatLang

/-- The uses of variables in an expression, in order. -/
def Expr.references : Expr → List Reference
  | .invalid _ | .numeral .. => []
  | .unary _ e _ => e.references
  | .binary _ a b _ => a.references ++ b.references
  | .reference r => [r]
  | .condition e _ => e.references

/-- Whether an expression consists of variables, numerals and operators only, each operator with as
many operands as it takes, and with a variable if it is a step. -/
def Expr.isProper (e : Expr) : Bool := Postfix.isInfix e && Postfix.stepsVariables e

/-- A use of a variable in a tree. -/
structure Use where
  reference : Reference
  /-- The scopes around it, the innermost first. -/
  scopes : List (Scope Statement)
  /-- Whether it stands for the name in a declaration, which is given its value. -/
  initial : Bool := false

/-- The uses of variables in an expression with the given scopes around it. -/
def Expr.uses (around : List (Scope Statement)) (e : Expr) : List Use :=
  e.references.map fun r => { reference := r, scopes := around }

namespace Statement

/-- The variables that a statement declares in the scope around it. -/
def declared : Statement → List Variable
  | declare v => [v]
  | compound first _ _ => first.declared
  | _ => []

/-- The scope that a statement owns, and the first clause of a loop. -/
def owned? : Statement → Option (Option Statement × Scope Statement)
  | branch _ body _ => some (none, body)
  | loop init _ _ body _ => some (init, body)
  | _ => none

mutual

/-- A statement and all statements nested in it, in order. -/
def parts : Statement → List Statement
  | branch condition body l => branch condition body l :: partsIn body
  | loop init condition increment body l =>
    loop init condition increment body l ::
      (partsOf init ++ partsOf condition ++ partsOf increment ++ partsIn body)
  | compound first second l => compound first second l :: (first.parts ++ second.parts)
  | s => [s]

/-- All statements in a scope. -/
def partsIn : Scope Statement → List Statement
  | ⟨_, _, _, statements⟩ => partsAll statements

/-- All statements in statements in a row. -/
def partsAll : List Statement → List Statement
  | [] => []
  | s :: rest => s.parts ++ partsAll rest

/-- All statements in a clause of a loop. -/
def partsOf : Option Statement → List Statement
  | none => []
  | some s => s.parts

end

/-- How many of the statements nested in a statement could not be read. -/
def failures (s : Statement) : Nat := s.parts.countP isInvalid

/-- How many statements could not be read. -/
def failuresAll (ss : List Statement) : Nat := (partsAll ss).countP isInvalid

mutual

/-- The uses of variables in a statement, in order. The clauses of a loop lie in its scope. -/
def uses (around : List (Scope Statement)) : Statement → List Use
  | invalid _ | declare _ => []
  | assign target value _ => ⟨target, around, false⟩ :: value.uses around
  | step _ target _ => [⟨target, around, false⟩]
  | branch condition body _ => condition.inner.uses around ++ usesIn around body
  | loop init condition increment body _ =>
    usesOf (body :: around) init ++ usesOf (body :: around) condition ++
      usesOf (body :: around) increment ++ usesIn around body
  | expr e _ => e.uses around
  | compound first (assign target value _) _ =>
    first.uses around ++ ⟨target, around, true⟩ :: value.uses around
  | compound first second _ => first.uses around ++ second.uses around

/-- The uses of variables in a scope. -/
def usesIn (around : List (Scope Statement)) : Scope Statement → List Use
  | ⟨id, parent, declared, statements⟩ =>
    usesAll (⟨id, parent, declared, statements⟩ :: around) statements

/-- The uses of variables in statements in a row. -/
def usesAll (around : List (Scope Statement)) : List Statement → List Use
  | [] => []
  | s :: rest => s.uses around ++ usesAll around rest

/-- The uses of variables in a clause of a loop. -/
def usesOf (around : List (Scope Statement)) : Option Statement → List Use
  | none => []
  | some s => s.uses around

end

/-! ### Shapes -/

/-- Whether two statements are a declaration and what gives its variable a value, unless that could
not be read. -/
def isDefinition : Statement → Statement → Bool
  | declare v, assign target value _ => target.target == v && value.isProper
  | declare _, invalid _ => true
  | _, _ => false

/-- Whether a statement is the condition of a loop. -/
def isCondition : Statement → Bool
  | expr (.condition e _) _ => e.isProper
  | _ => false

/-- Whether a statement is a step. -/
def isStep : Statement → Bool
  | step .. => true
  | _ => false

mutual

/-- Whether a statement is one of the forms that can be read. What could not be read is left only
as the value of a declaration, and not in the first clause of a loop. -/
def isWellShaped : Statement → Bool
  | invalid _ | expr .. => false
  | declare _ | step .. => true
  | assign _ value _ => value.isProper
  | branch condition body _ => condition.inner.isProper && scopeWellShaped body
  | loop init condition increment body _ =>
    clauseWellShaped init && condition.all isCondition && increment.all isStep &&
      scopeWellShaped body
  | compound first second _ => isDefinition first second

/-- Whether all statements of a scope are. -/
def scopeWellShaped : Scope Statement → Bool
  | ⟨_, _, _, statements⟩ => allWellShaped statements

/-- Whether all statements in a row are. -/
def allWellShaped : List Statement → Bool
  | [] => true
  | s :: rest => s.isWellShaped && allWellShaped rest

/-- Whether the first clause of a loop is, if there is one, and has been read as a whole. -/
def clauseWellShaped : Option Statement → Bool
  | none => true
  | some s => s.isWellShaped && !Parser.initFailed s

end

@[simp] theorem partsIn_eq (body : Scope Statement) : partsIn body = partsAll body.statements := by
  rw [partsIn]

@[simp] theorem partsOf_eq (clause : Option Statement) :
    partsOf clause = partsAll clause.toList := by
  cases clause <;> simp [partsOf, partsAll]

theorem scopeWellShaped_eq (body : Scope Statement) :
    scopeWellShaped body = allWellShaped body.statements := by
  rw [scopeWellShaped]

theorem failuresAll_cons (s : Statement) (ss : List Statement) :
    failuresAll (s :: ss) = s.failures + failuresAll ss := List.countP_append

end Statement

/-- The uses of variables in the outermost scope of a tree. -/
def Scope.uses (root : Scope Statement) : List Use := Statement.usesIn [] root

end FloatLang
