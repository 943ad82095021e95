import FloatLang.Lowering

/-!
# Lowering to text

The backend whose handles are texts: every node becomes its text in parentheses.

## Main definitions

* `Backend.tree` — the backend; its state is the number of scopes being lowered
-/

namespace FloatLang

/-- A lowered scope as text. -/
def LoweredScope.text (body : LoweredScope String) : String :=
  if body.statements.isEmpty then "(scope)"
  else "(scope " ++ " ".intercalate body.statements ++ ")"

namespace Backend

/-- A clause of a loop as text; `_` if it is absent. -/
def clauseText (clause : Option String) : String := clause.getD "_"

/-- Renders every node, and counts the scopes entered and not yet left. -/
def tree : Backend Nat String String String where
  object v := pure v.name
  invalidExpr := pure "<invalid>"
  unary op e _ := pure ("(" ++ op.spelling ++ " " ++ e ++ ")")
  binary op e e' _ := pure ("(" ++ op.spelling ++ " " ++ e ++ " " ++ e' ++ ")")
  reference v _ := pure v
  numeral value _ := pure value.text
  condition e _ := pure ("(cond " ++ e ++ ")")
  invalidStatement := pure "<invalid>"
  declare v := pure ("(var-dec " ++ v ++ ")")
  assign e e' _ := pure ("(assign " ++ e ++ " " ++ e' ++ ")")
  increment e _ := pure ("(inc " ++ e ++ ")")
  decrement e _ := pure ("(dec " ++ e ++ ")")
  branch e body _ := pure ("(if " ++ e ++ " " ++ body.text ++ ")")
  loop init condition increment body _ :=
    pure ("(for " ++ clauseText init ++ " " ++ clauseText condition ++ " " ++
      clauseText increment ++ " " ++ body.text ++ ")")
  expr e _ := pure ("(expr " ++ e ++ ")")
  compound s s' _ := pure ("(compound " ++ s ++ " " ++ s' ++ ")")
  enterScope := modify (· + 1)
  leaveScope := modify (· - 1)

end Backend

end FloatLang
