import FloatLang.Statement

/-!
# Chains of open scopes

While a program is read, the scopes around the current place form a chain. The outermost scope
is always open. A name is declared at most once along the chain.

## Main definitions

* `ScopeChain` — the open scopes
* `ScopeChain.enter`, `ScopeChain.leave?` — open and close a scope
* `ScopeChain.resolve?` — the variable a name refers to
* `ScopeChain.define` — declares a name

## Main results

* `ScopeChain.resolve?_enter` — entering a scope changes no name
* `ScopeChain.leave?_enter` — leaving undoes entering
-/

namespace FloatLang

/-- The open scopes. -/
structure ScopeChain where
  /-- The scopes open inside the outermost one, the innermost first. -/
  inner : List (Scope Statement) := []
  outermost : Scope Statement := .outermost
  /-- The number of the next scope. -/
  nextId : Nat := 1
  deriving Repr, Inhabited

/-- A name was declared a second time: the first declaration and where the second stands. -/
structure Redefinition where
  previous : Variable
  location : Location
  deriving DecidableEq, Repr

/-- The message of a second declaration. -/
def Redefinition.message (r : Redefinition) : String :=
  "duplicate definition of '" ++ r.previous.name ++ "'"

namespace ScopeChain

variable (c : ScopeChain)

/-- Every open scope, the innermost first. -/
def scopes : List (Scope Statement) := c.inner ++ [c.outermost]

/-- The innermost open scope. -/
def current : Scope Statement := c.inner.headD c.outermost

/-- Changes the innermost open scope. -/
def modifyCurrent (f : Scope Statement → Scope Statement) : ScopeChain :=
  match c.inner with
  | [] => { c with outermost := f c.outermost }
  | s :: rest => { c with inner := f s :: rest }

/-- The number of scopes open inside the outermost one. -/
def depth : Nat := c.inner.length

/-- Opens a scope in the current one. -/
def enter : ScopeChain :=
  { c with
    inner := { id := c.nextId, parent? := some c.current.id } :: c.inner
    nextId := c.nextId + 1 }

/-- Closes the current scope and hands it back; the outermost scope can not be closed. -/
def leave? : Option (Scope Statement × ScopeChain) :=
  match c.inner with
  | [] => none
  | s :: rest => some (s, { c with inner := rest })

/-- The variable of a name declared in the current scope itself. -/
def lookup? (name : String) : Option Variable := c.current.lookup? name

/-- The variable a name refers to: the one declared in the innermost scope that has it. -/
def resolve? (name : String) : Option Variable := c.scopes.findSome? (·.lookup? name)

/-- Whether a name refers to a variable. -/
def isDefined (name : String) : Bool := (c.resolve? name).isSome

/-- Declares a name in the current scope, unless it already refers to a variable. -/
def define (name : String) (location : Location) :
    Except Redefinition (Variable × ScopeChain) :=
  match c.resolve? name with
  | some previous => .error ⟨previous, location⟩
  | none => .ok (⟨name, location⟩, c.modifyCurrent (·.declare ⟨name, location⟩))

/-- Removes the variable of a name from the current scope. -/
def undefine (name : String) : Option Variable × ScopeChain :=
  (c.lookup? name, c.modifyCurrent fun s => (s.undefine name).2)

/-- Removes the variable of a name from the outermost scope. -/
def undefineOutermost (name : String) : Option Variable × ScopeChain :=
  let (removed, outermost) := c.outermost.undefine name
  (removed, { c with outermost })

/-- Adds a statement to the current scope. -/
def push (s : Statement) : ScopeChain := c.modifyCurrent (·.push s)

/-- Adds a statement to the outermost scope. -/
def pushOutermost (s : Statement) : ScopeChain := { c with outermost := c.outermost.push s }

/-- Removes the last statement of the current scope. -/
def pop : Option Statement × ScopeChain :=
  (c.current.statements.getLast?, c.modifyCurrent fun s => s.pop.2)

/-- Removes all statements of the current scope. -/
def take : List Statement × ScopeChain :=
  (c.current.statements, c.modifyCurrent fun s => s.take.2)

/-- Removes all statements of the outermost scope. -/
def takeOutermost : List Statement × ScopeChain :=
  let (statements, outermost) := c.outermost.take
  (statements, { c with outermost })

@[simp] theorem depth_enter : c.enter.depth = c.depth + 1 := rfl

/-- A name refers to the same variable inside a fresh scope. -/
@[simp] theorem resolve?_enter (name : String) : c.enter.resolve? name = c.resolve? name := by
  simp only [resolve?, scopes, enter, List.cons_append, List.findSome?_cons]
  rfl

/-- Closing a scope that was just opened hands it back empty. -/
theorem leave?_enter :
    c.enter.leave? =
      some ({ id := c.nextId, parent? := some c.current.id }, { c with nextId := c.nextId + 1 }) :=
  rfl

end ScopeChain

end FloatLang
