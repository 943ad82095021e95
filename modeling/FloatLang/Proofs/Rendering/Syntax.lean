import FloatLang.Lexeme
import FloatLang.Statement

/-!
# Programs and their rendering

The programs of the language as trees of their own, without places, and how they are written: as
words with a blank between any two. Operations are written in parentheses, simple statements end
in `;`, and so does a block statement that is the first clause of a loop.

The tree that a parser makes of a program is compared regardless of places: a statement and the
same statement anywhere else are the same.

## Main definitions

* `Rendering.Name`, `Rendering.Decimal`, `Rendering.Term`, `Rendering.Command` — programs
* `Rendering.Command.wellScoped` — every name is declared once, before it is used
* `Rendering.Word`, `Rendering.Command.words`, `Rendering.text` — how programs are written
* `Rendering.Command.tree`, `Rendering.programTree` — the statement and the scope they stand for
* `Statement.forget`, `Scope.forget` — trees regardless of places and of the numbers of scopes
-/

namespace FloatLang

/-! ### Trees regardless of places -/

/-- The variable, wherever it was declared. -/
def Variable.forget (v : Variable) : Variable := ⟨v.name, .unknown⟩

/-- The use of a variable, wherever it stands. -/
def Reference.forget (r : Reference) : Reference := ⟨r.target.forget, .unknown⟩

/-- The expression, wherever it stands. -/
def Expr.forget : Expr → Expr
  | .invalid _ => .invalid .unknown
  | .unary op e _ => .unary op e.forget .unknown
  | .binary op a b _ => .binary op a.forget b.forget .unknown
  | .reference r => .reference r.forget
  | .numeral value _ => .numeral value .unknown
  | .condition e _ => .condition e.forget .unknown

mutual

/-- The statement, wherever it stands and however its scopes are numbered. -/
def Statement.forget : Statement → Statement
  | .invalid _ => .invalid .unknown
  | .declare v => .declare v.forget
  | .assign target value _ => .assign target.forget value.forget .unknown
  | .step direction target _ => .step direction target.forget .unknown
  | .branch condition body _ => .branch ⟨condition.inner.forget, .unknown⟩ (forgetScope body) .unknown
  | .loop init condition increment body _ =>
    .loop (forgetClause init) (forgetClause condition) (forgetClause increment) (forgetScope body)
      .unknown
  | .expr e _ => .expr e.forget .unknown
  | .compound first second _ => .compound first.forget second.forget .unknown

/-- The scope, whatever its number. -/
def Statement.forgetScope : Scope Statement → Scope Statement
  | ⟨_, _, declared, statements⟩ => ⟨0, none, declared.map Variable.forget, forgetAll statements⟩

/-- The statements, wherever they stand. -/
def Statement.forgetAll : List Statement → List Statement
  | [] => []
  | s :: rest => s.forget :: forgetAll rest

/-- The clause of a loop, wherever it stands. -/
def Statement.forgetClause : Option Statement → Option Statement
  | none => none
  | some s => some s.forget

end

namespace Rendering

/-! ### Programs -/

/-- A name that a variable can have. -/
structure Name where
  letters : List Char
  isIdentifier : isIdentifier letters = true
  notReserved : Keyword.ofLetters? letters = none
  deriving DecidableEq, Repr

/-- A name as text. -/
def Name.text (x : Name) : String := String.ofList x.letters

/-- A number in decimal notation. The digits after the point may be absent, and the point with
them. -/
structure Decimal where
  whole : List (Fin 10)
  fraction : List (Fin 10) := []
  nonempty : whole ≠ []
  deriving DecidableEq, Repr

/-- The number that digits write. -/
def naturalOf (digits : List (Fin 10)) : Nat := digits.foldl (fun n d => 10 * n + d.val) 0

/-- The number that a decimal writes: each digit after the point makes the others worth a tenth. -/
def Decimal.value (d : Decimal) : Rat :=
  mkRat (naturalOf (d.whole ++ d.fraction)) (Nat.pow 10 d.fraction.length)

/-- Expressions as they are written. -/
inductive Term
  | literal (d : Decimal)
  | name (x : Name)
  | binary (op : Operator) (isBinary : op.isBinary = true) (left right : Term)
  | not (operand : Term)
  | step (direction : Direction) (x : Name)
  deriving Repr

/-- Statements as they are written. The clauses of a loop may be absent. -/
inductive Command
  | declare (x : Name)
  | define (x : Name) (value : Term)
  | assign (x : Name) (value : Term)
  | step (direction : Direction) (x : Name)
  | branch (condition : Term) (body : List Command)
  | loop (init : Option Command) (condition : Option Term) (increment : Option (Direction × Name))
      (body : List Command)
  deriving Repr

namespace Command

/-- Whether a statement owns a scope. -/
def isBlock : Command → Bool
  | branch .. | loop .. => true
  | _ => false

/-- The names that a statement declares in the scope around it. -/
def declared : Command → List Name
  | declare x | define x _ => [x]
  | _ => []

/-- The names that the first clause of a loop declares. -/
def initDeclared : Option Command → List Name
  | none => []
  | some c => c.declared

end Command

/-! ### Scoping -/

/-- The names as text, after others. -/
def extend (xs : List String) (names : List Name) : List String := xs ++ names.map Name.text

/-- Whether every name in an expression is visible. -/
def Term.wellScoped (xs : List String) : Term → Bool
  | literal _ => true
  | name x | step _ x => xs.contains x.text
  | binary _ _ l r => l.wellScoped xs && r.wellScoped xs
  | not e => e.wellScoped xs

namespace Command

mutual

/-- Whether a statement uses visible names only, and declares none that is visible. A name is
visible in its own initial value, and the variable of a loop in all of the loop. -/
def wellScoped (xs : List String) : Command → Bool
  | declare x => !xs.contains x.text
  | define x value => !xs.contains x.text && value.wellScoped (extend xs [x])
  | assign x value => xs.contains x.text && value.wellScoped xs
  | step _ x => xs.contains x.text
  | branch condition body => condition.wellScoped xs && allWellScoped xs body
  | loop init condition increment body =>
    initWellScoped xs init &&
      condition.all (·.wellScoped (extend xs (initDeclared init))) &&
      increment.all (fun i => (extend xs (initDeclared init)).contains i.2.text) &&
      allWellScoped (extend xs (initDeclared init)) body

/-- Whether statements in a row are, each with the names that the ones before it declare. -/
def allWellScoped (xs : List String) : List Command → Bool
  | [] => true
  | c :: cs => c.wellScoped xs && allWellScoped (extend xs c.declared) cs

/-- Whether the first clause of a loop is, if there is one. -/
def initWellScoped (xs : List String) : Option Command → Bool
  | none => true
  | some c => c.wellScoped xs

end

end Command

/-! ### Words -/

/-- A word of a program, with the blanks around it left out. -/
inductive Word
  | keyword (word : Keyword)
  | name (x : Name)
  | number (d : Decimal)
  | operator (op : Operator) (legal : op ≠ .illegal := by decide)
  deriving DecidableEq, Repr

/-- The character of a digit. -/
def digit (d : Fin 10) : Char := d.val.digitChar

/-- The characters of a decimal. -/
def Decimal.letters (d : Decimal) : List Char :=
  d.whole.map digit ++ if d.fraction.isEmpty then [] else '.' :: d.fraction.map digit

namespace Word

/-- The characters of a word. -/
def letters : Word → List Char
  | keyword word => word.letters
  | name x => x.letters
  | number d => d.letters
  | operator op _ => op.symbol

/-- The kind of token that a word is. -/
def kind : Word → TokenKind
  | keyword word => .keyword word
  | name x => .identifier x.text
  | number d => .numeral { value := d.value }
  | operator op _ => .operator op

end Word

/-- The text of words, with a blank between any two. -/
def spell : List Word → List Char
  | [] => []
  | w :: ws => w.letters ++ ws.flatMap (fun w => ' ' :: w.letters)

theorem legal_of_isBinary {op : Operator} (h : op.isBinary = true) : op ≠ .illegal := by
  rintro rfl
  contradiction

theorem legal_operator (direction : Direction) : direction.operator ≠ .illegal := by
  cases direction <;> decide

/-- The word of a step. -/
def stepWord (direction : Direction) : Word :=
  .operator direction.operator (legal_operator direction)

namespace Term

/-- How an expression is written: operations in parentheses. -/
def words : Term → List Word
  | literal d => [.number d]
  | name x => [.name x]
  | binary op h l r =>
    .operator .leftParen ::
      (l.words ++ .operator op (legal_of_isBinary h) :: (r.words ++ [.operator .rightParen]))
  | not e => .operator .leftParen :: .operator .not :: (e.words ++ [.operator .rightParen])
  | step direction x =>
    [.operator .leftParen, .name x, stepWord direction, .operator .rightParen]

/-- The words of an expression, if there is one. -/
def clauseWords : Option Term → List Word
  | none => []
  | some e => e.words

end Term

namespace Command

/-- How the last clause of a loop is written. -/
def incrementWords : Option (Direction × Name) → List Word
  | none => []
  | some (direction, x) => [.name x, stepWord direction]

mutual

/-- How a statement is written. -/
def words : Command → List Word
  | declare x => [.keyword .float, .name x, .operator .semicolon]
  | define x value =>
    .keyword .float :: .name x :: .operator .assign :: (value.words ++ [.operator .semicolon])
  | assign x value => .name x :: .operator .assign :: (value.words ++ [.operator .semicolon])
  | step direction x => [.name x, stepWord direction, .operator .semicolon]
  | branch condition body =>
    .keyword .if ::
      (condition.words ++ .operator .leftBrace :: (allWords body ++ [.operator .rightBrace]))
  | loop init condition increment body =>
    .keyword .for ::
      (initWords init ++
        (Term.clauseWords condition ++ .operator .semicolon ::
          (incrementWords increment ++
            .operator .leftBrace :: (allWords body ++ [.operator .rightBrace]))))

/-- How statements in a row are written. -/
def allWords : List Command → List Word
  | [] => []
  | c :: cs => c.words ++ allWords cs

/-- How the first clause of a loop is written, with the `;` that ends it. -/
def initWords : Option Command → List Word
  | none => [.operator .semicolon]
  | some c => c.words ++ if c.isBlock then [.operator .semicolon] else []

end

end Command

/-- The text of a program. -/
def text (program : List Command) : String := String.ofList (spell (Command.allWords program))

/-! ### Trees -/

/-- The variable of a name. -/
def Name.variable (x : Name) : Variable := ⟨x.text, .unknown⟩

/-- A use of the variable of a name. -/
def Name.reference (x : Name) : Reference := ⟨x.variable, .unknown⟩

/-- The tree of an expression. -/
def Term.tree : Term → Expr
  | literal d => .numeral { value := d.value } .unknown
  | name x => .reference x.reference
  | binary op _ l r => .binary op l.tree r.tree .unknown
  | not e => .unary .not e.tree .unknown
  | step direction x => .unary direction.operator (.reference x.reference) .unknown

namespace Command

mutual

/-- The tree of a statement. The variable of the first clause of a loop is declared in the scope
of the loop. -/
def tree : Command → Statement
  | declare x => .declare x.variable
  | define x value =>
    .compound (.declare x.variable) (.assign x.reference value.tree .unknown) .unknown
  | assign x value => .assign x.reference value.tree .unknown
  | step direction x => .step direction x.reference .unknown
  | branch condition body =>
    .branch ⟨condition.tree, .unknown⟩
      ⟨0, none, (body.flatMap declared).map Name.variable, trees body⟩ .unknown
  | loop init condition increment body =>
    .loop (initTree init) (condition.map fun e => .expr (.condition e.tree .unknown) .unknown)
      (increment.map fun i => .step i.1 i.2.reference .unknown)
      ⟨0, none, (initDeclared init ++ body.flatMap declared).map Name.variable, trees body⟩ .unknown

/-- The trees of statements in a row. -/
def trees : List Command → List Statement
  | [] => []
  | c :: cs => c.tree :: trees cs

/-- The tree of the first clause of a loop. -/
def initTree : Option Command → Option Statement
  | none => none
  | some c => some c.tree

end

end Command

/-- The scope of a whole program. -/
def programTree (program : List Command) : Scope Statement :=
  ⟨0, none, (program.flatMap Command.declared).map Name.variable, Command.trees program⟩

end Rendering

end FloatLang
