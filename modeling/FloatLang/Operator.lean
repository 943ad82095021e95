/-!
# Operators

The operators of the language, how they are written, how tightly they bind and which brackets
they are.

## Main definitions

* `Bracket` — the three kinds of bracket
* `Operator`, `Operator.symbol`, `Operator.ofSymbol?` — the operators and their spellings
* `Operator.precedence` — how tightly an operator binds
* `Operator.opens?`, `Operator.closes?`, `Operator.pair?` — brackets
* `Operator.expectsOperand` — whether an expression may end after the operator
-/

namespace FloatLang

/-- The kinds of bracket. -/
inductive Bracket
  | parenthesis
  | square
  | brace
  deriving DecidableEq, Repr, Inhabited

/-- What a bracket is called in messages. -/
def Bracket.name : Bracket → String
  | .parenthesis => "parenthesis"
  | .square => "bracket"
  | .brace => "brace"

instance : ToString Bracket := ⟨Bracket.name⟩

/-- The operators, in their numbering. `illegal` is no operator of the source language. -/
inductive Operator
  | illegal
  | add
  | sub
  | mul
  | div
  | rem
  | and
  | or
  | increment
  | decrement
  | equal
  | less
  | greater
  | assign
  | not
  | notEqual
  | lessEqual
  | greaterEqual
  | leftParen
  | leftBracket
  | leftBrace
  | rightParen
  | rightBracket
  | rightBrace
  | semicolon
  deriving DecidableEq, Repr, Inhabited

namespace Operator

/-- Every operator, in order. -/
def all : List Operator :=
  [.illegal, .add, .sub, .mul, .div, .rem, .and, .or, .increment, .decrement, .equal, .less,
    .greater, .assign, .not, .notEqual, .lessEqual, .greaterEqual, .leftParen, .leftBracket,
    .leftBrace, .rightParen, .rightBracket, .rightBrace, .semicolon]

/-- The number of an operator is its place in `all`. -/
def number (op : Operator) : Nat := op.ctorIdx

/-- The operator of a number. -/
def ofNumber? (n : Nat) : Option Operator := all[n]?

/-- The characters of an operator; `illegal` has none. -/
def symbol : Operator → List Char
  | .illegal => []
  | .add => ['+']
  | .sub => ['-']
  | .mul => ['*']
  | .div => ['/']
  | .rem => ['%']
  | .and => ['&', '&']
  | .or => ['|', '|']
  | .increment => ['+', '+']
  | .decrement => ['-', '-']
  | .equal => ['=', '=']
  | .less => ['<']
  | .greater => ['>']
  | .assign => ['=']
  | .not => ['!']
  | .notEqual => ['!', '=']
  | .lessEqual => ['<', '=']
  | .greaterEqual => ['>', '=']
  | .leftParen => ['(']
  | .leftBracket => ['[']
  | .leftBrace => ['\x7b']
  | .rightParen => [')']
  | .rightBracket => [']']
  | .rightBrace => ['\x7d']
  | .semicolon => [';']

/-- The operator as text. -/
def spelling (op : Operator) : String := String.ofList op.symbol

instance : ToString Operator := ⟨spelling⟩

/-- The operator written with exactly these characters. -/
def ofSymbol? (text : List Char) : Option Operator :=
  if text.isEmpty then none else all.find? (·.symbol == text)

/-- The operator with exactly this spelling. -/
def ofSpelling? (text : String) : Option Operator := ofSymbol? text.toList

/-- Whether the symbol of some operator begins with a character. -/
def startsSymbol (c : Char) : Bool := all.any (·.symbol.head? == some c)

/-- What an operator is called in messages. -/
def name : Operator → String
  | .illegal => "illegal operator"
  | op => "'" ++ op.spelling ++ "' operator"

/-- The precedence of what may not stand in an expression. -/
def outside : Int := -2

/-- The precedence of what groups an expression without binding. -/
def grouping : Int := -1

/-- How tightly an operator binds; a greater number binds tighter. -/
def precedence : Operator → Int
  | .not => 6
  | .mul | .div | .rem => 5
  | .add | .sub => 4
  | .less | .greater | .lessEqual | .greaterEqual => 3
  | .equal | .notEqual => 2
  | .and => 1
  | .or | .increment | .decrement => 0
  | .leftParen | .rightParen => grouping
  | .illegal | .assign | .leftBracket | .leftBrace | .rightBracket | .rightBrace | .semicolon =>
    outside

/-- The kind of an opening bracket. -/
def opens? : Operator → Option Bracket
  | .leftParen => some .parenthesis
  | .leftBracket => some .square
  | .leftBrace => some .brace
  | _ => none

/-- The kind of a closing bracket. -/
def closes? : Operator → Option Bracket
  | .rightParen => some .parenthesis
  | .rightBracket => some .square
  | .rightBrace => some .brace
  | _ => none

/-- Opening brackets. -/
def isOpening (op : Operator) : Bool := op.opens?.isSome

/-- Closing brackets. -/
def isClosing (op : Operator) : Bool := op.closes?.isSome

/-- The kind of a bracket, opening or closing. -/
def bracket? (op : Operator) : Option Bracket := op.opens?.or op.closes?

/-- The bracket that opens a kind. -/
def opening : Bracket → Operator
  | .parenthesis => .leftParen
  | .square => .leftBracket
  | .brace => .leftBrace

/-- The bracket that closes a kind. -/
def closing : Bracket → Operator
  | .parenthesis => .rightParen
  | .square => .rightBracket
  | .brace => .rightBrace

/-- The other bracket of a pair. -/
def pair? (op : Operator) : Option Operator :=
  (op.opens?.map closing).or (op.closes?.map opening)

/-- The operators with a single operand. -/
def isUnary : Operator → Bool
  | .increment | .decrement | .not => true
  | _ => false

/-- The operators that store into their operand. -/
def isStep : Operator → Bool
  | .increment | .decrement => true
  | _ => false

/-- The operators with two operands. -/
def isBinary : Operator → Bool
  | .add | .sub | .mul | .div | .rem | .and | .or | .equal | .less | .greater | .notEqual
  | .lessEqual | .greaterEqual => true
  | _ => false

/-- Whether an expression that ends in this operator still lacks an operand. -/
def expectsOperand (op : Operator) : Bool :=
  match op with
  | .increment | .decrement | .rightParen => false
  | _ => op.precedence != outside

/-- Reading the symbol of an operator gives the operator back. -/
theorem ofSymbol?_symbol (op : Operator) (h : op ≠ .illegal) : ofSymbol? op.symbol = some op := by
  cases op with
  | illegal => exact absurd rfl h
  | _ => decide

theorem symbol_of_ofSymbol? {text : List Char} {op : Operator} (h : ofSymbol? text = some op) :
    op.symbol = text := by
  unfold ofSymbol? at h
  split at h
  · simp at h
  · simpa using List.find?_some h

theorem ofNumber?_number (op : Operator) : ofNumber? op.number = some op := by
  cases op <;> rfl

end Operator

end FloatLang
