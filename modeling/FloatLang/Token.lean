import FloatLang.Location
import FloatLang.Operator
import FloatLang.Numeral.Decimal

/-!
# Tokens

What the scanner makes of a source: a kind with its payload, the text the token was written
with, and the place of its first character.

## Main definitions

* `Keyword` — the reserved words
* `LexError` — why a piece of text is no token
* `TokenKind`, `Token` — tokens
* `Token.description`, `Token.classification` — how messages refer to a token
-/

namespace FloatLang

/-- The words that are no identifiers. -/
inductive Keyword
  | float
  | if
  | for
  deriving DecidableEq, Repr, Inhabited

namespace Keyword

/-- The characters of a reserved word. -/
def letters : Keyword → List Char
  | .float => ['f', 'l', 'o', 'a', 't']
  | .if => ['i', 'f']
  | .for => ['f', 'o', 'r']

/-- The reserved word as text. -/
def spelling (word : Keyword) : String := String.ofList word.letters

instance : ToString Keyword := ⟨spelling⟩

/-- The reserved word written with exactly these characters. -/
def ofLetters? (text : List Char) : Option Keyword :=
  [Keyword.float, .if, .for].find? (·.letters == text)

/-- What a reserved word is called in messages. -/
def name (word : Keyword) : String := word.spelling ++ " keyword"

theorem ofLetters?_letters (word : Keyword) : ofLetters? word.letters = some word := by
  cases word <;> decide

theorem letters_of_ofLetters? {text : List Char} {word : Keyword}
    (h : ofLetters? text = some word) : word.letters = text := by
  simpa using List.find?_some h

end Keyword

/-- Why a piece of text is no token. -/
inductive LexError
  | unknownCharacter (character : Char) (word : String)
  | invalidNumeral (spelling : String)
  | unterminatedComment
  deriving DecidableEq, Repr, Inhabited

/-- The message of a lexical error. The word is only named if it is more than the character. -/
def LexError.message : LexError → String
  | .unknownCharacter character word =>
    let unknown := "unknown character '" ++ character.toString ++ "'"
    if 1 < word.length then unknown ++ " in '" ++ word ++ "'" else unknown
  | .invalidNumeral spelling => "invalid numeric literal '" ++ spelling ++ "'"
  | .unterminatedComment => "unterminated block comment"

instance : ToString LexError := ⟨LexError.message⟩

/-- The kinds of token. -/
inductive TokenKind
  | endOfFile
  | endOfLine
  | keyword (word : Keyword)
  | identifier (name : String)
  | operator (op : Operator)
  | numeral (value : Numeral)
  | invalid (error : LexError)
  deriving DecidableEq, Repr, Inhabited

/-- A token: its kind, where it starts and the text it was written with. -/
structure Token where
  kind : TokenKind
  location : Location
  spelling : String
  deriving DecidableEq, Repr, Inhabited

namespace Token

variable (t : Token)

/-- Whether the source ended. -/
def isEndOfFile : Bool := t.kind == .endOfFile

/-- Whether a token is a line break. -/
def isEndOfLine : Bool := t.kind == .endOfLine

/-- The operator a token is. -/
def operator? : Option Operator :=
  match t.kind with
  | .operator op => some op
  | _ => none

/-- Whether a token is a given operator. -/
def isOperator (op : Operator) : Bool := t.operator? == some op

/-- The name of an identifier. -/
def identifier? : Option String :=
  match t.kind with
  | .identifier name => some name
  | _ => none

/-- The reserved word a token is. -/
def keyword? : Option Keyword :=
  match t.kind with
  | .keyword word => some word
  | _ => none

/-- The value of a numeric literal. -/
def numeral? : Option Numeral :=
  match t.kind with
  | .numeral value => some value
  | _ => none

/-- Why a token is invalid. -/
def error? : Option LexError :=
  match t.kind with
  | .invalid error => some error
  | _ => none

/-- A line ends at a line break or at the end of the file. -/
def endsLine : Bool := t.isEndOfLine || t.isEndOfFile

/-- A statement ends at a `;`, a line break or the end of the file. -/
def isTerminator : Bool := t.endsLine || t.isOperator .semicolon

/-- The name of a token's class. -/
def classification : String :=
  match t.kind with
  | .endOfFile => "EOF"
  | .endOfLine => "EOL"
  | .keyword word => word.name
  | .identifier _ => "identifier"
  | .operator op => op.name
  | .numeral _ => "float literal"
  | .invalid _ => "invalid token"

/-- How a message refers to a token: operators by name, words in quotes. -/
def description : String :=
  match t.kind with
  | .endOfFile => "EOF"
  | .endOfLine => "end of line"
  | .operator op => op.name
  | _ => "'" ++ t.spelling ++ "'"

instance : ToString Token := ⟨description⟩

end Token

end FloatLang
