import FloatLang.Lexeme

/-!
# Sources

A source is the text of a file from some place on. Every byte of the file is one character: the
character with the byte's number.

## Main definitions

* `Source.ofBytes` — the source that starts at the first byte of a file
* `Source.next?` — takes one character
* `Source.scan` — takes one token

## Main results

* `Source.consumed_append_rest_scan` — scanning takes the characters of a lexeme
-/

namespace FloatLang

/-- The unread part of a file. -/
structure Source where
  file : Path
  position : Position := {}
  rest : List Char
  deriving DecidableEq, Repr

/-- The outcome of scanning one token. -/
structure Scanned where
  token : Token
  source : Source
  /-- The line breaks counted: those inside of block comments, and the token if it is one. -/
  lineBreaks : Nat
  deriving DecidableEq, Repr

namespace Source

/-- The characters of a byte string, one for each byte. -/
def charactersOf (bytes : ByteArray) : List Char := bytes.data.toList.map Char.ofUInt8

/-- The whole of a file. -/
def ofBytes (file : Path) (bytes : ByteArray) : Source := { file, rest := charactersOf bytes }

/-- The source whose bytes are the encoding of a text. -/
def ofText (file : Path) (text : String) : Source := ofBytes file text.toUTF8

/-- Where the next character stands. -/
def location (s : Source) : Location := { toPosition := s.position, file := s.file }

/-- The source after some of its characters. -/
def advance (s : Source) (text rest : List Char) : Source :=
  { s with position := s.position.after text, rest }

/-- Takes the next character. -/
def next? (s : Source) : Option (Char × Source) :=
  match s.rest with
  | [] => none
  | c :: rest => some (c, s.advance [c] rest)

/-- The next character. -/
def peek? (s : Source) : Option Char := s.rest.head?

/-- Whether any character is left. -/
def hasNext (s : Source) : Bool := !s.rest.isEmpty

/-- Takes the next token. -/
def scan (s : Source) : Scanned :=
  let lexeme := Lexeme.ofText s.rest
  { token :=
      { kind := lexeme.kind
        location := { toPosition := s.position.after lexeme.skipped, file := s.file }
        spelling := String.ofList lexeme.text }
    source := s.advance lexeme.consumed lexeme.rest
    lineBreaks := Gap.lineBreaks s.rest + if lexeme.kind = .endOfLine then 1 else 0 }

/-- Scanning a token takes the characters of a lexeme and leaves the others. -/
theorem consumed_append_rest_scan (s : Source) :
    (Lexeme.ofText s.rest).consumed ++ s.scan.source.rest = s.rest :=
  Lexeme.consumed_append_rest s.rest

/-- The position after scanning is the position after the characters taken. -/
theorem position_scan (s : Source) :
    s.scan.source.position = s.position.after (Lexeme.ofText s.rest).consumed := rfl

end Source

end FloatLang
