import FloatLang.Diagnostic
import FloatLang.Files
import FloatLang.Text.Blank

/-!
# Source excerpts

The lines of a source around a place, and diagnostics rendered with them for a terminal. A number is
written into a field of limited width; a diagnostic that wants a wider one can not be rendered, and ends
the program.

## Main definitions

* `Window`, `Window.lines` — the numbered lines around a place
* `Renderer`, `Renderer.header`, `Renderer.rendered` — a diagnostic with its excerpt
* `RenderFault` — why there is none
-/

namespace FloatLang

/-- A line of a source, counted from one. -/
structure NumberedLine where
  number : Nat
  /-- Whether this is the line that was asked for. -/
  isBase : Bool
  text : String
  deriving DecidableEq, Repr

/-- Why there are no lines around a place. -/
inductive LineError
  | unreadable (error : ReadError)
  | unknownLocation
  | outOfBounds
  deriving DecidableEq, Repr

/-- The message of a line error. -/
def LineError.message : LineError → String
  | .unreadable error => error.message
  | .unknownLocation => "unknown location has no source lines"
  | .outOfBounds => "location out of bounds"

/-- How many lines to show before and after a place. -/
structure Window where
  before : Nat := 0
  after : Nat := 0
  deriving DecidableEq, Repr

namespace Window

variable (w : Window)

/-- The lines of a text, numbered, without carriage returns at their ends. -/
def numbered (text : List Char) (base : Nat) : List NumberedLine :=
  (text.splitOn '\n').zipIdx.map fun (line, index) =>
    ⟨index + 1, index == base, String.ofList (Text.trimEnd (· == '\r') line)⟩

/-- The lines around a place in a text. -/
def linesIn (text : String) (l : Location) : Except LineError (List NumberedLine) :=
  if l.isUnknown then .error .unknownLocation
  else
    let first := l.line - w.before
    let count := l.line + w.after + 1 - first
    let lines := ((numbered text.toList l.line).drop first).take count
    if lines.any (·.isBase) then .ok lines else .error .outOfBounds

/-- The lines around a place in its file. -/
def lines (storage : Storage) (l : Location) : Except LineError (List NumberedLine) :=
  match storage.readText l.file with
  | .ok text => w.linesIn text l
  | .error error => .error (.unreadable error)

end Window

/-- How diagnostics are shown. -/
structure Renderer where
  storage : Storage
  /-- Whether to show the lines a diagnostic is about. -/
  excerpts : Bool := true
  /-- Whether to colour severities. -/
  colors : Bool := false

/-- Why a diagnostic can not be rendered. -/
inductive RenderFault
  /-- The numbers of its lines are to stand in a field that is wider than a field may be. -/
  | fieldTooWide
  deriving DecidableEq, Repr

/-- The message of a fault. -/
def RenderFault.message : RenderFault → String
  | .fieldTooWide => "Formatting argument out of range"

/-- The terminal's code for the colour of a severity. -/
def Severity.color : Severity → String
  | .inform => "96"
  | .warning => "93"
  | .error | .fatal => "91"

/-- Switches the terminal to a colour. -/
def colorCode (code : String) : String := "\x1b[" ++ code ++ "m"

namespace Renderer

variable (r : Renderer)

/-- The severity of a diagnostic, perhaps in colour. -/
def label (severity : Severity) : String :=
  if r.colors then colorCode severity.color ++ severity.name ++ colorCode "39"
  else severity.name

/-- The first line of a rendered diagnostic. -/
def header (d : Diagnostic) : String :=
  r.label d.severity ++ ": " ++ d.location.text ++ ": " ++ d.message

/-- The columns set aside for line numbers. -/
def gutter (lines : List NumberedLine) : Nat :=
  ((lines.map (·.number)).max?.getD 0) / 10 + 1

/-- The width that a field for a number may have. -/
def widestField : Nat := UInt16.size - 1

/-- A number at the right end of a field, with blanks in front. -/
def padded (width n : Nat) : Except RenderFault String :=
  if width ≤ widestField then .ok (String.ofList ((Nat.toDigits 10 n).leftpad width ' '))
  else .error .fieldTooWide

/-- A line behind its number. -/
def numberedText (width : Nat) (line : NumberedLine) : Except RenderFault String := do
  let number ← padded width line.number
  return number ++ " | " ++ String.ofList (Text.trimEnd Text.isWhiteSpace line.text.toList)

/-- A line that points at a column of the line above it. -/
def caret (width column : Nat) : String :=
  String.ofList (List.replicate (width + 3) ' ' ++ List.replicate column '-' ++ ['^'])

/-- A line behind its number, and under the one a diagnostic is about a mark at its column. -/
def rowsOf (width column : Nat) (line : NumberedLine) : Except RenderFault (List String) := do
  let text ← numberedText width line
  return if line.isBase then [text, caret width column] else [text]

/-- The lines of an excerpt. -/
def excerptLines (lines : List NumberedLine) (column : Nat) : Except RenderFault (List String) := do
  let rows ← lines.mapM (rowsOf (gutter lines) column)
  return rows.flatten

/-- The line before a place and the line of the place, with a mark; nothing if they can not be
read. -/
def excerpt? (l : Location) : Except RenderFault (Option String) := do
  if r.excerpts then
    match Window.lines { before := 1 } r.storage l with
    | .ok lines => return some ("\n".intercalate (← excerptLines lines l.column))
    | .error _ => return none
  else return none

/-- A diagnostic and its excerpt. -/
def rendered (d : Diagnostic) : Except RenderFault String := do
  match ← r.excerpt? d.location with
  | some excerpt => return r.header d ++ "\n" ++ excerpt
  | none => return r.header d

/-- What is printed for a diagnostic: how it is rendered, or the message of the fault that ends the
program instead. -/
def render (d : Diagnostic) : String :=
  match r.rendered d with
  | .ok text => text
  | .error fault => fault.message

end Renderer

end FloatLang
