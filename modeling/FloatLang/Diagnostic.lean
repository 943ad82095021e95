import FloatLang.Location
import FloatLang.Message

/-!
# Diagnostics

What a compilation has to say about its source, in the order in which it was said.

## Main definitions

* `Severity` — how bad a diagnostic is
* `Diagnostic` — a severity, a place and a message
* `Log` — the diagnostics recorded so far and the quotes of the next ones
-/

namespace FloatLang

/-- How bad a diagnostic is, from mild to grave. -/
inductive Severity
  | inform
  | warning
  | error
  | fatal
  deriving DecidableEq, Repr, Inhabited

namespace Severity

/-- The severity as text. -/
def name : Severity → String
  | .inform => "inform"
  | .warning => "warning"
  | .error => "error"
  | .fatal => "fatal"

instance : ToString Severity := ⟨name⟩

/-- The severity of a name. -/
def ofName? (text : String) : Option Severity :=
  [Severity.inform, .warning, .error, .fatal].find? (·.name == text)

/-- Graver severities are greater. -/
def compare (a b : Severity) : Ordering := Ord.compare a.ctorIdx b.ctorIdx

/-- Errors and fatal errors make a compilation fail. -/
def isError : Severity → Bool
  | .error | .fatal => true
  | _ => false

end Severity

/-- A message about a place in a source. -/
structure Diagnostic where
  severity : Severity
  location : Location
  message : String
  deriving DecidableEq, Repr, Inhabited

/-- The diagnostic on one line. -/
def Diagnostic.text (d : Diagnostic) : String :=
  d.severity.name ++ ": " ++ d.location.text ++ ": " ++ d.message

instance : ToString Diagnostic := ⟨Diagnostic.text⟩

/-- The number of diagnostics that are errors. -/
def errorCount (ds : List Diagnostic) : Nat := ds.countP (·.severity.isError)

/-- The number of diagnostics that are warnings. -/
def warningCount (ds : List Diagnostic) : Nat := ds.countP (·.severity == .warning)

/-- The diagnostics recorded so far, and the quotes for messages still to come. -/
structure Log where
  quotes : Quotes := {}
  entries : List Diagnostic := []
  deriving DecidableEq, Repr, Inhabited

namespace Log

/-- Records a finished diagnostic. -/
def push (log : Log) (d : Diagnostic) : Log := { log with entries := log.entries ++ [d] }

/-- The diagnostic of a template, in the log's quotes. -/
def format (log : Log) (severity : Severity) (location : Location) (template : String)
    (args : List String) : Diagnostic :=
  ⟨severity, location, Message.expand log.quotes template args⟩

/-- Records the message of a template. -/
def report (log : Log) (severity : Severity) (location : Location) (template : String)
    (args : List String) : Log :=
  log.push (log.format severity location template args)

/-- Records a message as it is. -/
def note (log : Log) (location : Location) (message : String) : Log :=
  log.push ⟨.inform, location, message⟩

/-- Removes what was recorded. -/
def take (log : Log) : List Diagnostic × Log := (log.entries, { log with entries := [] })

end Log

end FloatLang
