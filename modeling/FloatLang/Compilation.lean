import FloatLang.Files
import FloatLang.Lowering.Tree
import FloatLang.Parser.Program

/-!
# Compilations

A compilation reads a file, parses all of it and lowers it to text. It fails if the file can
not be read or if anything that counts as an error was reported.

## Main definitions

* `Settings`, `Compiler` — what a compilation may be told
* `Compiler.compile` — compiles one file
* `Compiler.compileAll` — compiles several files and gathers their failures
-/

namespace FloatLang

/-- What a successful compilation hands back. -/
inductive Emit
  /-- The text of every statement. -/
  | tree
  /-- Nothing but diagnostics. -/
  | none
  deriving DecidableEq, Repr, Inhabited

/-- What a compilation may be told. -/
structure Settings where
  quotes : Quotes := {}
  warningsAsErrors : Bool := false
  emit : Emit := .tree
  deriving DecidableEq, Repr, Inhabited

/-- Settings that can be used: neither quotation mark is empty. -/
structure Compiler extends Settings where
  opening_ne_empty : quotes.opening ≠ "" := by decide
  closing_ne_empty : quotes.closing ≠ "" := by decide

/-- Why settings can not be used. -/
inductive SettingsError
  | emptyQuotes
  deriving DecidableEq, Repr

/-- The message of a settings error. -/
def SettingsError.message : SettingsError → String
  | .emptyQuotes => "quote characters can't be empty"

/-- The compiler with the given settings. -/
def Settings.compiler? (settings : Settings) : Except SettingsError Compiler :=
  if h : settings.quotes.opening = "" ∨ settings.quotes.closing = "" then .error .emptyQuotes
  else .ok ⟨settings, fun e => h (.inl e), fun e => h (.inr e)⟩

/-- A successful compilation. -/
structure Compilation where
  file : Path
  /-- The texts of the statements, if they were asked for. -/
  statements : List String
  diagnostics : List Diagnostic
  deriving DecidableEq, Repr

/-- Why a compilation failed. -/
inductive Failure
  /-- The file could not be read. -/
  | unreadable (location : Location) (message : String)
  /-- So many errors were reported. -/
  | rejected (file : Path) (errors : Nat)
  /-- The parser could not go on. -/
  | broken (fault : Fault)
  deriving DecidableEq, Repr

/-- The message of a failure. -/
def Failure.message : Failure → String
  | .unreadable location message => location.text ++ ": " ++ message
  | .rejected file errors =>
    "could not compile " ++ file.text ++ " due to " ++ toString errors ++ " previous error(s)"
  | .broken fault => fault.message

/-- A failed compilation and all its diagnostics. -/
structure CompileError where
  failure : Failure
  diagnostics : List Diagnostic
  deriving DecidableEq, Repr

/-- Several failed compilations, with the diagnostics of all of them. -/
structure BatchError where
  failures : List Failure
  diagnostics : List Diagnostic
  deriving DecidableEq, Repr

/-- Gathers failed compilations. -/
def BatchError.ofErrors (errors : List CompileError) : BatchError :=
  ⟨errors.map (·.failure), errors.flatMap (·.diagnostics)⟩

/-- The messages of the failures, one on each line. -/
def BatchError.message (e : BatchError) : String :=
  "\n".intercalate (e.failures.map Failure.message)

namespace Parser

/-- Lowers every statement of the outermost scope, and takes them out of it. -/
def lowerProgram {σ V E S : Type} (b : Backend σ V E S) (p : Parser) :
    StateM σ (List S × Parser) := do
  let (statements, scopes) := p.scopes.takeOutermost
  let handles ← Statement.lowerAll b statements
  pure (handles, { p with scopes })

/-- The texts of the statements of the outermost scope. -/
def texts (p : Parser) : List String := ((p.lowerProgram Backend.tree).run 0).1.1

/-- Everything reported so far, as diagnostics. -/
def diagnostics (quotes : Quotes) (p : Parser) : List Diagnostic :=
  p.scanner.reports.map (·.diagnostic quotes)

end Parser

namespace Compiler

variable (c : Compiler)

/-- The diagnostics that make a compilation fail. -/
def failureCount (diagnostics : List Diagnostic) : Nat :=
  errorCount diagnostics + if c.warningsAsErrors then warningCount diagnostics else 0

/-- The diagnostic of a file that can not be read. -/
def unreadable (file : Path) (error : ReadError) : Diagnostic :=
  ⟨.fatal, .startOf file,
    Message.expand c.quotes "cannot read %qs: %s" [file.text, error.message]⟩

/-- Compiles the bytes of a file. -/
def compileBytes (file : Path) (bytes : ByteArray) : Except CompileError Compilation :=
  match (Parser.ofSource (.ofBytes file bytes)).program with
  | .error halt => .error ⟨.broken halt.fault, halt.reports.map (·.diagnostic c.quotes)⟩
  | .ok p =>
    let diagnostics := p.diagnostics c.quotes
    let errors := c.failureCount diagnostics
    if 0 < errors then .error ⟨.rejected file errors, diagnostics⟩
    else
      match c.emit with
      | .tree => .ok ⟨file, p.texts, diagnostics⟩
      | .none => .ok ⟨file, [], diagnostics⟩

/-- Compiles a file. -/
def compile (storage : Storage) (file : Path) : Except CompileError Compilation :=
  match storage.read file with
  | .error error =>
    let d := c.unreadable file error
    .error ⟨.unreadable d.location d.message, [d]⟩
  | .ok bytes => c.compileBytes file bytes

/-- Divides outcomes into successes and failures. -/
def separate (outcomes : List (Except CompileError Compilation)) :
    List Compilation × List CompileError :=
  (outcomes.filterMap (·.toOption),
    outcomes.filterMap fun | .error e => some e | .ok _ => none)

/-- Compiles several files, all of them even if one fails. -/
def compileAll (storage : Storage) (files : List Path) : Except BatchError (List Compilation) :=
  match separate (files.map (c.compile storage)) with
  | (compilations, []) => .ok compilations
  | (_, errors) => .error (.ofErrors errors)

end Compiler

end FloatLang
