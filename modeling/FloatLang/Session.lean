import FloatLang.CommandLine
import FloatLang.Excerpt

/-!
# Sessions

A session compiles the files named on a command line, one after the other. The text of their
statements goes to the output, everything else to the error output. A diagnostic that can not be
rendered ends it.

## Main definitions

* `Path.isSourceFile` — the files that are compiled
* `Outcome`, `Session.run` — what a session prints and its exit code
-/

namespace FloatLang

/-- Source files have the extension `rin`. -/
def Path.isSourceFile (file : Path) : Bool := file.extension? == some "rin"

/-- What a session leaves behind. -/
structure Outcome where
  code : Nat := 0
  /-- The lines of the output. -/
  output : List String := []
  /-- The texts of the error output, each followed by a line break. -/
  errors : List String := []
  deriving DecidableEq, Repr

namespace Session

/-- What one file adds to a session. -/
structure FileOutcome where
  failed : Bool
  /-- Whether the session ends with this file, because a diagnostic can not be rendered. -/
  broken : Bool := false
  output : List String := []
  errors : List String := []
  deriving DecidableEq, Repr

/-- The warning about a file that is not compiled. -/
def skipped (file : Path) : Diagnostic :=
  ⟨.warning, .startOf file, "'" ++ file.text ++ "' is not a rinto source file, skipping"⟩

/-- The diagnostics up to the first that can not be rendered, and whether there is such a one. -/
def reached (renderer : Renderer) (diagnostics : List Diagnostic) : List Diagnostic × Bool :=
  let (fine, rest) := diagnostics.span fun d => (renderer.rendered d).isOk
  (fine ++ rest.take 1, !rest.isEmpty)

/-- Compiles one file. -/
def compileFile (options : Options) (c : Compiler) (renderer : Renderer) (file : Path) :
    FileOutcome :=
  if file.isSourceFile then
    match c.compile renderer.storage file with
    | .ok compilation =>
      let (diagnostics, broken) := reached renderer compilation.diagnostics
      { failed := false
        broken
        output := if broken then [] else compilation.statements
        errors := diagnostics.map renderer.render }
    | .error error =>
      let (diagnostics, broken) := reached renderer error.diagnostics
      { failed := true, broken, errors := diagnostics.map renderer.render }
  else { failed := options.warningsAsErrors, errors := [renderer.header (skipped file)] }

/-- Compiles the files of a command line, up to one with which the session ends. -/
def compileFiles (storage : Storage) (colors : Bool) (options : Options) : Outcome :=
  let c : Compiler :=
    { emit := options.emit, warningsAsErrors := options.warningsAsErrors }
  let renderer : Renderer := { storage, excerpts := !options.noExcerpt, colors }
  let (whole, rest) := (options.files.map (compileFile options c renderer)).span (!·.broken)
  let outcomes := whole ++ rest.take 1
  { code := if !rest.isEmpty then 101 else if outcomes.any (·.failed) then 1 else 0
    output := outcomes.flatMap (·.output)
    errors := outcomes.flatMap (·.errors) }

/-- Runs a command line. Asking for help is no failure; asking for nothing sensible is. -/
def run (storage : Storage) (colors : Bool) (args : List String) : Outcome :=
  match Options.ofArguments args with
  | .ok options => compileFiles storage colors options
  | .error .helpWanted => {}
  | .error .versionWanted => {}
  | .error _ => { code := 2 }

end Session

end FloatLang
