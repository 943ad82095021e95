import FloatLang.Compilation

/-!
# Command line

Flags may stand before, between and after the files, short flags combine, and `--` ends the
flags. A value that was read is only looked at when the next flag or another kind of value
follows, so an unknown flag wins over a bad value in front of it.

## Main definitions

* `Options`, `Options.ofArguments` — what the arguments ask for
* `UsageError` — why they ask for nothing sensible
-/

namespace FloatLang

/-- How much is logged. -/
inductive LogLevel
  | off
  | error
  | info
  | debug
  | trace
  deriving DecidableEq, Repr, Inhabited

/-- What the arguments ask for. -/
structure Options where
  files : List Path
  emit : Emit
  warningsAsErrors : Bool
  noExcerpt : Bool
  level : LogLevel
  deriving DecidableEq, Repr

/-- Why the arguments ask for no compilation. -/
inductive UsageError
  /-- No file is given. -/
  | fileMissing
  | unknownFlag
  /-- A value is missing, empty or none of the values that are possible. -/
  | badValue
  /-- A flag is repeated too often. -/
  | tooManyFlags
  /-- Two flags exclude each other, or a flag is given twice. -/
  | conflict
  /-- A flag that takes no value has one. -/
  | unexpectedValue
  | helpWanted
  | versionWanted
  deriving DecidableEq, Repr

/-- A value that was read and not yet looked at. -/
inductive PendingValue
  | none
  /-- The value of `--emit`, if it has been read. -/
  | emit (value? : Option String)
  | files (names : List String)
  deriving DecidableEq, Repr

/-- What the arguments read so far ask for. -/
structure ArgumentReader where
  files : List Path := []
  emit? : Option Emit := none
  warningsAsErrors : Bool := false
  noExcerpt : Bool := false
  verbose : Nat := 0
  quiet : Nat := 0
  pending : PendingValue := .none
  deriving DecidableEq, Repr

namespace ArgumentReader

variable (r : ArgumentReader)

/-- The value of `--emit` with a given name. -/
def emitOfName? : String → Option Emit
  | "tree" => some .tree
  | "none" => some .none
  | _ => none

/-- Looks at the value that was read last. -/
def settle : Except UsageError ArgumentReader :=
  match r.pending with
  | .none => .ok r
  | .emit none => .error .badValue
  | .emit (some value) =>
    if r.emit?.isSome then .error .conflict
    else
      match emitOfName? value with
      | some emit => .ok { r with emit? := some emit, pending := .none }
      | none => .error .badValue
  | .files names =>
    if names.any (·.isEmpty) then .error .badValue
    else .ok { r with files := r.files ++ names.map Path.mk, pending := .none }

/-- The flags without a value. -/
inductive Flag
  | warningsAsErrors
  | noExcerpt
  | verbose
  | quiet
  | help
  | version
  deriving DecidableEq, Repr

/-- The flag of a letter. -/
def Flag.ofLetter? : Char → Option Flag
  | 'W' => some .warningsAsErrors
  | 'v' => some .verbose
  | 'q' => some .quiet
  | 'h' => some .help
  | 'V' => some .version
  | _ => none

/-- The flag of a long name. -/
def Flag.ofName? : String → Option Flag
  | "warnings-as-errors" => some .warningsAsErrors
  | "no-excerpt" => some .noExcerpt
  | "help" => some .help
  | "version" => some .version
  | _ => none

/-- Reads a flag. -/
def flag (f : Flag) : Except UsageError ArgumentReader := do
  let r ← r.settle
  match f with
  | .warningsAsErrors =>
    if r.warningsAsErrors then throw .conflict else return { r with warningsAsErrors := true }
  | .noExcerpt => if r.noExcerpt then throw .conflict else return { r with noExcerpt := true }
  | .verbose => if r.verbose < 2 then return { r with verbose := r.verbose + 1 }
                else throw .tooManyFlags
  | .quiet => if r.quiet < 2 then return { r with quiet := r.quiet + 1 }
              else throw .tooManyFlags
  | .help => throw .helpWanted
  | .version => throw .versionWanted

/-- Reads the letters of combined short flags. -/
def letters (text : List Char) : Except UsageError ArgumentReader :=
  text.foldlM (fun r c =>
    match Flag.ofLetter? c with
    | some f => r.flag f
    | none => .error .unknownFlag) r

/-- Reads a long flag, perhaps with a value attached to it. -/
def long (name : String) (value? : Option String) : Except UsageError ArgumentReader :=
  if name = "emit" then do
    let r ← r.settle
    let r := { r with pending := .emit value? }
    if value?.isSome then r.settle else return r
  else
    match Flag.ofName? name, value? with
    | none, _ => .error .unknownFlag
    | some _, some _ => .error .unexpectedValue
    | some f, none => r.flag f

/-- Reads a file name. -/
def file (name : String) : Except UsageError ArgumentReader :=
  match r.pending with
  | .files names => .ok { r with pending := .files (names ++ [name]) }
  | _ => do
    let r ← r.settle
    return { r with pending := .files [name] }

/-- Reads what is no flag: the value that `--emit` waits for, or else a file name. -/
def value (text : String) : Except UsageError ArgumentReader :=
  match r.pending with
  | .emit none => .ok { r with pending := .emit (some text) }
  | _ => r.file text

/-- Reads one argument. -/
def argument (text : String) : Except UsageError ArgumentReader :=
  match text.toList with
  | '-' :: '-' :: flag =>
    let name := flag.takeWhile (· != '=')
    let value? := (flag.dropWhile (· != '=')).tail?
    r.long (String.ofList name) (value?.map String.ofList)
  | '-' :: c :: letters => r.letters (c :: letters)
  | _ => r.value text

/-- Reads arguments; after `--` all of them are file names. -/
def arguments (r : ArgumentReader) : List String → Except UsageError ArgumentReader
  | [] => r.settle
  | "--" :: names => do
    let r ← names.foldlM file r
    r.settle
  | text :: rest => do
    let r ← r.argument text
    r.arguments rest

/-- How much is logged. -/
def level : LogLevel :=
  match r.verbose, r.quiet with
  | 0, 0 => .info
  | 0, 1 => .error
  | 0, _ => .off
  | 1, _ => .debug
  | _, _ => .trace

end ArgumentReader

/-- What the arguments ask for. -/
def Options.ofArguments (args : List String) : Except UsageError Options := do
  let r ← ({} : ArgumentReader).arguments args
  if 0 < r.verbose && 0 < r.quiet then throw .conflict
  if r.files.isEmpty then throw .fileMissing
  return {
    files := r.files
    emit := r.emit?.getD .tree
    warningsAsErrors := r.warningsAsErrors
    noExcerpt := r.noExcerpt
    level := r.level }

end FloatLang
