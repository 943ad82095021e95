import FloatLang.Path

/-!
# Files

Where sources come from: anything that answers a path with the bytes of a file or with the
reason why there are none. A directory tree kept in memory is one such place. In it, files and
directories are known by the names that lead to them from its top.

## Main definitions

* `ReadError` — why a file can not be read
* `Storage` — a place to read files from
* `DirectoryTree` — files and directories in memory
* `DirectoryTree.addDirectory`, `DirectoryTree.addFile` — put something at a path
* `DirectoryTree.read` — reads the file at a path
-/

namespace FloatLang

/-- Why a file can not be read. -/
inductive ReadError
  | notFound
  | isDirectory
  | notDirectory
  /-- A name, or the whole path, has more bytes than the system allows. -/
  | nameTooLong
  /-- The path contains the character that ends texts for the operating system. -/
  | nulInName
  /-- The bytes are not the encoding of a text. -/
  | invalidText
  /-- Any other reason, in the words of the operating system. -/
  | other (message : String)
  deriving DecidableEq, Repr

/-- The message of a read error. -/
def ReadError.message : ReadError → String
  | .notFound => "No such file or directory (os error 2)"
  | .isDirectory => "Is a directory (os error 21)"
  | .notDirectory => "Not a directory (os error 20)"
  | .nameTooLong => "File name too long (os error 36)"
  | .nulInName => "file name contained an unexpected NUL byte"
  | .invalidText => "stream did not contain valid UTF-8"
  | .other message => message

/-- A place to read files from. -/
structure Storage where
  read : Path → Except ReadError ByteArray

/-- Reads a file as text. -/
def Storage.readText (storage : Storage) (file : Path) : Except ReadError String := do
  match String.fromUTF8? (← storage.read file) with
  | some text => return text
  | none => throw .invalidText

/-- Files and directories in memory, each with the names that lead to it. -/
structure DirectoryTree where
  /-- The files, those added last first. -/
  files : List (List String × ByteArray) := []
  directories : List (List String) := []

namespace DirectoryTree

/-- Where a step leads from a place inside the tree. Nothing is above the top. -/
def follow (place : List String) : Path.Step → List String
  | .root => []
  | .current => place
  | .parent => place.dropLast
  | .name text => place ++ [text]

/-- The places that the steps of a path pass, the first and the last included. -/
def places (place : List String) : List Path.Step → List (List String)
  | [] => [place]
  | step :: steps => place :: places (follow place step) steps

/-- The place that the steps of a path lead to from the top. -/
def placeOf (steps : List Path.Step) : List String := steps.foldl follow []

variable (tree : DirectoryTree)

/-- Adds a directory and those its path passes. -/
def addDirectory (directory : Path) : DirectoryTree :=
  { tree with directories := tree.directories ++ places [] directory.steps }

/-- Adds a file and the directories its path passes. A file added before at the same place is
gone. -/
def addFile (file : Path) (bytes : ByteArray) : DirectoryTree :=
  let steps := file.steps
  { files := (placeOf steps, bytes) :: tree.files
    directories := tree.directories ++ places [] steps.dropLast }

/-- What a path leads to. -/
inductive Entry
  | file (bytes : ByteArray)
  | directory (place : List String)
  /-- A directory above the top of the tree. -/
  | outside

/-- The number of bytes that a name may have. -/
def nameLimit : Nat := 255

/-- The number of bytes that a path may have. -/
def pathLimit : Nat := 4095

/-- The entry at a place. -/
def entryAt (place : List String) : Except ReadError Entry :=
  match tree.files.lookup place with
  | some bytes => .ok (.file bytes)
  | none => if place ∈ tree.directories then .ok (.directory place) else .error .notFound

/-- The entry of a name in a directory. -/
def child (directory : Entry) (name : String) : Except ReadError Entry :=
  if nameLimit < name.utf8ByteSize then .error .nameTooLong
  else
    match directory with
    | .directory place => tree.entryAt (place ++ [name])
    | _ => .error .notFound

/-- Where one component of a path leads. -/
def walkStep (entry : Entry) (step : Path.Step) : Except ReadError Entry :=
  match entry, step with
  | .file _, _ => .error .notDirectory
  | _, .root => .ok .outside
  | entry, .current => .ok entry
  | .directory [], .parent => .ok .outside
  | .directory place, .parent => .ok (.directory place.dropLast)
  | .outside, .parent => .ok .outside
  | entry, .name text => tree.child entry text

/-- Where a path leads from the top of the tree. -/
def find (file : Path) : Except ReadError Entry :=
  if '\x00' ∈ file.text.toList then .error .nulInName
  else if file.text.isEmpty then .error .notFound
  else if pathLimit < file.text.utf8ByteSize then .error .nameTooLong
  else file.steps.foldlM tree.walkStep (.directory [])

/-- Reads a file of the tree. -/
def read (file : Path) : Except ReadError ByteArray := do
  match ← tree.find file with
  | .file bytes => if file.namesDirectory then throw .notDirectory else return bytes
  | _ => throw .isDirectory

/-- The tree as a place to read files from. -/
def storage : Storage := ⟨tree.read⟩

end DirectoryTree

end FloatLang
