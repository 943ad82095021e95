import FloatLang.Session

/-!
# The command

Reads the files named on the command line and runs a session over them.
-/

namespace FloatLang

/-- The reason behind an error of the operating system. A directory is opened before it fails to
be read, with the code 21; what can not be opened leads through something that is no directory. An
invalid argument is a name, and the code 22 stands for what it contains. -/
def ReadError.ofSystem : IO.Error → ReadError
  | .noFileOrDirectory .. => .notFound
  | .inappropriateType _ code _ => if code == 21 then .isDirectory else .notDirectory
  | .invalidArgument _ code _ => if code == 22 then .nulInName else .nameTooLong
  | error => .other (toString error)

/-- Reads a file. -/
def readBytes (file : Path) : IO (Except ReadError ByteArray) := do
  try
    return .ok (← IO.FS.readBinFile file.text)
  catch error =>
    return .error (.ofSystem error)

/-- The files an invocation names, read in advance. -/
def readFiles (args : List String) : IO Storage := do
  match Options.ofArguments args with
  | .error _ => return ⟨fun _ => .error .notFound⟩
  | .ok options =>
    let contents ← options.files.mapM fun file => do return (file.text, ← readBytes file)
    return ⟨fun file => (contents.lookup file.text).getD (.error .notFound)⟩

end FloatLang

/-- Compiles the files of a command line. -/
def main (args : List String) : IO UInt32 := do
  let storage ← FloatLang.readFiles args
  let errorOutput ← IO.getStderr
  let outcome := FloatLang.Session.run storage (← errorOutput.isTty) args
  for text in outcome.errors do
    errorOutput.putStrLn text
  for line in outcome.output do
    IO.println line
  return outcome.code.toUInt32
