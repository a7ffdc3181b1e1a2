import TernaryRules.CommandLine.Command

/-!
# The command line

The system that a program runs on, and the command run on it.
-/

namespace TernaryRules.CommandLine

/-- The number of an error, which comes with either sign. -/
def errorNumber (code : UInt32) : Nat := min code.toNat (0 - code).toNat

/-- The error of a file operation. -/
def fileError : IO.Error → FileError
  | .noFileOrDirectory .. => .missing
  | .inappropriateType _ code _ => if errorNumber code = 20 then .notDirectory else .isDirectory
  | .resourceExhausted _ code text =>
      if errorNumber code = 28 then .noSpace else .other (errorNumber code) text
  | .invalidArgument _ code text =>
      if errorNumber code = 36 then .nameTooLong else .other (errorNumber code) text
  | .permissionDenied _ code text => .other (errorNumber code) text
  | e => .other 5 (toString e)

/-- The result of a file operation. -/
def outcome {α : Type} (action : IO α) : IO (Except FileError α) := do
  try return .ok (← action)
  catch e => return .error (fileError e)

/-- The system of the program. -/
def programSystem (stdout stderr : IO.FS.Stream) : System IO IO.FS.Handle IO.FS.Stream where
  openFile path := outcome (IO.FS.Handle.mk path .read)
  readFile file := outcome file.readToEnd
  createFile path := outcome do return .ofHandle (← IO.FS.Handle.mk path .write)
  stdout
  write stream text := outcome do
    stream.putStr text
    stream.flush
  log text := stderr.putStr text

end TernaryRules.CommandLine

open TernaryRules.CommandLine in
def main (args : List String) : IO UInt32 := do
  let system := programSystem (← IO.getStdout) (← IO.getStderr)
  return (← system.run args).toUInt32
