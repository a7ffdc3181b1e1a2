/-!
# Systems

What a run asks of the system that it runs in: to open and read files, to create files, to write to
what has been created, and to log. How a system does this is left to it: a run is written against
these operations alone.
-/

namespace TernaryRules.CommandLine

/-- Why a system refuses an operation. -/
inductive FileError where
  | missing
  | notDirectory
  | isDirectory
  | nameTooLong
  | noSpace
  | other (code : Nat) (text : String)
deriving DecidableEq, Repr

def FileError.message : FileError → String
  | missing => "No such file or directory (os error 2)"
  | notDirectory => "Not a directory (os error 20)"
  | isDirectory => "Is a directory (os error 21)"
  | nameTooLong => "File name too long (os error 36)"
  | noSpace => "No space left on device (os error 28)"
  | other code text => s!"{text} (os error {code})"

/-- The operations of a system, as actions of the kind `m`. What has been opened to be read is of
type `ρ`, what can be written to is of type `η`. -/
structure System (m : Type → Type) (ρ η : Type) where
  /-- Opens what a path leads to, to be read. -/
  openFile : String → m (Except FileError ρ)
  /-- Reads what has been opened to its end. Files hold texts. -/
  readFile : ρ → m (Except FileError String)
  /-- Opens what a path leads to, to be written from its start; a file that is not there is created,
  one that is there is emptied. -/
  createFile : String → m (Except FileError η)
  stdout : η
  /-- Writes a text as a whole. -/
  write : η → String → m (Except FileError Unit)
  /-- Writes a text to standard error. -/
  log : String → m Unit

end TernaryRules.CommandLine
