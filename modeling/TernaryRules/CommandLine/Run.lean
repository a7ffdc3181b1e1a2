import TernaryRules.CommandLine.Command
import TernaryRules.CommandLine.Files

/-!
# Runs in a directory

The system that a directory makes: its files, and what goes from it to other places in the course of
a run. A run in a directory is a run on this system.
-/

namespace TernaryRules.CommandLine

/-- A directory in the course of a run, with what has gone to other places so far. -/
structure Session where
  directory : Directory
  elsewhere : String
  stdout : String
  stderr : String
deriving DecidableEq, Repr

namespace Session

/-- Nothing has gone to other places yet. -/
def start (d : Directory) : Session := ⟨d, "", "", ""⟩

/-- Empties what has gone to an outlet, where it is a file. -/
def clear (s : Session) : Outlet → Session
  | .file location => { s with directory := s.directory.put location "" }
  | .elsewhere | .full | .stdout | .stderr => s

/-- Adds a text to what has gone to an outlet. -/
def append (s : Session) (outlet : Outlet) (text : String) : Session :=
  match outlet with
  | .file location =>
      let before := (s.directory.text? location).getD ""
      { s with directory := s.directory.put location (before ++ text) }
  | .elsewhere => { s with elsewhere := s.elsewhere ++ text }
  | .full => s
  | .stdout => { s with stdout := s.stdout ++ text }
  | .stderr => { s with stderr := s.stderr ++ text }

/-- The system of a directory. What has been opened to be read is given by what reading it will come
to. -/
def system : System (StateM Session) (Except FileError String) Outlet where
  openFile path := do return (← get).directory.openFile path
  readFile content := return content
  createFile path := modifyGet fun s =>
    match s.directory.createFile path with
    | .error e => (.error e, s)
    | .ok outlet => (.ok outlet, s.clear outlet)
  stdout := .stdout
  write outlet text := modifyGet fun s =>
    match outlet with
    | .full => (.error .noSpace, s)
    | outlet => (.ok (), s.append outlet text)
  log text := modify fun s => s.append .stderr text

end Session

/-- What a run leaves behind. -/
structure Outcome where
  code : Nat
  stdout : String
  stderr : String
  directory : Directory
deriving DecidableEq, Repr

/-- The outcome of a run in a directory. -/
def run (args : List String) (d : Directory) : Outcome :=
  let (code, s) := (Session.system.run args).run (.start d)
  ⟨code, s.stdout, s.stderr, s.directory⟩

/-- The directory after a run, and the files in it that the run has created or changed. -/
def Directory.after (d : Directory) (o : Outcome) : Directory × List (String × String) :=
  (o.directory, o.directory.files.filterMap fun (location, text) =>
    if d.text? location = o.directory.text? location then none
    else some ("/".intercalate location, text))

end TernaryRules.CommandLine
