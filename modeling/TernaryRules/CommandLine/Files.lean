import TernaryRules.CommandLine.Surroundings
import TernaryRules.CommandLine.System

/-!
# Files

A plain system of files to run in: a working directory with files and the directories they lie in,
and what lies around it. Paths are followed from part to part. The working directory has no name of
its own among its surroundings, and what is created there is not kept.
-/

namespace TernaryRules.CommandLine

/-- The largest number of bytes in a part of a path. -/
def maxNameBytes : Nat := 255

/-- The largest number of bytes in a path. -/
def maxPathBytes : Nat := 4095

/-- Files of the working directory, by the parts of their paths. -/
structure Directory where
  files : List (List String × String)
deriving DecidableEq, Repr

/-- A directory on the way along a path: the working directory or one below it, by the parts that
lead there, or a directory of the surroundings, by the names from the root. -/
inductive Station where
  | inside (location : List String)
  | outside (location : List String)
deriving DecidableEq, Repr

/-- The directory above. The root is above itself. -/
def Station.parent : Station → Station
  | inside [] => outside Surroundings.home
  | inside location => inside location.dropLast
  | outside location => outside location.dropLast

/-- Where a path leads: to a file of the working directory, to a device, to a directory, or to a
name that a directory lacks, with its location if it is one of the working directory. -/
inductive Place where
  | file (location : List String) (text : String)
  | device (device : Device)
  | directory (station : Station)
  | free (location : Option (List String))
deriving DecidableEq, Repr

/-- Where the text of an output file goes: to a file of the working directory, to a place where no
run sees it again, to a device without room, or to one of the streams of the run. -/
inductive Outlet where
  | file (location : List String)
  | elsewhere
  | full
  | stdout
  | stderr
deriving DecidableEq, Repr

def Device.outlet : Device → Outlet
  | null | zero | stdin => .elsewhere
  | full => .full
  | stdout => .stdout
  | stderr => .stderr

namespace Directory

/-- A path cut at its slashes. -/
def pieces : List Char → List (List Char)
  | [] => [[]]
  | c :: cs =>
      if c = '/' then [] :: pieces cs
      else
        match pieces cs with
        | [] => [[c]]
        | piece :: rest => (c :: piece) :: rest

/-- The parts of a path, which any number of slashes may keep apart. -/
def parts (path : String) : List String :=
  ((pieces path.toList).filter fun piece => !piece.isEmpty).map String.ofList

/-- Whether a path starts at the root. -/
def absolute (path : String) : Bool := path.toList.head? == some '/'

/-- Whether a path ends in a slash. -/
def slashed (path : String) : Bool := path.toList.getLast? == some '/'

def ofFiles (files : List (String × String)) : Directory :=
  ⟨files.map fun (path, text) => ((parts path).filter fun part => part != ".", text)⟩

def text? (d : Directory) (location : List String) : Option String := d.files.lookup location

/-- The directory with a file that has this text. -/
def put (d : Directory) (location : List String) (text : String) : Directory :=
  ⟨(d.files.filter fun (path, _) => path != location) ++ [(location, text)]⟩

/-- Whether some file lies below these parts; the working directory itself is always there. -/
def holds (d : Directory) (location : List String) : Bool :=
  location.isEmpty ||
    d.files.any fun (path, _) => location.length < path.length && location.isPrefixOf path

/-- Where a name leads in the working directory or below. -/
def lookInside (d : Directory) (location : List String) : Place :=
  match d.text? location with
  | some text => .file location text
  | none => if d.holds location then .directory (.inside location) else .free (some location)

/-- Where a name leads in a directory. -/
def look (d : Directory) (station : Station) (name : String) : Except FileError Place :=
  match station with
  | .inside location => .ok (d.lookInside (location ++ [name]))
  | .outside location =>
      match Surroundings.entry? (location ++ [name]) with
      | some .directory => .ok (.directory (.outside (location ++ [name])))
      | some .workingDirectory => .ok (.directory (.inside []))
      | some (.device device) => .ok (.device device)
      | none => if Surroundings.fixed location then .error .missing else .ok (.free none)

/-- Where one part of a path leads from a directory. -/
def enter (d : Directory) (station : Station) (part : String) : Except FileError Place :=
  if part = "." then .ok (.directory station)
  else if part = ".." then .ok (.directory station.parent)
  else if maxNameBytes < part.utf8ByteSize then .error .nameTooLong
  else d.look station part

/-- Follows the parts of a path from a directory on; all but the last have to lead to
directories. -/
def follow (d : Directory) : Station → List String → Except FileError Place
  | station, [] => .ok (.directory station)
  | station, [part] => d.enter station part
  | station, part :: rest =>
      match d.enter station part with
      | .error e => .error e
      | .ok (.directory station) => d.follow station rest
      | .ok (.file ..) | .ok (.device _) => .error .notDirectory
      | .ok (.free _) => .error .missing

/-- Where the parts of a path lead, from the directory in which the path starts. -/
def find (d : Directory) (path : String) (parts : List String) : Except FileError Place :=
  if path.isEmpty then .error .missing
  else if maxPathBytes < path.utf8ByteSize then .error .nameTooLong
  else d.follow (if absolute path then .outside [] else .inside []) parts

/-- Opens what a path leads to, with what reading it will come to: directories can be opened, but not
read. A path that ends in a slash leads to no file. -/
def openFile (d : Directory) (path : String) : Except FileError (Except FileError String) :=
  let content (text : String) : Except FileError (Except FileError String) :=
    if slashed path then .error .notDirectory else .ok (.ok text)
  match d.find path (parts path) with
  | .error e => .error e
  | .ok (.file _ text) => content text
  | .ok (.device device) => content device.text
  | .ok (.directory _) => .ok (.error .isDirectory)
  | .ok (.free _) => .error .missing

/-- Where the text of a file goes that is there or can be created. A path that ends in a slash asks
for a directory, and none is created. -/
def createFile (d : Directory) (path : String) : Except FileError Outlet :=
  if slashed path then
    match d.find path (parts path).dropLast with
    | .error e => .error e
    | .ok (.file ..) | .ok (.device _) => .error .notDirectory
    | .ok (.directory _) => .error .isDirectory
    | .ok (.free _) => .error .missing
  else
    match d.find path (parts path) with
    | .error e => .error e
    | .ok (.file location _) | .ok (.free (some location)) => .ok (.file location)
    | .ok (.device device) => .ok device.outlet
    | .ok (.directory _) => .error .isDirectory
    | .ok (.free none) => .ok .elsewhere

end Directory

end TernaryRules.CommandLine
