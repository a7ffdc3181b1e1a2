/-!
# The surroundings of a working directory

A small picture of what lies around a working directory: the usual directories below the root, and
the devices among them. A location is the list of the names that lead there from the root.
-/

namespace TernaryRules.CommandLine

inductive Device where
  | null
  | zero
  | full
  | stdin
  | stdout
  | stderr
deriving DecidableEq, Repr

/-- What is read from a device. Zeros without end are cut off after the first, which no document
can start with. -/
def Device.text : Device → String
  | zero | full => "\x00"
  | null | stdin | stdout | stderr => ""

/-- What a name of the surroundings stands for. -/
inductive Entry where
  | directory
  | device (device : Device)
  | workingDirectory
deriving DecidableEq, Repr

namespace Surroundings

/-- The directory that the working directory lies in. -/
def home : List String := ["tmp"]

def directories : List (List String) :=
  ["bin", "boot", "dev", "etc", "home", "lib", "media", "mnt", "opt", "proc", "root", "run", "sbin",
    "srv", "sys", "tmp", "usr", "var"].map (fun name => [name]) ++
  [["dev", "fd"], ["dev", "shm"], ["proc", "self"], ["proc", "self", "fd"], ["usr", "bin"],
    ["usr", "lib"], ["usr", "local"], ["usr", "share"], ["var", "log"], ["var", "tmp"]]

/-- The streams that a run has from the start, by the names of their descriptors. -/
def streams : List (String × Device) := [("0", .stdin), ("1", .stdout), ("2", .stderr)]

def devices : List (List String × Device) :=
  [("null", .null), ("zero", .zero), ("full", .full), ("stdin", .stdin), ("stdout", .stdout),
    ("stderr", .stderr)].map (fun (name, device) => (["dev", name], device)) ++
  streams.map (fun (name, device) => (["dev", "fd", name], device)) ++
  streams.map (fun (name, device) => (["proc", "self", "fd", name], device))

def entry? (location : List String) : Option Entry :=
  if directories.contains location then some .directory
  else if location = ["proc", "self", "cwd"] then some .workingDirectory
  else (devices.lookup location).map Entry.device

/-- Whether a directory takes no new names. -/
def fixed (location : List String) : Bool :=
  ["proc"].isPrefixOf location || location = ["dev", "fd"]

end Surroundings

end TernaryRules.CommandLine
