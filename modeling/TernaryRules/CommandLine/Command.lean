import TernaryRules.CommandLine.Options
import TernaryRules.CommandLine.System
import TernaryRules.Feature.Json
import TernaryRules.Fitted.Json
import TernaryRules.Progress

/-!
# The command

A run reads a fitted classifier and a feature table and writes the rules compiled from them, to a
file or to standard output. It is written for any system: nothing is created before there are rules
to write.
-/

namespace TernaryRules.CommandLine

/-- Why a run fails after its arguments have been read. -/
inductive RunError where
  | file (e : FileError)
  | modelText (message : String)
  | fitted (e : FittedError)
  | tableText (message : String)
  | settings (e : SettingsError)
  | compile (e : CompileError)
  | write (e : FileError)
deriving DecidableEq

def RunError.message : RunError → String
  | file e => e.message
  | modelText message => s!"failed to parse model JSON: {message}"
  | fitted e => e.message
  | tableText message => message
  | settings e => e.message
  | compile e => e.message
  | write e => s!"I/O error: {e.message}"

section

variable {m : Type → Type} [Monad m] {ε ε' α : Type}

/-- A step of a run that fails as an action does. -/
def attempt (f : ε → ε') (action : m (Except ε α)) : ExceptT ε' m α :=
  ExceptT.mk (Except.mapError f <$> action)

/-- A step of a run that asks nothing of the system. -/
def settle (result : Except ε α) : ExceptT ε m α := ExceptT.mk (pure result)

/-- The text that a path leads to. What can be opened, but not read, is an error of the text. -/
def System.readText {ρ η : Type} (sys : System m ρ η) (path : String)
    (unreadable : String → RunError) : ExceptT RunError m String := do
  let file ← attempt .file (sys.openFile path)
  attempt (fun e => unreadable e.message) (sys.readFile file)

end

namespace Job

/-- The tree of the classifier that a text describes. -/
def parseModel (text : String) : Except RunError Tree :=
  match Fitted.reader.runPlaced text with
  | .error fault => .error (.modelText fault.message)
  | .ok m => m.tree.mapError .fitted

/-- The feature table that a text describes. -/
def parseTable (text : String) : Except RunError FeatureTable :=
  (FeatureTable.reader.runPlaced text).mapError fun fault => .tableText fault.message

/-- The settings of a job. -/
def settings (j : Job) : Except SettingsError Settings :=
  { Settings.default with
    limitAction := if j.rejectOverLimit then .reject else .warn
    threads := j.threads
    verbosity := j.verbosity }.withRuleLimit j.limit

/-- The summary at the end of a run. -/
def closing (j : Job) (output : Output) : String :=
  s!"{output.rules.length} rules from {output.stats.regions} leaves " ++
    s!"({output.stats.unreachable} unreachable, " ++
    s!"max {output.stats.maxRulesPerLeaf} rules per leaf)\n" ++
    match j.output with
    | none => ""
    | some path => s!"Rules written to: {path}\n"

variable {m : Type → Type} [Monad m] {ρ η : Type}

/-- All that is read before the compilation. The table is opened only once there is a tree. -/
def inputs (j : Job) (sys : System m ρ η) : ExceptT RunError m (Settings × Tree × FeatureTable) := do
  let model ← sys.readText j.input .modelText
  let tree ← settle (parseModel model)
  let source ← sys.readText j.domains .tableText
  let table ← settle (parseTable source)
  let s ← settle (j.settings.mapError .settings)
  return (s, tree, table)

/-- Compiles the inputs of a job and logs how that goes. -/
def compileInputs (j : Job) (sys : System m ρ η) : ExceptT RunError m Output := do
  let (s, tree, table) ← j.inputs sys
  sys.log (logText s tree table)
  settle ((compile s tree table).mapError .compile)

/-- Opens what the rules of a job are written to. -/
def openOutput (j : Job) (sys : System m ρ η) : m (Except FileError η) :=
  match j.output with
  | none => pure (.ok sys.stdout)
  | some path => sys.createFile path

/-- Writes the rules of a job. -/
def deliver (j : Job) (sys : System m ρ η) (output : Output) : ExceptT RunError m Unit := do
  let target ← attempt .file (j.openOutput sys)
  attempt .write (sys.write target (j.format.document output.rules))
  sys.log (j.closing output)

/-- Carries out a job. -/
def perform (j : Job) (sys : System m ρ η) : ExceptT RunError m Unit := do
  let output ← j.compileInputs sys
  j.deliver sys output

end Job

/-- Carries out a run with the given arguments; the result is its exit code. -/
def System.run {m : Type → Type} [Monad m] {ρ η : Type} (sys : System m ρ η) (args : List String) :
    m Nat := do
  match request args with
  | .error e =>
      sys.log s!"error: {e.message}\n\n{usage}\n"
      return 2
  | .ok .help =>
      sys.log s!"{usage}\n"
      return 0
  | .ok (.job j) =>
      match ← (j.perform sys).run with
      | .error e =>
          sys.log s!"error: {e.message}\n"
          return 1
      | .ok () => return 0

end TernaryRules.CommandLine
