import TernaryRules.Rule.Line
import TernaryRules.Settings

/-!
# Command line options

Arguments are read from left to right. A flag that needs a value takes the next argument, whatever
it looks like; of repeated flags the last counts. A request for help ends the reading.
-/

namespace TernaryRules.CommandLine

/-- The options as read so far. -/
structure Options where
  input : Option String
  domains : Option String
  output : Option String
  format : LineFormat
  limit : Option Nat
  rejectOverLimit : Bool
  threads : Option Nat
  verbosity : Verbosity
deriving DecidableEq

/-- A run that has its input files. -/
structure Job where
  input : String
  domains : String
  output : Option String
  format : LineFormat
  limit : Option Nat
  rejectOverLimit : Bool
  threads : Option Nat
  verbosity : Verbosity
deriving DecidableEq

/-- What the arguments ask for. -/
inductive Request where
  | help
  | job (j : Job)
deriving DecidableEq

inductive UsageError where
  | missingValue (flag : String)
  | unknownArgument (arg : String)
  | unknownFormat (name : String)
  | invalidNumber (flag raw : String)
  | missingOption (flag : String)
deriving DecidableEq, Repr

def UsageError.message : UsageError → String
  | missingValue flag => s!"{flag} needs a value"
  | unknownArgument arg => s!"unknown arg: {arg}"
  | unknownFormat name => s!"unknown format: {name}"
  | invalidNumber flag raw => s!"invalid {flag}: {raw}"
  | missingOption flag => s!"missing {flag}"

def usage : String :=
  "dtree-tcam\n\n" ++
  "  -i, --input <path>      scikit-learn tree JSON (tree_ arrays + classes)\n" ++
  "  -d, --domains <path>    feature domain table JSON\n" ++
  "  -o, --output <path>     output file (default: stdout)\n" ++
  "  --format <fmt>          table-add (default) | match\n" ++
  "  --limit <n>             warn when the rule count exceeds n\n" ++
  "  --reject-over-limit     fail instead of warning above --limit\n" ++
  "  --threads <n>           expansion threads (default: all cores)\n" ++
  "  -v, -vv                 info / debug logging on stderr"

/-- The `table_add` format with the usual words. -/
def tableAdd : LineFormat := .tableAdd LineFormat.defaultTable LineFormat.defaultAction

/-- The `match` format with the usual words. -/
def matchEntry : LineFormat := .matchEntry LineFormat.defaultAction LineFormat.defaultParam

namespace Options

def none : Options := ⟨.none, .none, .none, tableAdd, .none, false, .none, .warning⟩

/-- The flags that take the next argument as their value. -/
inductive Valued where
  | input
  | domains
  | output
  | format
  | limit
  | threads
deriving DecidableEq, Repr

def Valued.ofArg? (arg : String) : Option Valued :=
  if arg = "-i" ∨ arg = "--input" then some input
  else if arg = "-d" ∨ arg = "--domains" then some domains
  else if arg = "-o" ∨ arg = "--output" then some output
  else if arg = "--format" then some format
  else if arg = "--limit" then some limit
  else if arg = "--threads" then some threads
  else .none

/-- A decimal number of one word; it may start with a plus sign and with zeros. -/
def number? (raw : String) : Option Nat :=
  let digits := match raw.toList with
    | '+' :: rest => rest
    | cs => cs
  if digits ≠ [] ∧ digits.all Char.isDigit ∧ Numeral.value digits ≤ maxKey then
    some (Numeral.value digits)
  else .none

def format? (name : String) : Option LineFormat :=
  if name = "table-add" then some tableAdd
  else if name = "match" then some matchEntry
  else .none

/-- The options with one more value. -/
def set (o : Options) (flag : Valued) (arg value : String) : Except UsageError Options :=
  match flag with
  | .input => .ok { o with input := some value }
  | .domains => .ok { o with domains := some value }
  | .output => .ok { o with output := some value }
  | .format =>
      match format? value with
      | some format => .ok { o with format }
      | .none => .error (.unknownFormat value)
  | .limit =>
      match number? value with
      | some limit => .ok { o with limit := some limit }
      | .none => .error (.invalidNumber arg value)
  | .threads =>
      match number? value with
      | some (threads + 1) => .ok { o with threads := some (threads + 1) }
      | _ => .error (.invalidNumber arg value)

/-- The options with one more flag that stands alone. -/
def switch? (o : Options) (arg : String) : Option Options :=
  if arg = "--reject-over-limit" then some { o with rejectOverLimit := true }
  else if arg = "-v" then some { o with verbosity := .info }
  else if arg = "-vv" then some { o with verbosity := .debug }
  else .none

/-- Reads the arguments on top of the options read so far; there are none once help is asked
for. -/
def read (o : Options) : List String → Except UsageError (Option Options)
  | [] => .ok (some o)
  | arg :: rest =>
      match Valued.ofArg? arg with
      | some flag =>
          match rest with
          | [] => .error (.missingValue arg)
          | value :: rest =>
              match o.set flag arg value with
              | .error e => .error e
              | .ok o => o.read rest
      | .none =>
          match o.switch? arg with
          | some o => o.read rest
          | .none =>
              if arg = "-h" ∨ arg = "--help" then .ok .none else .error (.unknownArgument arg)

/-- The job of the options, which have to name both inputs. -/
def job (o : Options) : Except UsageError Job :=
  match o.input, o.domains with
  | .none, _ => .error (.missingOption "--input")
  | some _, .none => .error (.missingOption "--domains")
  | some input, some domains =>
      .ok ⟨input, domains, o.output, o.format, o.limit, o.rejectOverLimit, o.threads, o.verbosity⟩

end Options

/-- What the arguments ask for. -/
def request (args : List String) : Except UsageError Request :=
  match Options.none.read args with
  | .error e => .error e
  | .ok .none => .ok .help
  | .ok (some o) => o.job.map Request.job

end TernaryRules.CommandLine
