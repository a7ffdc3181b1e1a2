import TernaryRules.Compile

/-!
# Progress of a compilation

What a compilation logs on its way, each message with the verbosity from which on it is shown. A
compilation that fails has logged what it did before.
-/

namespace TernaryRules

inductive Event where
  | started (nodes features : Nat)
  | unreachable (leaves : List NodeId)
  | overLimit (rules limit : Nat)
  | leafDone (leaf : NodeId) (rules : Nat)
  | finished (stats : Stats)
deriving DecidableEq

namespace Event

def level : Event → Verbosity
  | started .. => .info
  | unreachable _ => .debug
  | overLimit .. => .warning
  | leafDone .. => .debug
  | finished _ => .info

def text : Event → String
  | started nodes features => s!"compiling tree with {nodes} nodes over {features} features"
  | unreachable leaves =>
      s!"debug: unreachable leaves (no rules): {Numeral.bracketed (leaves.map UInt32.toNat)}"
  | overLimit rules limit => s!"warning: {rules} rules exceed the configured limit of {limit}"
  | leafDone leaf rules => s!"debug: leaf {leaf}: {rules} rules"
  | finished stats =>
      s!"emitted {stats.rules} rules for {stats.regions} leaves ({stats.unreachable} unreachable)"

/-- The message as a line of a log. -/
def line (e : Event) : String := s!"[dtree-tcam] {e.text}\n"

end Event

/-- What is logged between the plan and the rules. -/
def Plan.events (p : Plan) (s : Settings) : List Event :=
  (if p.unreachable.isEmpty then [] else [.unreachable p.unreachable]) ++
    match s.ruleLimit, s.limitAction with
    | some limit, .warn => if limit < p.stats.rules then [.overLimit p.stats.rules limit] else []
    | _, _ => []

/-- What a compilation logs, shown or not. -/
def events (s : Settings) (tree : Tree) (table : FeatureTable) : List Event :=
  .started tree.size table.size ::
    match plan s tree table with
    | .error _ => []
    | .ok p =>
        p.events s ++
          match compile s tree table with
          | .error _ => []
          | .ok output =>
              (p.regions.zip p.counts).map (fun (r, count) => .leafDone r.leaf count) ++
                [.finished output.stats]

/-- The lines of the log that the settings show. -/
def logText (s : Settings) (tree : Tree) (table : FeatureTable) : String :=
  String.join (((events s tree table).filter fun e => s.verbosity.shows e.level).map Event.line)

end TernaryRules
