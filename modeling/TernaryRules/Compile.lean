import TernaryRules.Rule.Expansion
import TernaryRules.Settings

/-!
# Compilation

`plan` checks the tree once more, finds its regions and the number of rules of each; `compile`
expands the regions in the order of the plan and numbers the rules. Counts above `maxKey` are
planned as `maxKey`.
-/

namespace TernaryRules

/-- The sizes of a compilation. -/
structure Stats where
  leaves : Nat
  regions : Nat
  unreachable : Nat
  rules : Nat
  maxRulesPerLeaf : Nat
  overLimit : Bool
deriving DecidableEq, Repr

/-- The regions with the number of rules of each. -/
structure Plan where
  regions : List Region
  counts : List Nat
  unreachable : List NodeId
  stats : Stats
deriving DecidableEq

/-- The rules in order. -/
structure Output where
  rules : List Rule
  stats : Stats
  unreachable : List NodeId
deriving DecidableEq

/-- Why a compilation fails. -/
inductive CompileError where
  | undeclared (e : UndeclaredFeature)
  | domain (e : DomainError)
  | expansion (e : ExpansionError)
  | malformed (e : TreeError)
  | miscount (leaf : NodeId) (rules expected : Nat)
  | overLimit (rules limit : Nat)
  | priorityOverflow (rules base : Nat)
deriving DecidableEq

def CompileError.message : CompileError → String
  | undeclared e => e.message
  | domain e => e.message
  | expansion e => e.message
  | malformed e => s!"malformed tree: {e.message}"
  | miscount leaf rules expected =>
      s!"internal invariant violated: leaf {leaf} expanded to {rules} rules, expected {expected}"
  | overLimit rules limit =>
      s!"compilation produces {rules} rules, above the configured limit of {limit}"
  | priorityOverflow rules base =>
      s!"priority range overflows: {rules} rules starting at priority {base}"

/-- The sum of the counts, clamped after each step. -/
def clampedSum (counts : List Nat) : Nat := counts.foldl (fun total n => clamp (total + n)) 0

namespace Settings

def exceeds (s : Settings) (rules : Nat) : Bool :=
  match s.ruleLimit with
  | none => false
  | some limit => decide (limit < rules)

/-- Refuses more rules than the limit, where the settings ask for it. -/
def checkLimit (s : Settings) (rules : Nat) : Except CompileError Unit :=
  match s.ruleLimit, s.limitAction with
  | some limit, .reject => if limit < rules then .error (.overLimit rules limit) else .ok ()
  | _, _ => .ok ()

/-- Refuses a number of rules whose priorities would run past `maxKey`. -/
def checkPriorities (s : Settings) (rules : Nat) : Except CompileError Unit :=
  if 0 < rules ∧ maxKey < s.priorityBase + (rules - 1) then
    .error (.priorityOverflow rules s.priorityBase)
  else .ok ()

/-- The priority of the rule at a position, out of the number of rules planned. -/
def priority (s : Settings) (rules position : Nat) : Nat :=
  match s.priorityOrder with
  | .ascending => s.priorityBase + position
  | .descending => s.priorityBase + (rules - 1 - position)

end Settings

/-- Checks the tree, finds the regions and counts their rules. -/
def plan (s : Settings) (tree : Tree) (table : FeatureTable) : Except CompileError Plan := do
  (validate tree.nodes).mapError CompileError.malformed
  let extraction ← (extract tree table).mapError CompileError.undeclared
  let counts ← (extraction.regions.mapM (Region.countRules · table)).mapError CompileError.domain
  let rules := clampedSum counts
  return {
    regions := extraction.regions
    counts
    unreachable := extraction.unreachable
    stats := {
      leaves := tree.leafCount
      regions := extraction.regions.length
      unreachable := extraction.unreachable.length
      rules
      maxRulesPerLeaf := counts.foldl max 0
      overLimit := s.exceeds rules } }

/-- Expands a region and compares the number of rules with the one planned. -/
def expandPlanned (table : FeatureTable) (region : Region) (count : Nat) :
    Except CompileError (List RuleBody) :=
  match region.expand table with
  | .error e => .error (.expansion e)
  | .ok bodies =>
      if bodies.length = count then .ok bodies
      else .error (.miscount region.leaf bodies.length count)

/-- Gives the rules their priorities, by position. -/
def number (s : Settings) (rules : Nat) (bodies : List RuleBody) : List Rule :=
  bodies.zipIdx.map fun (body, position) =>
    ⟨body.blocks, body.label, s.priority rules position⟩

/-- Compiles a tree to rules, region by region. -/
def compile (s : Settings) (tree : Tree) (table : FeatureTable) : Except CompileError Output := do
  let p ← plan s tree table
  s.checkLimit p.stats.rules
  s.checkPriorities p.stats.rules
  let bodies ← (p.regions.zip p.counts).mapM fun (region, count) =>
    expandPlanned table region count
  return { rules := number s p.stats.rules bodies.flatten, stats := p.stats,
           unreachable := p.unreachable }

end TernaryRules
