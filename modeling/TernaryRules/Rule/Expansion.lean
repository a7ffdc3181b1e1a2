import TernaryRules.Rule
import TernaryRules.Odometer

/-!
# Expansion of regions

The interval of each feature is covered by blocks on its own, and each way to choose one block
for each feature is a rule. So the number of rules is the product of the numbers of blocks, which
`countRules` finds without making the rules.
-/

namespace TernaryRules

/-- Why a region is not expanded. Broken covers are defects of the cover itself: the checks that
report them guard the rules against it. -/
inductive ExpansionError where
  | domain (e : DomainError)
  | gap (feature : Nat) (block : Block) (interval : Interval)
  | shortCover (feature : Nat) (last : Option Nat) (interval : Interval)
deriving DecidableEq

def ExpansionError.message : ExpansionError → String
  | domain e => e.message
  | gap feature block interval =>
      s!"internal invariant violated: feature {feature}: block {block.text} does not continue " ++
        s!"the cover of {interval.text}"
  | shortCover feature last interval =>
      let ending := match last with
        | some n => s!"Some({n})"
        | none => "None"
      s!"internal invariant violated: feature {feature}: blocks end at {ending}, " ++
        s!"interval {interval.text} is not covered exactly"

namespace Region

/-- The number of rules of a region, clamped. -/
def countRules (r : Region) (table : FeatureTable) : Except DomainError Nat :=
  (r.intervals.zip table.features).foldlM (fun count (i, f) =>
    (blockCount f.field i.lo i.hi).map fun blocks => clamp (count * blocks)) 1

/-- Each block starts just above the one before it, the first at `expected`. -/
def checkChain (feature : Nat) (interval : Interval) :
    Nat → List Block → Except ExpansionError Unit
  | _, [] => .ok ()
  | expected, b :: rest =>
      if b.first = expected then checkChain feature interval (b.last + 1) rest
      else .error (.gap feature b interval)

/-- The blocks cover the interval, one after the other. -/
def checkCover (feature : Nat) (interval : Interval) (blocks : List Block) :
    Except ExpansionError Unit :=
  match checkChain feature interval interval.lo blocks with
  | .error e => .error e
  | .ok () =>
      let last := blocks.getLast?.map Block.last
      if last = some interval.hi then .ok () else .error (.shortCover feature last interval)

/-- The checked cover of the interval of one feature. -/
def coverOf (feature : Nat) (interval : Interval) (field : Field) :
    Except ExpansionError (List Block) :=
  match interval.blocks field with
  | .error e => .error (.domain e)
  | .ok blocks => (checkCover feature interval blocks).map fun () => blocks

/-- The covers of the intervals of a region, one for each feature. -/
def covers (r : Region) (table : FeatureTable) : Except ExpansionError (List (List Block)) :=
  (r.intervals.zip table.features).zipIdx.mapM fun ((i, f), feature) => coverOf feature i f.field

/-- The rules of a region; the block of the first feature changes slowest. -/
def expand (r : Region) (table : FeatureTable) : Except ExpansionError (List RuleBody) :=
  (r.covers table).map fun lists => (Odometer.choices lists).map fun blocks => ⟨blocks, r.label⟩

end Region

end TernaryRules
