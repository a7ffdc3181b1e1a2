import TernaryRules.Feature

/-!
# Nodes

The nodes of a decision tree refer to each other by position.
-/

namespace TernaryRules

/-- The position of a node. -/
abbrev NodeId := UInt32

/-- The class a leaf assigns. -/
abbrev Label := UInt32

/-- A test of one feature against a threshold. -/
structure Split where
  feature : FeatureId
  threshold : UInt64
deriving DecidableEq

/-- A value equal to the threshold goes left. -/
def Split.goesLeft (s : Split) (value : Nat) : Bool := decide (value ≤ s.threshold.toNat)

inductive Node where
  | split (condition : Split) (left right : NodeId)
  | leaf (label : Label)
deriving DecidableEq

namespace Node

def isLeaf : Node → Bool
  | leaf _ => true
  | split .. => false

def label? : Node → Option Label
  | leaf label => some label
  | split .. => none

def condition? : Node → Option Split
  | leaf _ => none
  | split condition .. => some condition

end Node

end TernaryRules
