import TernaryRules.Tree

/-!
# Leaf regions

The points that reach one leaf form a box: one interval for each feature. `extract` walks the tree
depth first, left before right, and narrows the interval of the tested feature at each split; at a
leaf the intervals are cut to the ranges that the features are declared with. A leaf whose box
comes out empty is unreachable.
-/

namespace TernaryRules

/-- The points that reach a leaf, with one interval for each feature of the table. -/
structure Region where
  leaf : NodeId
  label : Label
  intervals : List Interval
deriving DecidableEq

def Region.contains (r : Region) (point : List Nat) : Bool :=
  point.length == r.intervals.length && (r.intervals.zip point).all fun (i, v) => i.contains v

/-- The regions of the leaves that some point reaches, and the other leaves. -/
structure Extraction where
  regions : List Region
  unreachable : List NodeId
deriving DecidableEq

/-- A split that tests a feature the table does not declare. -/
structure UndeclaredFeature where
  node : NodeId
  feature : FeatureId
  declared : Nat
deriving DecidableEq, Repr

def UndeclaredFeature.message (e : UndeclaredFeature) : String :=
  s!"node {e.node} splits on feature {e.feature}, but only {e.declared} features are declared"

namespace Region

/-- The bounds met so far on the way from the root, or nothing once they have become empty. -/
abbrev Bounds := Option (List Interval)

/-- The bounds for the left and for the right child of a split. -/
def narrow (bounds : List Interval) (condition : Split) : Bounds × Bounds :=
  let feature := condition.feature.toNat
  match bounds[feature]? with
  | none => (none, none)
  | some current =>
      let threshold := condition.threshold.toNat
      ((current.upTo? threshold).map (bounds.set feature),
        (current.above? threshold).map (bounds.set feature))

/-- The bounds cut to the ranges of the features. -/
def close (features : List Feature) (bounds : List Interval) : Bounds :=
  (bounds.zip features).mapM fun (i, f) => i.inter? f.range

/-- Walks the nodes still to visit, each with its bounds, and collects the leaves in the order in
which they are met. -/
def collect (nodes : Array Node) (features : List Feature) :
    Nat → List (NodeId × Bounds) → Array Region → Array NodeId → Extraction
  | 0, _, regions, unreachable => ⟨regions.toList, unreachable.toList⟩
  | _, [], regions, unreachable => ⟨regions.toList, unreachable.toList⟩
  | steps + 1, (id, bounds) :: rest, regions, unreachable =>
      match nodes[id.toNat]? with
      | none => collect nodes features steps rest regions unreachable
      | some (.leaf label) =>
          match bounds.bind (close features) with
          | some intervals =>
              collect nodes features steps rest (regions.push ⟨id, label, intervals⟩) unreachable
          | none => collect nodes features steps rest regions (unreachable.push id)
      | some (.split condition left right) =>
          let (leftBounds, rightBounds) :=
            match bounds with
            | some bounds => narrow bounds condition
            | none => (none, none)
          collect nodes features steps ((left, leftBounds) :: (right, rightBounds) :: rest)
            regions unreachable

end Region

/-- The first split, by position, that tests a feature the table does not declare. -/
def undeclared? (tree : Tree) (table : FeatureTable) : Option UndeclaredFeature :=
  (tree.splits.find? fun (_, condition) => (table.get? condition.feature).isNone).map
    fun (node, condition) => ⟨node, condition.feature, table.size⟩

/-- The region of every leaf of the tree. -/
def extract (tree : Tree) (table : FeatureTable) : Except UndeclaredFeature Extraction :=
  match undeclared? tree table with
  | some e => .error e
  | none =>
      .ok (Region.collect tree.nodes table.features tree.size
        [(0, some (table.features.map fun f => f.field.whole))] #[] #[])

end TernaryRules
