import TernaryRules.Tree
import TernaryRules.Double.Shortest

/-!
# Fitted classifiers

A fitted scikit-learn classifier keeps its tree in parallel arrays, one entry for each node. A node
whose two children are equal is a leaf. Thresholds are real numbers, but features are whole ones,
so a threshold stands for the largest whole number up to it. A leaf assigns the class with the
largest count, the first of several.
-/

namespace TernaryRules

/-- The arrays of a fitted classifier. The counts of a node come in one list for each output, of
which only the first is used. -/
structure Fitted where
  childrenLeft : List Int
  childrenRight : List Int
  feature : List Int
  threshold : List Double
  value : List (List (List Double))
  classes : List Double
deriving DecidableEq

/-- Why a fitted classifier is no decision tree. -/
inductive FittedError where
  | noNodes
  | lengthMismatch (array : String) (length expected : Nat)
  | invalidChild (node : Nat) (child : Int) (nodes : Nat)
  | invalidFeature (node : Nat) (feature : Int)
  | invalidThreshold (node : Nat) (threshold : Double)
  | noCounts (node : Nat)
  | countMismatch (node counts classes : Nat)
  | invalidClass (value : Double)
  | malformed (e : TreeError)
deriving DecidableEq

def FittedError.message : FittedError → String
  | noNodes => "model has no nodes"
  | lengthMismatch array length expected =>
      s!"array `{array}` has {length} entries, expected {expected}"
  | invalidChild node child nodes =>
      s!"invalid node index: node {node} references child {child} but tree has {nodes} nodes"
  | invalidFeature node feature => s!"node {node} splits on invalid feature index {feature}"
  | invalidThreshold node threshold =>
      s!"node {node} has threshold {threshold.text Double.plain}, " ++
        "which is not a non-negative integer-domain value"
  | noCounts node => s!"leaf {node} has no class counts"
  | countMismatch node counts classes =>
      s!"leaf {node} has {counts} class counts but the model has {classes} classes"
  | invalidClass value =>
      s!"class value {value.text Double.plain} is not a label in 0..=u32::MAX"
  | malformed e => e.message

namespace Fitted

/-- The entries of one node. -/
structure Row where
  left : Int
  right : Int
  feature : Int
  threshold : Double
  value : List (List Double)

/-- The first array whose length is not that of the first one. -/
def checkLengths (m : Fitted) : Except FittedError Unit :=
  let expected := m.childrenLeft.length
  let lengths := [("children_right", m.childrenRight.length), ("feature", m.feature.length),
    ("threshold", m.threshold.length), ("value", m.value.length)]
  match lengths.find? fun (_, length) => length != expected with
  | some (array, length) => .error (.lengthMismatch array length expected)
  | none => .ok ()

/-- The rows of the arrays, as far as all of them reach. -/
def rows (m : Fitted) : List Row :=
  (m.childrenLeft.zip (m.childrenRight.zip (m.feature.zip (m.threshold.zip m.value)))).map
    fun (left, right, feature, threshold, value) => ⟨left, right, feature, threshold, value⟩

/-- The class that a number names. -/
def label (value : Double) : Except FittedError Label :=
  match value.units? with
  | none => .error (.invalidClass value)
  | some units =>
      if 0 ≤ units ∧ units ≤ 4294967295 * Double.one ∧ units % Double.one = 0 then
        .ok (units / Double.one).toNat.toUInt32
      else .error (.invalidClass value)

/-- The position of a child. -/
def child (nodes node : Nat) (id : Int) : Except FittedError NodeId :=
  if 0 ≤ id ∧ id < nodes then .ok id.toNat.toUInt32 else .error (.invalidChild node id nodes)

/-- The number of a feature. -/
def featureId (node : Nat) (id : Int) : Except FittedError FeatureId :=
  if 0 ≤ id ∧ id < 2 ^ 32 then .ok id.toNat.toUInt32 else .error (.invalidFeature node id)

/-- The largest whole number up to a threshold, which must be a key or lie just above one. -/
def wholeThreshold (node : Nat) (threshold : Double) : Except FittedError UInt64 :=
  match threshold.units? with
  | none => .error (.invalidThreshold node threshold)
  | some units =>
      if 0 ≤ units ∧ units < 2 ^ 64 * Double.one then
        .ok (units / Double.one).toNat.toUInt64
      else .error (.invalidThreshold node threshold)

/-- The class with the largest count, the first of several; the given one unless another has
more. -/
def majority (best : Double × Label) : List (Double × Label) → Label
  | [] => best.2
  | next :: rest => majority (if best.1.lt next.1 then next else best) rest

/-- The class of a leaf. -/
def leafLabel (labels : List Label) (node : Nat) (value : List (List Double)) :
    Except FittedError Label :=
  match value with
  | [] | [] :: _ => .error (.noCounts node)
  | counts :: _ =>
      if counts.length = labels.length then
        match counts.zip labels with
        | [] => .error (.noCounts node)
        | first :: rest => .ok (majority first rest)
      else .error (.countMismatch node counts.length labels.length)

/-- The node of a row. -/
def node (labels : List Label) (nodes id : Nat) (r : Row) : Except FittedError Node := do
  if r.left = r.right then
    return .leaf (← leafLabel labels id r.value)
  else
    let left ← child nodes id r.left
    let right ← child nodes id r.right
    let feature ← featureId id r.feature
    let threshold ← wholeThreshold id r.threshold
    return .split ⟨feature, threshold⟩ left right

/-- The number of nodes. -/
def size (m : Fitted) : Nat := m.childrenLeft.length

/-- The decision tree with the same positions of nodes. -/
def tree (m : Fitted) : Except FittedError Tree := do
  if m.size = 0 then throw .noNodes
  m.checkLengths
  let labels ← m.classes.mapM label
  let nodes ← m.rows.zipIdx.mapM fun (r, id) => node labels m.size id r
  (Tree.ofNodes nodes.toArray).mapError .malformed

end Fitted

end TernaryRules
