import TernaryRules.Lookup
import TernaryRules.Tree.Validation

/-!
# Decision trees

A decision tree is a list of nodes that has been found to be a tree with root 0. All walks below
follow the positions of the nodes and meet each node at most once, so none takes more steps than
there are nodes.
-/

namespace TernaryRules

/-- A decision tree with root 0. -/
structure Tree where
  nodes : Array Node
  valid : validate nodes = .ok ()

namespace Tree

def ofNodes (nodes : Array Node) : Except TreeError Tree :=
  match h : validate nodes with
  | .ok () => .ok ⟨nodes, h⟩
  | .error e => .error e

def size (t : Tree) : Nat := t.nodes.size

def node? (t : Tree) (id : NodeId) : Option Node := t.nodes[id.toNat]?

def nodeAt (t : Tree) (id : NodeId) : Except OutOfRange Node := itemAt t.nodes.toList id.toNat

def leafCount (t : Tree) : Nat := t.nodes.countP Node.isLeaf

/-- The tests of the tree with the positions of their nodes, in order of position. -/
def splits (t : Tree) : List (NodeId × Split) :=
  t.nodes.toList.zipIdx.filterMap fun (node, id) =>
    node.condition?.map fun condition => (id.toUInt32, condition)

/-- The deepest level met on the way through the nodes still to visit, each with its level. -/
def deepest (nodes : Array Node) : Nat → List (NodeId × Nat) → Nat → Nat
  | 0, _, best => best
  | _, [], best => best
  | steps + 1, (id, level) :: rest, best =>
      match nodes[id.toNat]? with
      | some (.split _ left right) =>
          deepest nodes steps ((left, level + 1) :: (right, level + 1) :: rest) best
      | some (.leaf _) => deepest nodes steps rest (max best level)
      | none => deepest nodes steps rest best

/-- The length of the longest way from the root to a leaf. -/
def depth (t : Tree) : Nat := deepest t.nodes t.size [(0, 0)] 0

/-- Follows the tests from a node to a leaf; there is no leaf when the point lacks a coordinate
that is tested. -/
def descend (nodes : Array Node) (point : List Nat) : Nat → NodeId → Option NodeId
  | 0, _ => none
  | steps + 1, id =>
      match nodes[id.toNat]? with
      | none => none
      | some (.leaf _) => some id
      | some (.split condition left right) =>
          match point[condition.feature.toNat]? with
          | none => none
          | some value =>
              descend nodes point steps (if condition.goesLeft value then left else right)

/-- The leaf a point reaches. -/
def leafFor (t : Tree) (point : List Nat) : Option NodeId := descend t.nodes point t.size 0

/-- The class of a point. -/
def evaluate (t : Tree) (point : List Nat) : Option Label :=
  (t.leafFor point).bind fun leaf => (t.node? leaf).bind Node.label?

end Tree

end TernaryRules
