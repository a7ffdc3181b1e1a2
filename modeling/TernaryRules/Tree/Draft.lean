import TernaryRules.Tree

/-!
# Drafts of trees

A draft is a tree under construction. Nodes are numbered in the order in which they are added;
a node may refer to others that are still to come, and may be replaced.
-/

namespace TernaryRules

structure Draft where
  nodes : Array Node

/-- More room was asked for than any memory has. -/
inductive DraftError where
  | noRoom
deriving DecidableEq, Repr

def DraftError.message : DraftError → String
  | noRoom => "capacity overflow"

namespace Draft

def empty : Draft := ⟨#[]⟩

/-- The number of bytes that room for a node takes. -/
def nodeBytes : Nat := 32

/-- The largest number of bytes of a memory. -/
def maxBytes : Nat := 2 ^ 63 - 1

/-- An empty draft with room for a number of nodes. -/
def withRoom (nodes : Nat) : Except DraftError Draft :=
  if nodes * nodeBytes ≤ maxBytes then .ok empty else .error .noRoom

def size (d : Draft) : Nat := d.nodes.size

/-- The draft with one more node, and the position of that node. -/
def add (d : Draft) (node : Node) : Draft × NodeId := (⟨d.nodes.push node⟩, d.size.toUInt32)

/-- Room for a node that is to be set later; it counts as a leaf of class 0 until then. -/
def reserve (d : Draft) : Draft × NodeId := d.add (.leaf 0)

/-- The draft with another node at a position it has. -/
def set (d : Draft) (id : NodeId) (node : Node) : Except OutOfRange Draft :=
  if h : id.toNat < d.nodes.size then .ok ⟨d.nodes.set id.toNat node⟩
  else .error ⟨d.size, id.toNat⟩

/-- The tree that the nodes form. -/
def build (d : Draft) : Except TreeError Tree := Tree.ofNodes d.nodes

end Draft

end TernaryRules
