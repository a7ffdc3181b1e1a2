import TernaryRules.Tree.Node

/-!
# Validation of node lists

A list of nodes is a tree when the walk from node 0 meets every node exactly once. The walk keeps
a mark on every node: *fresh* until it is met, *active* while it lies on the path from the root,
*done* once all below it has been walked. Meeting an active node again closes a cycle, meeting a
node that is done shows a second way to it.
-/

namespace TernaryRules

inductive Side where
  | left
  | right
deriving DecidableEq, Repr

def Side.text : Side → String
  | left => "left"
  | right => "right"

/-- Why a list of nodes is no tree. -/
inductive TreeError where
  | noNodes
  | childOutOfBounds (node : NodeId) (side : Side) (child : NodeId) (size : Nat)
  | selfLoop (node : NodeId)
  | secondPath (node : NodeId)
  | cycle (node : NodeId)
  | unreachable (node : NodeId)
deriving DecidableEq, Repr

namespace TreeError

def message : TreeError → String
  | noNodes => "tree has no nodes"
  | childOutOfBounds node side child size =>
      s!"node {node} has {side.text} child {child}, but the tree has {size} nodes"
  | selfLoop node => s!"node {node} references itself as a child"
  | secondPath node => s!"node {node} is reachable by more than one path"
  | cycle node => s!"cycle detected at node {node}"
  | unreachable node => s!"node {node} is not reachable from the root"

end TreeError

namespace Validation

inductive Mark where
  | fresh
  | active
  | done
deriving DecidableEq

/-- What is left to do: meet a node, or leave it after all below it. -/
inductive Visit (n : Nat) where
  | enter (id : Fin n)
  | leave (id : Fin n)

variable (nodes : Array Node)

/-- The visits that follow a node: left child first, then right child. -/
def children (id : Fin nodes.size) : Except TreeError (List (Visit nodes.size)) :=
  match getElem nodes id id.isLt with
  | .leaf _ => .ok []
  | .split _ left right =>
      let node := id.val.toUInt32
      if left = node ∨ right = node then .error (.selfLoop node)
      else if hl : left.toNat < nodes.size then
        if hr : right.toNat < nodes.size then
          .ok [.enter ⟨left.toNat, hl⟩, .enter ⟨right.toNat, hr⟩]
        else .error (.childOutOfBounds node .right right nodes.size)
      else .error (.childOutOfBounds node .left left nodes.size)

theorem length_children_le {id : Fin nodes.size} {next : List (Visit nodes.size)}
    (h : children nodes id = .ok next) : next.length ≤ 2 := by
  unfold children at h
  split at h
  · cases h; simp
  · simp only at h
    split at h
    · cases h
    · split at h
      · split at h <;> cases h
        simp
      · cases h

/-- The number of nodes not met so far. -/
def unmet {n : Nat} (marks : Vector Mark n) : Nat := marks.countP (· == .fresh)

theorem unmet_set_active {n : Nat} {marks : Vector Mark n} {id : Fin n}
    (h : marks[id] = .fresh) : unmet (marks.set id .active) + 1 = unmet marks := by
  have hpos : 0 < unmet marks :=
    Vector.countP_pos_iff.2 ⟨marks[id], Vector.getElem_mem id.isLt, by simp [h]⟩
  have h' : marks[id.val] = .fresh := h
  simp only [unmet, Vector.countP_set id.isLt, h']
  simp only [unmet] at hpos
  simp
  omega

theorem unmet_set_done_le {n : Nat} (marks : Vector Mark n) (id : Fin n) :
    unmet (marks.set id .done) ≤ unmet marks := by
  simp only [unmet, Vector.countP_set id.isLt]
  simp

/-- Carries out the visits in order, starting from the given marks. -/
def walk (marks : Vector Mark nodes.size) :
    List (Visit nodes.size) → Except TreeError (Vector Mark nodes.size)
  | [] => .ok marks
  | .leave id :: rest =>
      have := unmet_set_done_le marks id
      walk (marks.set id .done id.isLt) rest
  | .enter id :: rest =>
      match h : getElem marks id id.isLt with
      | .active => .error (.cycle id.val.toUInt32)
      | .done => .error (.secondPath id.val.toUInt32)
      | .fresh =>
          match hc : children nodes id with
          | .error e => .error e
          | .ok next =>
              have := unmet_set_active h
              have := length_children_le nodes hc
              walk (marks.set id .active id.isLt) (next ++ .leave id :: rest)
termination_by visits => 3 * unmet marks + visits.length
decreasing_by all_goals simp only [List.length_cons, List.length_append]; omega

end Validation

/-- Whether the nodes form one tree with root 0: the first defect met, if not. -/
def validate (nodes : Array Node) : Except TreeError Unit :=
  if h : 0 < nodes.size then
    match Validation.walk nodes (Vector.replicate nodes.size .fresh) [.enter ⟨0, h⟩] with
    | .error e => .error e
    | .ok marks =>
        match marks.toArray.findIdx? (· == .fresh) with
        | some id => .error (.unreachable id.toUInt32)
        | none => .ok ()
  else .error .noNodes

end TernaryRules
