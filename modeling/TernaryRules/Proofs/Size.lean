import Mathlib.Order.Bounds.Defs
import TernaryRules.Proofs.Census
import TernaryRules.Proofs.Evaluation

/-!
# The size of a tree

A split has two subtrees in its place, so a shape has one leaf more than splits
(`Shape.length_ids_add_one`), its height is below the number of its leaves
(`Shape.height_lt_length_leaves`), and a height of `h` leaves room for `2 ^ h` leaves
(`Shape.length_leaves_le`).  The counts of a tree are taken by position, over the list of its nodes,
and they are those of its shape, which holds each position once.

`DepthSearch` is the search for the deepest level with nothing that bounds its steps.  With the root
of a shape on top it goes through the shape in one step for each node and then on to the rest
(`Shape.StoredIn.depthSearch_iff`), so it ends, and it never looks for a node that is not there.
The main statement is `tree_sizes`.
-/

namespace TernaryRules

/-! ### Leaves and height of a shape -/

namespace Shape

theorem length_ids_add_one : ∀ s : Shape, s.ids.length + 1 = 2 * s.leaves.length
  | .leaf _ _ => rfl
  | .split _ _ left right => by
      have hl := left.length_ids_add_one
      have hr := right.length_ids_add_one
      simp only [ids, leaves, List.length_cons, List.length_append]
      omega

theorem height_lt_length_leaves : ∀ s : Shape, s.height < s.leaves.length
  | .leaf _ _ => Nat.zero_lt_one
  | .split _ _ left right => by
      have hl := left.height_lt_length_leaves
      have hr := right.height_lt_length_leaves
      simp only [height, leaves, List.length_append]
      omega

theorem length_leaves_le : ∀ s : Shape, s.leaves.length ≤ 2 ^ s.height
  | .leaf _ _ => Nat.le_refl _
  | .split _ _ left right => by
      -- both subtrees have room for as many leaves as the higher one
      have hl : 2 ^ left.height ≤ 2 ^ max left.height right.height :=
        Nat.pow_le_pow_right Nat.two_pos (Nat.le_max_left _ _)
      have hr : 2 ^ right.height ≤ 2 ^ max left.height right.height :=
        Nat.pow_le_pow_right Nat.two_pos (Nat.le_max_right _ _)
      rw [leaves, height, List.length_append, Nat.pow_succ, Nat.mul_two]
      exact Nat.add_le_add (left.length_leaves_le.trans hl) (right.length_leaves_le.trans hr)

end Shape

/-! ### The longest way to a leaf -/

/-- The lengths of the ways from node 0 to the leaves. -/
def Tree.leafLevels (t : Tree) : Set Nat :=
  { n | ∃ turns leaf label, follow t.nodes turns 0 = some leaf ∧
    t.node? leaf = some (.leaf label) ∧ turns.length = n }

variable {nodes : Array Node}

namespace Shape

theorem StoredIn.length_turns_le {stop : NodeId} : ∀ {s : Shape} {turns : List Side},
    s.StoredIn nodes → follow nodes turns s.root = some stop → turns.length ≤ s.height
  | .leaf id label, turns, h, hf => by
      obtain ⟨rfl, -⟩ := h.follow_leaf_eq_some_iff.1 hf
      exact Nat.le_refl _
  | .split id condition left right, turns, h, hf => by
      rcases h.follow_eq_some_iff.1 hf with ⟨rfl, -⟩ | ⟨rest, rfl, hrest⟩ | ⟨rest, rfl, hrest⟩
      · exact Nat.zero_le _
      · have hlen := h.2.1.length_turns_le hrest
        exact Nat.succ_le_succ (hlen.trans (Nat.le_max_left _ _))
      · have hlen := h.2.2.length_turns_le hrest
        exact Nat.succ_le_succ (hlen.trans (Nat.le_max_right _ _))

/-- Turning to the higher subtree at each split leads to a leaf at the full height. -/
theorem StoredIn.exists_longest : ∀ {s : Shape}, s.StoredIn nodes →
    ∃ turns leaf label, follow nodes turns s.root = some leaf ∧
      nodes[leaf.toNat]? = some (.leaf label) ∧ turns.length = s.height
  | .leaf id label, h => ⟨[], id, label, rfl, h, rfl⟩
  | .split id condition left right, h => by
      rcases Nat.le_total right.height left.height with hle | hle
      · obtain ⟨turns, leaf, label, hf, hn, hlen⟩ := h.2.1.exists_longest
        refine ⟨.left :: turns, leaf, label, ?_, hn, ?_⟩
        · exact h.follow_eq_some_iff.2 (.inr (.inl ⟨turns, rfl, hf⟩))
        · rw [List.length_cons, hlen, height, Nat.max_eq_left hle]
      · obtain ⟨turns, leaf, label, hf, hn, hlen⟩ := h.2.2.exists_longest
        refine ⟨.right :: turns, leaf, label, ?_, hn, ?_⟩
        · exact h.follow_eq_some_iff.2 (.inr (.inr ⟨turns, rfl, hf⟩))
        · rw [List.length_cons, hlen, height, Nat.max_eq_right hle]

/-- The farthest leaf is as far away as the shape is high. -/
theorem Fills.isGreatest_height {s : Shape} {t : Tree} (h : s.Fills t.nodes) :
    IsGreatest t.leafLevels s.height := by
  constructor
  · obtain ⟨turns, leaf, label, hf, hn, hlen⟩ := h.stored.exists_longest
    exact ⟨turns, leaf, label, h.root_eq ▸ hf, hn, hlen⟩
  · rintro n ⟨turns, leaf, label, hf, -, rfl⟩
    exact h.stored.length_turns_le (h.root_eq ▸ hf)

end Shape

/-! ### The search for the deepest level -/

/-- The search through the nodes still to visit, each with its level: the number of its steps, the
deepest level of a leaf before and after.  It goes on only from nodes of the list. -/
inductive DepthSearch (nodes : Array Node) : Nat → List (NodeId × Nat) → Nat → Nat → Prop
  | done (best : Nat) : DepthSearch nodes 0 [] best best
  | leaf {id : NodeId} {label : Label} {level steps best deepest : Nat}
      {rest : List (NodeId × Nat)} :
      nodes[id.toNat]? = some (.leaf label) →
        DepthSearch nodes steps rest (max best level) deepest →
          DepthSearch nodes (steps + 1) ((id, level) :: rest) best deepest
  | split {id left right : NodeId} {condition : Split} {level steps best deepest : Nat}
      {rest : List (NodeId × Nat)} :
      nodes[id.toNat]? = some (.split condition left right) →
        DepthSearch nodes steps ((left, level + 1) :: (right, level + 1) :: rest) best deepest →
          DepthSearch nodes (steps + 1) ((id, level) :: rest) best deepest

variable {id : NodeId} {level steps best deepest : Nat} {rest : List (NodeId × Nat)}

theorem depthSearch_nil_iff :
    DepthSearch nodes steps [] best deepest ↔ steps = 0 ∧ deepest = best := by
  constructor
  · intro h
    cases h with
    | done => exact ⟨rfl, rfl⟩
  · rintro ⟨rfl, rfl⟩
    exact .done deepest

theorem depthSearch_leaf_iff {label : Label} (hn : nodes[id.toNat]? = some (.leaf label)) :
    DepthSearch nodes steps ((id, level) :: rest) best deepest ↔
      ∃ more, steps = more + 1 ∧ DepthSearch nodes more rest (max best level) deepest := by
  constructor
  · intro h
    cases h with
    | leaf _ h => exact ⟨_, rfl, h⟩
    | split hn' _ => cases hn.symm.trans hn'
  · rintro ⟨more, rfl, h⟩
    exact .leaf hn h

theorem depthSearch_split_iff {left right : NodeId} {condition : Split}
    (hn : nodes[id.toNat]? = some (.split condition left right)) :
    DepthSearch nodes steps ((id, level) :: rest) best deepest ↔
      ∃ more, steps = more + 1 ∧
        DepthSearch nodes more ((left, level + 1) :: (right, level + 1) :: rest) best deepest := by
  constructor
  · intro h
    cases h with
    | leaf hn' _ => cases hn.symm.trans hn'
    | split hn' h =>
        cases hn.symm.trans hn'
        exact ⟨_, rfl, h⟩
  · rintro ⟨more, rfl, h⟩
    exact .split hn h

/-- With the root of a shape on top, the search takes one step for each node of the shape, finds the
leaf farthest down, and goes on with the rest. -/
theorem Shape.StoredIn.depthSearch_iff : ∀ {s : Shape} {level steps best : Nat}
    {rest : List (NodeId × Nat)}, s.StoredIn nodes →
      (DepthSearch nodes steps ((s.root, level) :: rest) best deepest ↔
        ∃ more, steps = more + s.ids.length ∧
          DepthSearch nodes more rest (max best (level + s.height)) deepest)
  | .leaf id label, level, steps, best, rest, hn => depthSearch_leaf_iff hn
  | .split id condition left right, level, steps, best, rest, ⟨hn, hl, hr⟩ => by
      have hheight : max (max best (level + 1 + left.height)) (level + 1 + right.height) =
          max best (level + (split id condition left right).height) := by
        rw [Nat.max_assoc, height, Nat.add_max_add_left, Nat.add_right_comm, Nat.add_assoc]
      simp only [root_split, depthSearch_split_iff hn, hl.depthSearch_iff, hr.depthSearch_iff,
        hheight, ids, List.length_cons, List.length_append]
      constructor
      · rintro ⟨_, rfl, _, rfl, more, rfl, h⟩
        exact ⟨more, by omega, h⟩
      · rintro ⟨more, rfl, h⟩
        exact ⟨_, by omega, _, rfl, more, rfl, h⟩

/-- The search of a tree ends after one step for each node, with the depth. -/
theorem Tree.depthSearch_iff {t : Tree} :
    DepthSearch t.nodes steps [(0, 0)] 0 deepest ↔ steps = t.size ∧ deepest = t.depth := by
  obtain ⟨s, hs⟩ := t.exists_shape
  rw [← hs.root_eq, hs.stored.depthSearch_iff, hs.length_ids, hs.depth_eq]
  simp only [depthSearch_nil_iff, Nat.zero_add, Nat.zero_max]
  constructor
  · rintro ⟨more, rfl, rfl, rfl⟩
    exact ⟨Nat.zero_add _, rfl⟩
  · rintro ⟨rfl, rfl⟩
    exact ⟨0, (Nat.zero_add _).symm, rfl, rfl⟩

/-! ### The counts of a tree -/

theorem Node.isSome_condition? : ∀ node : Node, node.condition?.isSome = !node.isLeaf
  | .leaf _ => rfl
  | .split _ _ _ => rfl

/-- The scan for the splits lists a node for each one that is no leaf. -/
theorem Tree.length_splits (t : Tree) :
    t.splits.length = t.nodes.toList.countP fun node => !node.isLeaf :=
  calc t.splits.length
    _ = t.nodes.toList.zipIdx.countP fun entry => !entry.1.isLeaf := by
      simp [splits, List.length_filterMap_eq_countP, Node.isSome_condition?]
    _ = (t.nodes.toList.zipIdx.map Prod.fst).countP fun node => !node.isLeaf := by
      rw [List.countP_map]
      rfl
    _ = t.nodes.toList.countP fun node => !node.isLeaf := by rw [List.zipIdx_map_fst]

theorem Tree.length_splits_add_leafCount (t : Tree) :
    t.splits.length + t.leafCount = t.size := by
  rw [t.length_splits, leafCount, ← Array.countP_toList, Nat.add_comm, size, ← Array.length_toList,
    List.length_eq_countP_add_countP Node.isLeaf]
  simp

/-- **The size of a tree is tied to its leaves and its depth.**  There is one split less than there
are leaves.  The search for the depth ends, after one step for each node, with the height of the
tree, which is the length of the longest way to a leaf.  The depth is below the number of leaves,
and there are no more leaves than a full tree of that depth has. -/
theorem tree_sizes (t : Tree) :
    (t.splits.length + 1 = t.leafCount ∧ t.size + 1 = 2 * t.leafCount) ∧
    (∀ steps deepest, DepthSearch t.nodes steps [(0, 0)] 0 deepest ↔
      steps = t.size ∧ deepest = t.depth) ∧
    (∃ s : Shape, s.Fills t.nodes ∧ t.depth = s.height) ∧
    IsGreatest t.leafLevels t.depth ∧
    t.depth + 1 ≤ t.leafCount ∧ t.leafCount ≤ 2 ^ t.depth := by
  obtain ⟨s, hs⟩ := t.exists_shape
  have hleaves : t.leafCount = s.leaves.length := Tree.leafCount_eq hs
  have hdepth : t.depth = s.height := hs.depth_eq
  have hsize : t.size + 1 = 2 * t.leafCount := by
    rw [hleaves, ← s.length_ids_add_one, hs.length_ids, Tree.size]
  have hscan := t.length_splits_add_leafCount
  refine ⟨⟨by omega, hsize⟩, fun _ _ => Tree.depthSearch_iff, ⟨s, hs, hdepth⟩, ?_, ?_, ?_⟩
  · exact hdepth ▸ hs.isGreatest_height
  · rw [hdepth, hleaves]
    exact s.height_lt_length_leaves
  · rw [hdepth, hleaves]
    exact s.length_leaves_le

/-- With two leaves both bounds on the depth are met. -/
example : (Tree.stump 7 4 9).leafCount = 2 ∧ (Tree.stump 7 4 9).depth = 1 := by decide

end TernaryRules
