import TernaryRules.Proofs.Way

/-!
# Following the tests of a tree

`Trail` is the walk of a point down the nodes, with the features that have been tested so far.  Each
of its steps looks up a split of the list and a coordinate of the point, and nothing bounds their
number.  The walk halts at a leaf, or at a split whose coordinate the point lacks (`Halts`).

In the layout of a shape a trail stays in the shape and is no longer than the shape is high
(`StoredIn.length_le_height`), and it halts where following the tests in the shape ends
(`StoredIn.descend_eq_iff`).  A trail depends on the coordinates that it tests and on no others
(`Trail.of_agree`).  The main statement is `leafFor_total`.
-/

namespace TernaryRules

/-! ### The depth of a tree -/

/-- The number of turns to the farthest leaf. -/
def Shape.height : Shape → Nat
  | .leaf _ _ => 0
  | .split _ _ left right => max left.height right.height + 1

variable {nodes : Array Node}

/-- With the root of a shape on top, the search for the deepest level goes through the shape in one
step for each node. -/
theorem Shape.StoredIn.deepest_eq (steps : Nat) : ∀ {s : Shape} (level : Nat)
    (rest : List (NodeId × Nat)) (best : Nat), s.StoredIn nodes →
      Tree.deepest nodes (steps + s.ids.length) ((s.root, level) :: rest) best =
        Tree.deepest nodes steps rest (max best (level + s.height))
  | .leaf id label, level, rest, best, h => by
      simp [ids, Tree.deepest, height, show nodes[id.toNat]? = _ from h]
  | .split id condition left right, level, rest, best, ⟨hn, hl, hr⟩ => by
      have hsteps : steps + (split id condition left right).ids.length =
          steps + right.ids.length + left.ids.length + 1 := by
        simp only [ids, List.length_cons, List.length_append]
        omega
      rw [hsteps, root_split, Tree.deepest]
      simp only [hn]
      rw [StoredIn.deepest_eq _ _ _ _ hl, StoredIn.deepest_eq _ _ _ _ hr, Nat.max_assoc, height,
        Nat.add_max_add_left, Nat.add_right_comm, Nat.add_assoc]

theorem Shape.Fills.depth_eq {s : Shape} {t : Tree} (h : s.Fills t.nodes) :
    t.depth = s.height := by
  have hdeepest := h.stored.deepest_eq 0 0 [] 0
  rw [h.root_eq, h.length_ids, Nat.zero_add] at hdeepest
  rw [Tree.depth, Tree.size, hdeepest]
  simp [Tree.deepest]

/-! ### Trails -/

/-- The walk of a point from a node: the features that it has tested, and the node where it is. -/
inductive Trail (nodes : Array Node) (point : List Nat) :
    NodeId → List FeatureId → NodeId → Prop
  | here (id : NodeId) : Trail nodes point id [] id
  | step {id left right stop : NodeId} {condition : Split} {v : Nat} {tests : List FeatureId} :
      nodes[id.toNat]? = some (.split condition left right) →
        point[condition.feature.toNat]? = some v →
          Trail nodes point (if condition.goesLeft v then left else right) tests stop →
            Trail nodes point id (condition.feature :: tests) stop

/-- The walk is over: at a leaf, or at the test of a coordinate that the point lacks. -/
inductive Halts (nodes : Array Node) (point : List Nat) : NodeId → Option NodeId → Prop
  | leaf {id : NodeId} {label : Label} :
      nodes[id.toNat]? = some (.leaf label) → Halts nodes point id (some id)
  | lacking {id left right : NodeId} {condition : Split} :
      nodes[id.toNat]? = some (.split condition left right) →
        point.length ≤ condition.feature.toNat → Halts nodes point id none

variable {point other : List Nat} {id stop : NodeId} {tests : List FeatureId}
  {result : Option NodeId}

theorem halts_leaf_iff {label : Label} (hn : nodes[id.toNat]? = some (.leaf label)) :
    Halts nodes point id result ↔ result = some id := by
  constructor
  · intro h
    cases h with
    | leaf _ => rfl
    | lacking hn' => cases hn.symm.trans hn'
  · rintro rfl
    exact .leaf hn

theorem halts_split_iff {left right : NodeId} {condition : Split}
    (hn : nodes[id.toNat]? = some (.split condition left right)) :
    Halts nodes point id result ↔ point.length ≤ condition.feature.toNat ∧ result = none := by
  constructor
  · intro h
    cases h with
    | leaf hn' => cases hn.symm.trans hn'
    | lacking hn' hlen =>
        cases hn.symm.trans hn'
        exact ⟨hlen, rfl⟩
  · rintro ⟨hlen, rfl⟩
    exact .lacking hn hlen

theorem trail_leaf_iff {label : Label} (hn : nodes[id.toNat]? = some (.leaf label)) :
    Trail nodes point id tests stop ↔ tests = [] ∧ stop = id := by
  constructor
  · intro h
    cases h with
    | here => exact ⟨rfl, rfl⟩
    | step hn' => cases hn.symm.trans hn'
  · rintro ⟨rfl, rfl⟩
    exact .here stop

theorem trail_split_iff {left right : NodeId} {condition : Split}
    (hn : nodes[id.toNat]? = some (.split condition left right)) :
    Trail nodes point id tests stop ↔ (tests = [] ∧ stop = id) ∨
      ∃ v rest, point[condition.feature.toNat]? = some v ∧ tests = condition.feature :: rest ∧
        Trail nodes point (if condition.goesLeft v then left else right) rest stop := by
  constructor
  · intro h
    cases h with
    | here => exact .inl ⟨rfl, rfl⟩
    | step hn' hv ht =>
        cases hn.symm.trans hn'
        exact .inr ⟨_, _, hv, rfl, ht⟩
  · rintro (⟨rfl, rfl⟩ | ⟨v, rest, hv, rfl, ht⟩)
    · exact .here stop
    · exact .step hn hv ht

/-- The point has each coordinate that has been tested. -/
theorem Trail.exists_coordinate (h : Trail nodes point id tests stop) :
    ∀ f ∈ tests, f.toNat < point.length := by
  induction h with
  | here => simp
  | step _ hv _ ih => exact List.forall_mem_cons.2 ⟨(List.getElem?_eq_some_iff.1 hv).1, ih⟩

/-- A point with the same values of the tested features has the same trail. -/
theorem Trail.of_agree (h : Trail nodes point id tests stop)
    (hagree : ∀ f ∈ tests, other[f.toNat]? = point[f.toNat]?) :
    Trail nodes other id tests stop := by
  induction h with
  | here id => exact .here id
  | step hn hv _ ih =>
      obtain ⟨hf, hrest⟩ := List.forall_mem_cons.1 hagree
      exact .step hn (hf.trans hv) (ih hrest)

/-! ### Trails through a shape -/

namespace Shape

theorem StoredIn.length_le_height : ∀ {s : Shape} {tests : List FeatureId}, s.StoredIn nodes →
    Trail nodes point s.root tests stop → tests.length ≤ s.height ∧ stop ∈ s.ids
  | .leaf id label, tests, hn, h => by
      obtain ⟨rfl, rfl⟩ := (trail_leaf_iff hn).1 h
      simp [ids, height]
  | .split id condition left right, tests, ⟨hn, hl, hr⟩, h => by
      rcases (trail_split_iff hn).1 h with ⟨rfl, rfl⟩ | ⟨v, rest, -, rfl, ht⟩
      · simp [ids]
      · simp only [height, ids, List.length_cons, List.mem_cons, List.mem_append,
          Nat.add_le_add_iff_right, le_sup_iff]
        by_cases hg : condition.goesLeft v = true
        · rw [if_pos hg] at ht
          obtain ⟨hlen, hm⟩ := hl.length_le_height ht
          exact ⟨.inl hlen, .inr (.inl hm)⟩
        · rw [if_neg hg] at ht
          obtain ⟨hlen, hm⟩ := hr.length_le_height ht
          exact ⟨.inr hlen, .inr (.inr hm)⟩

/-- Following the tests in the shape ends where the trail of the point halts. -/
theorem StoredIn.descend_eq_iff : ∀ {s : Shape}, s.StoredIn nodes →
    (s.descend point = result ↔
      ∃ tests stop, Trail nodes point s.root tests stop ∧ Halts nodes point stop result)
  | .leaf id label, hn => by
      simp only [root_leaf, trail_leaf_iff hn, descend]
      constructor
      · rintro rfl
        exact ⟨[], id, ⟨rfl, rfl⟩, .leaf hn⟩
      · rintro ⟨_, _, ⟨rfl, rfl⟩, hh⟩
        exact ((halts_leaf_iff hn).1 hh).symm
  | .split id condition left right, ⟨hn, hl, hr⟩ => by
      simp only [root_split, trail_split_iff hn, descend]
      cases hv : point[condition.feature.toNat]? with
      | none =>
          have hlen := List.getElem?_eq_none_iff.1 hv
          constructor
          · rintro rfl
            exact ⟨[], id, .inl ⟨rfl, rfl⟩, .lacking hn hlen⟩
          · rintro ⟨_, _, ⟨rfl, rfl⟩ | ⟨_, _, ⟨⟩, _⟩, hh⟩
            exact ((halts_split_iff hn).1 hh).2.symm
      | some v =>
          -- the point has the coordinate, so the walk does not halt at the split
          have hgoes : ¬ Halts nodes point id result := fun hh =>
            Nat.not_lt.2 ((halts_split_iff hn).1 hh).1 (List.getElem?_eq_some_iff.1 hv).1
          have hside : (if condition.goesLeft v then left.descend point else right.descend point) =
              result ↔ ∃ tests stop, Trail nodes point
                (if condition.goesLeft v then left.root else right.root) tests stop ∧
                  Halts nodes point stop result := by
            by_cases hg : condition.goesLeft v = true
            · simpa only [if_pos hg] using hl.descend_eq_iff
            · simpa only [if_neg hg] using hr.descend_eq_iff
          rw [hside]
          constructor
          · rintro ⟨tests, stop, ht, hh⟩
            exact ⟨_, stop, .inr ⟨v, tests, rfl, rfl, ht⟩, hh⟩
          · rintro ⟨_, stop, ⟨rfl, rfl⟩ | ⟨_, tests, ⟨⟩, rfl, ht⟩, hh⟩
            · exact absurd hh hgoes
            · exact ⟨tests, stop, ht, hh⟩

end Shape

/-! ### The leaf of a point -/

variable {t : Tree}

/-- The leaf of a point is where its trail halts. -/
theorem Tree.leafFor_eq_iff :
    t.leafFor point = result ↔
      ∃ tests stop, Trail t.nodes point 0 tests stop ∧ Halts t.nodes point stop result := by
  obtain ⟨s, hs⟩ := t.exists_shape
  rw [hs.leafFor_eq, hs.stored.descend_eq_iff, hs.root_eq]

theorem Tree.exists_label_of_leafFor {leaf : NodeId} (h : t.leafFor point = some leaf) :
    ∃ label, t.node? leaf = some (.leaf label) := by
  obtain ⟨tests, stop, -, hh⟩ := leafFor_eq_iff.1 h
  cases hh with
  | leaf hn => exact ⟨_, hn⟩

/-- A point gets a class when it reaches a leaf. -/
theorem Tree.isSome_evaluate : (t.evaluate point).isSome = (t.leafFor point).isSome := by
  cases h : t.leafFor point with
  | none => simp [evaluate, h]
  | some leaf =>
      obtain ⟨label, hn⟩ := exists_label_of_leafFor h
      simp [evaluate, h, hn, Node.label?]

/-- A point that agrees with another one on the features tested on its way reaches the same leaf. -/
theorem Tree.leafFor_of_agree {leaf : NodeId} (h : t.leafFor point = some leaf)
    (ht : Trail t.nodes point 0 tests leaf)
    (hagree : ∀ f ∈ tests, other[f.toNat]? = point[f.toNat]?) : t.leafFor other = some leaf := by
  obtain ⟨label, hn⟩ := exists_label_of_leafFor h
  exact leafFor_eq_iff.2 ⟨tests, leaf, ht.of_agree hagree, .leaf hn⟩

/-- **A tree has a leaf for each point that has the tested coordinates, and looks at no others.**
At every moment the walk stands at a node of the tree, after at most as many steps as the tree is
deep.  It halts at a leaf or at a test of a coordinate that the point lacks, and only with a leaf
is there a class.  The leaf stays the same when other coordinates change or come on, and each leaf
is the end of one way from the root. -/
theorem leafFor_total (t : Tree) (point : List Nat) :
    (∀ tests stop, Trail t.nodes point 0 tests stop →
      tests.length ≤ t.depth ∧ stop.toNat < t.size) ∧
    (∀ result, t.leafFor point = result ↔
      ∃ tests stop, Trail t.nodes point 0 tests stop ∧ Halts t.nodes point stop result) ∧
    (t.evaluate point).isSome = (t.leafFor point).isSome ∧
    (∀ leaf, t.leafFor point = some leaf →
      (∀ more, t.leafFor (point ++ more) = some leaf) ∧
      ∀ tests, Trail t.nodes point 0 tests leaf → ∀ other : List Nat,
        (∀ f ∈ tests, other[f.toNat]? = point[f.toNat]?) → t.leafFor other = some leaf) ∧
    ∀ id label, t.node? id = some (.leaf label) → ∃! turns, follow t.nodes turns 0 = some id := by
  obtain ⟨s, hs⟩ := t.exists_shape
  refine ⟨fun tests stop ht => ?_, fun _ => Tree.leafFor_eq_iff, Tree.isSome_evaluate,
    fun leaf h => ⟨fun more => ?_, fun tests ht other => Tree.leafFor_of_agree h ht⟩,
    fun id label hn => ?_⟩
  · rw [← hs.root_eq] at ht
    obtain ⟨hlen, hm⟩ := hs.stored.length_le_height ht
    exact ⟨hs.depth_eq ▸ hlen, hs.stored.lt_of_mem stop hm⟩
  · obtain ⟨tests, stop, ht, hh⟩ := Tree.leafFor_eq_iff.1 h
    cases hh with
    | leaf hn =>
        refine Tree.leafFor_of_agree h ht fun f hf => ?_
        exact List.getElem?_append_left (ht.exists_coordinate f hf)
  · have hm := Shape.mem_ids_of_mem_leaves (hs.mem_leaves_iff.2 hn)
    rw [← hs.root_eq]
    exact hs.stored.existsUnique_follow hs.nodup hm

/-- The tree of two tests, of feature 0 and then of feature 1. -/
def Tree.nested : Tree where
  nodes := #[.split ⟨0, 3⟩ 1 2, .leaf 4, .split ⟨1, 7⟩ 3 4, .leaf 5, .leaf 6]
  valid := by cbv

/-- Coordinate 1 matters only where feature 1 is tested. -/
theorem leafFor_total_nested :
    Tree.nested.leafFor [3, 8] = some 1 ∧ Tree.nested.leafFor [4] = none ∧
      ∃! turns, follow Tree.nested.nodes turns 0 = some 4 := by
  obtain ⟨-, -, -, hleaf, hway⟩ := leafFor_total .nested [3]
  obtain ⟨-, hhalts, -⟩ := leafFor_total .nested [4]
  have hroot : Tree.nested.nodes[(0 : NodeId).toNat]? = some (.split ⟨0, 3⟩ 1 2) := rfl
  have hlast : Tree.nested.nodes[(2 : NodeId).toNat]? = some (.split ⟨1, 7⟩ 3 4) := rfl
  refine ⟨(hleaf 1 rfl).1 [8], (hhalts none).2 ⟨[0], 2, ?_, .lacking hlast (by decide)⟩,
    hway 4 6 rfl⟩
  exact .step (v := 4) hroot rfl (.here 2)

end TernaryRules
