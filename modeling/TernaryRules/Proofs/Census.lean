import TernaryRules.Proofs.Extraction
import TernaryRules.Proofs.Way

/-!
# The nodes of a tree

The nodes of a shape are the nodes of the list it fills, in another order
(`Shape.Fills.nodes_perm`), so the list is a strict tree (`Shape.Fills.strictTree`).  A tree has as
many leaves as its shape (`Tree.leafCount_eq`), and extraction lists each of them once, with a
region or as unreachable (`length_regions_add`).

The splits are listed by position (`Tree.mem_splits`, `Tree.splits_pairwise`).  So the split that
extraction complains of is the first one that tests an undeclared feature
(`undeclared?_eq_some_iff`), and it complains of none when all are declared
(`undeclared?_eq_none_iff`).
-/

namespace TernaryRules

/-! ### Nodes and leaves -/

namespace Shape

/-- The nodes in the order in which a walk meets them. -/
def nodes : Shape → List Node
  | .leaf _ label => [.leaf label]
  | .split _ condition left right =>
      .split condition left.root right.root :: (left.nodes ++ right.nodes)

theorem StoredIn.map_getElem? {nodes : Array Node} : ∀ {s : Shape}, s.StoredIn nodes →
    s.ids.map (fun id => nodes[id.toNat]?) = s.nodes.map some
  | .leaf _ _, h => by
      rw [ids, List.map_singleton, show nodes[_]? = _ from h]
      rfl
  | .split _ _ left right, ⟨hn, hl, hr⟩ => by
      simp only [ids, Shape.nodes, List.map_cons, List.map_append, hn, hl.map_getElem?,
        hr.map_getElem?]

theorem Fills.nodes_perm {s : Shape} {nodes : Array Node} (h : s.Fills nodes) :
    s.nodes.Perm nodes.toList := by
  -- look up the positions: in the list's own order here, in the walk's order on the other side
  have hlist : (List.range nodes.size).map (fun i => nodes[i]?) = nodes.toList.map some := by
    refine List.ext_getElem (by simp) fun i hi _ => ?_
    simp at hi ⊢
  have hperm := h.ids_perm.map fun i => nodes[i]?
  rw [List.map_map, hlist] at hperm
  rw [← List.map_perm_map_iff (Option.some_injective Node), ← h.stored.map_getElem?]
  exact hperm

/-- The root and the children of all nodes are the nodes. -/
theorem root_cons_children_perm : ∀ s : Shape,
    (s.root.toNat :: s.nodes.flatMap Node.children).Perm (s.ids.map UInt32.toNat)
  | .leaf _ _ => List.Perm.refl _
  | .split id condition left right => by
      have hl := left.root_cons_children_perm
      have hr := right.root_cons_children_perm
      simp only [root_split, Shape.nodes, ids, List.flatMap_cons, List.flatMap_append,
        Node.children, List.map_cons, List.map_append, List.cons_append, List.nil_append]
      -- each of the two children goes in front of what is below it
      refine List.Perm.cons _ (List.Perm.trans ?_ (hl.append hr))
      rw [List.cons_append]
      exact List.perm_middle.symm.cons _

/-- The list that a shape fills is a strict tree. -/
theorem Fills.strictTree {s : Shape} {nodes : Array Node} (h : s.Fills nodes) :
    StrictTree nodes := by
  refine .of_slots ?_ fun i hi => (h.stored.reachable_iff h.root_eq).2 (h.mem_ids i hi)
  have hslots : (childSlots nodes).Perm (s.nodes.flatMap Node.children) :=
    (h.nodes_perm.flatMap_right _).symm
  have hroot := s.root_cons_children_perm
  rw [h.root_eq] at hroot
  exact (hslots.cons 0).trans (hroot.trans h.ids_perm)

theorem countP_isLeaf : ∀ s : Shape, s.nodes.countP Node.isLeaf = s.leaves.length
  | .leaf _ _ => rfl
  | .split _ _ left right => by
      rw [nodes, leaves, List.countP_cons_of_neg (by simp [Node.isLeaf]), List.countP_append,
        left.countP_isLeaf, right.countP_isLeaf, List.length_append]

end Shape

theorem Tree.leafCount_eq {t : Tree} {s : Shape} (h : s.Fills t.nodes) :
    t.leafCount = s.leaves.length := by
  rw [leafCount, ← Array.countP_toList, ← h.nodes_perm.countP_eq, s.countP_isLeaf]

variable {tree : Tree} {table : FeatureTable} {extraction : Extraction}

/-- Each leaf has a region or is unreachable. -/
theorem length_regions_add (h : extract tree table = .ok extraction) :
    extraction.regions.length + extraction.unreachable.length = tree.leafCount := by
  obtain ⟨s, hs⟩ := tree.exists_shape
  obtain ⟨-, rfl⟩ := (extract_eq_ok hs).1 h
  rw [Tree.leafCount_eq hs]
  simpa using (s.extract_perm table.features (some table.whole)).length_eq

/-- Some leaf has a region. -/
theorem regions_ne_nil (h : extract tree table = .ok extraction) : extraction.regions ≠ [] := by
  obtain ⟨r, hr, -⟩ := exists_region_of_box h (Box.corner _)
  exact List.ne_nil_of_mem hr

/-! ### Splits by position -/

/-- Positions are numbers of nodes. -/
theorem Tree.toNat_toUInt32 (t : Tree) {i : Nat} (h : i < t.nodes.size) : i.toUInt32.toNat = i := by
  obtain ⟨s, hs⟩ := t.exists_shape
  obtain ⟨id, -, rfl⟩ := hs.mem_ids i h
  exact congrArg UInt32.toNat UInt32.ofNat_toNat

theorem Tree.mem_splits {t : Tree} {id : NodeId} {condition : Split} :
    (id, condition) ∈ t.splits ↔
      ∃ left right, t.node? id = some (.split condition left right) := by
  simp only [splits, List.mem_filterMap, Prod.exists, List.mk_mem_zipIdx_iff_getElem?,
    Array.getElem?_toList, node?]
  constructor
  · rintro ⟨node, i, hi, h⟩
    have hlt := (Array.getElem?_eq_some_iff.1 hi).1
    cases node with
    | leaf label => cases h
    | split condition' left right =>
        cases h
        exact ⟨left, right, by rwa [t.toNat_toUInt32 hlt]⟩
  · rintro ⟨left, right, h⟩
    exact ⟨_, id.toNat, h, by simp [Node.condition?]⟩

theorem Tree.splits_pairwise (t : Tree) :
    t.splits.Pairwise fun a b => a.1.toNat < b.1.toNat := by
  have hidx : t.nodes.toList.zipIdx.Pairwise fun a b => a.2 < b.2 := by
    rw [← List.pairwise_map (f := Prod.snd), List.zipIdx_map_snd]
    exact List.pairwise_lt_range'
  refine List.pairwise_filterMap.2 (hidx.imp_of_mem fun {a b} ha hb hlt x hx y hy => ?_)
  have hsize : ∀ c ∈ t.nodes.toList.zipIdx, c.2 < t.nodes.size := fun c hc =>
    (List.getElem?_eq_some_iff.1 (List.mk_mem_zipIdx_iff_getElem?.1 hc)).1
  obtain ⟨_, -, rfl⟩ := Option.map_eq_some_iff.1 hx
  obtain ⟨_, -, rfl⟩ := Option.map_eq_some_iff.1 hy
  show a.2.toUInt32.toNat < b.2.toUInt32.toNat
  rwa [t.toNat_toUInt32 (hsize a ha), t.toNat_toUInt32 (hsize b hb)]

/-- In a list that is ordered by a key, the first item that passes a test has the least key. -/
theorem find?_eq_some_iff_least {α : Type} {key : α → Nat} {items : List α}
    (h : items.Pairwise fun a b => key a < key b) {test : α → Bool} {a : α} :
    items.find? test = some a ↔
      a ∈ items ∧ test a = true ∧ ∀ b ∈ items, test b = true → key a ≤ key b := by
  constructor
  · intro hfind
    obtain ⟨ha, before, after, rfl, hbefore⟩ := List.find?_eq_some_iff_append.1 hfind
    refine ⟨by simp, ha, fun b hb htest => ?_⟩
    rcases List.mem_append.1 hb with hb | hb
    · have := hbefore b hb
      simp [htest] at this
    · rcases List.mem_cons.1 hb with rfl | hb
      · exact Nat.le_refl _
      · exact ((List.pairwise_cons.1 (List.pairwise_append.1 h).2.1).1 b hb).le
  · rintro ⟨ha, htest, hleast⟩
    induction h with
    | nil => cases ha
    | @cons b items hlt _ ih =>
        rcases List.mem_cons.1 ha with rfl | ha'
        · exact List.find?_cons_of_pos htest
        · -- an earlier item that passed the test would have a smaller key
          have hb : ¬ test b = true := fun hb =>
            Nat.not_lt.2 (hleast b List.mem_cons_self hb) (hlt a ha')
          rw [List.find?_cons_of_neg hb]
          exact ih ha' fun c hc => hleast c (List.mem_cons_of_mem _ hc)

/-! ### Undeclared features -/

/-- Every split tests a feature of the table. -/
def Tree.Declared (tree : Tree) (table : FeatureTable) : Prop :=
  ∀ id condition left right, tree.node? id = some (.split condition left right) →
    condition.feature.toNat < table.size

/-- The report of the first split that tests a feature outside the table. -/
structure FirstUndeclared (tree : Tree) (table : FeatureTable) (e : UndeclaredFeature) : Prop where
  split : ∃ threshold left right,
    tree.node? e.node = some (.split ⟨e.feature, threshold⟩ left right)
  outside : table.size ≤ e.feature.toNat
  declared : e.declared = table.size
  first : ∀ id condition left right, tree.node? id = some (.split condition left right) →
    table.size ≤ condition.feature.toNat → e.node ≤ id

theorem FeatureTable.isNone_get?_iff {id : FeatureId} :
    (table.get? id).isNone = true ↔ table.size ≤ id.toNat := by
  rw [get?, Option.isNone_iff_eq_none, List.getElem?_eq_none_iff]
  rfl

theorem undeclared?_eq_none_iff : undeclared? tree table = none ↔ tree.Declared table := by
  rw [undeclared?, Option.map_eq_none_iff, List.find?_eq_none]
  constructor
  · intro h id condition left right hn
    have := h _ (Tree.mem_splits.2 ⟨left, right, hn⟩)
    rwa [FeatureTable.isNone_get?_iff, Nat.not_le] at this
  · rintro h ⟨id, condition⟩ hmem
    obtain ⟨left, right, hn⟩ := Tree.mem_splits.1 hmem
    rw [FeatureTable.isNone_get?_iff, Nat.not_le]
    exact h id condition left right hn

theorem undeclared?_eq_some_iff {e : UndeclaredFeature} :
    undeclared? tree table = some e ↔ FirstUndeclared tree table e := by
  simp only [undeclared?, Option.map_eq_some_iff, find?_eq_some_iff_least tree.splits_pairwise,
    FeatureTable.isNone_get?_iff]
  constructor
  · rintro ⟨⟨id, condition⟩, ⟨hmem, hout, hleast⟩, rfl⟩
    obtain ⟨left, right, hn⟩ := Tree.mem_splits.1 hmem
    refine ⟨⟨condition.threshold, left, right, hn⟩, hout, rfl, ?_⟩
    intro id' condition' left' right' hn' hout'
    exact hleast _ (Tree.mem_splits.2 ⟨left', right', hn'⟩) hout'
  · rintro ⟨⟨threshold, left, right, hn⟩, hout, hdecl, hfirst⟩
    refine ⟨(e.node, ⟨e.feature, threshold⟩), ⟨Tree.mem_splits.2 ⟨left, right, hn⟩, hout, ?_⟩, ?_⟩
    · rintro ⟨id', condition'⟩ hmem hout'
      obtain ⟨left', right', hn'⟩ := Tree.mem_splits.1 hmem
      exact hfirst id' condition' left' right' hn' hout'
    · rw [← hdecl]

theorem extract_eq_error_iff {e : UndeclaredFeature} :
    extract tree table = .error e ↔ FirstUndeclared tree table e := by
  rw [extract, ← undeclared?_eq_some_iff]
  cases undeclared? tree table <;> simp

theorem exists_extraction (h : tree.Declared table) :
    ∃ extraction, extract tree table = .ok extraction := by
  rw [extract, undeclared?_eq_none_iff.2 h]
  exact ⟨_, rfl⟩

theorem declared_of_extract (h : extract tree table = .ok extraction) : tree.Declared table := by
  obtain ⟨shape, hs⟩ := tree.exists_shape
  exact undeclared?_eq_none_iff.1 ((extract_eq_ok hs).1 h).1

end TernaryRules
