import TernaryRules.Proofs.Box
import TernaryRules.Proofs.Outcome
import TernaryRules.Proofs.Partition
import TernaryRules.Proofs.Shape

/-!
# Leaf regions

Extraction searches for leaves with a stack of nodes, each with the bounds met on the way to it.
`Search.Turn` is one turn of the search: the topmost node is taken off and looked up, a leaf is
recorded, and a split puts its two children on, the left one on top.  With the root of a shape on
top, so many turns as the shape has nodes do the work of a structural recursion (`Shape.extract`,
`Shape.StoredIn.turns`).

One invariant carries the recursion: the points within the bounds of a node are the points that are
led to it.  So the region of a leaf holds the points of the declared domain that reach the leaf, and
a leaf has no region when no such point does (`extract_exact`).
-/

namespace TernaryRules

namespace Region

/-! ### The points within bounds -/

/-- The points within the bounds; none when the bounds have become empty. -/
def Within (bounds : Bounds) (point : List Nat) : Prop := ∃ is, bounds = some is ∧ Box is point

@[simp] theorem within_none {point : List Nat} : ¬ Within none point := by simp [Within]

@[simp] theorem within_some {is : List Interval} {point : List Nat} :
    Within (some is) point ↔ Box is point := by simp [Within]

/-- There is one interval for each feature. -/
def Aligned (features : List Feature) (bounds : Bounds) : Prop :=
  ∀ is, bounds = some is → is.length = features.length

/-- The bounds for the child of a split on one side. -/
def toward (goesLeft : Bool) (condition : Split) (bounds : Bounds) : Bounds :=
  bounds.bind fun is => if goesLeft then (narrow is condition).1 else (narrow is condition).2

variable {features : List Feature} {bounds : Bounds} {condition : Split} {goesLeft : Bool}
  {point : List Nat}

theorem narrow_eq {is : List Interval} {i : Interval}
    (hk : is[condition.feature.toNat]? = some i) :
    narrow is condition =
      ((i.upTo? condition.threshold.toNat).map (is.set condition.feature.toNat),
        (i.above? condition.threshold.toNat).map (is.set condition.feature.toNat)) := by
  simp [narrow, hk]

theorem toward_some {is : List Interval} {i : Interval}
    (hk : is[condition.feature.toNat]? = some i) :
    toward goesLeft condition (some is) =
      (if goesLeft then i.upTo? condition.threshold.toNat
        else i.above? condition.threshold.toNat).map (is.set condition.feature.toNat) := by
  simp only [toward, Option.bind_some, narrow_eq hk]
  split <;> rfl

/-- The values of the tested feature that are led to one side. -/
theorem mem_side {i : Interval} {v : Nat} :
    (∃ j, (if goesLeft then i.upTo? condition.threshold.toNat
        else i.above? condition.threshold.toNat) = some j ∧ v ∈ j) ↔
      v ∈ i ∧ condition.goesLeft v = goesLeft := by
  cases goesLeft with
  | true => simp [Interval.mem_upTo?, Split.goesLeft]
  | false => simp [Interval.mem_above?, Split.goesLeft]

theorem Aligned.toward (h : Aligned features bounds)
    (hf : condition.feature.toNat < features.length) :
    Aligned features (toward goesLeft condition bounds) := by
  cases bounds with
  | none => simp [Region.toward, Aligned]
  | some is =>
      have hlen := h is rfl
      intro js hjs
      rw [toward_some (List.getElem?_eq_getElem (hlen ▸ hf))] at hjs
      obtain ⟨j, -, rfl⟩ := Option.map_eq_some_iff.1 hjs
      simpa using hlen

/-- **One step of the invariant**: the bounds of a child keep the points that are led to it. -/
theorem within_toward (h : Aligned features bounds)
    (hf : condition.feature.toNat < features.length) :
    Within (toward goesLeft condition bounds) point ↔ Within bounds point ∧
      ∃ v, point[condition.feature.toNat]? = some v ∧ condition.goesLeft v = goesLeft := by
  cases bounds with
  | none => simp [toward]
  | some is =>
      have hk := List.getElem?_eq_getElem (h is rfl ▸ hf)
      rw [toward_some hk, within_some]
      constructor
      · rintro ⟨js, hjs, hp⟩
        obtain ⟨j, hj, rfl⟩ := Option.map_eq_some_iff.1 hjs
        obtain ⟨hp, v, hv, hvj⟩ := (box_set hk fun v hv => (mem_side.1 ⟨j, hj, hv⟩).1).1 hp
        exact ⟨hp, v, hv, (mem_side.1 ⟨j, hj, hvj⟩).2⟩
      · rintro ⟨hp, v, hv, hg⟩
        obtain ⟨j, hj, hvj⟩ := mem_side.2 ⟨hp.mem_of_getElem? hk hv, hg⟩
        refine ⟨_, Option.map_eq_some_iff.2 ⟨j, hj, rfl⟩, ?_⟩
        exact (box_set hk fun v hv => (mem_side.1 ⟨j, hj, hv⟩).1).2 ⟨hp, v, hv, hvj⟩

theorem close_cons {f : Feature} {i : Interval} {is : List Interval} :
    close (f :: features) (i :: is) =
      (i.inter? f.range).bind fun k => (close features is).map (k :: ·) :=
  mapM_option_cons ..

/-- Cutting the bounds to the declared ranges keeps the points of the declared domain. -/
theorem within_close {is : List Interval} (h : is.length = features.length) :
    Within (close features is) point ↔ Box is point ∧ Box (features.map Feature.range) point := by
  induction is generalizing features point with
  | nil =>
      obtain rfl := List.eq_nil_of_length_eq_zero h.symm
      simp [close]
  | cons i is ih =>
      cases features with
      | nil => simp at h
      | cons f features =>
          have hlen := Nat.succ.inj h
          rw [close_cons]
          constructor
          · rintro ⟨cut, hcut, hp⟩
            obtain ⟨k, hk, hmap⟩ := Option.bind_eq_some_iff.1 hcut
            obtain ⟨ks, hks, rfl⟩ := Option.map_eq_some_iff.1 hmap
            obtain ⟨v, point, hv, hp', rfl⟩ := List.forall₂_cons_left_iff.1 hp
            obtain ⟨hi, hr⟩ := Interval.mem_inter?.1 ⟨k, hk, hv⟩
            obtain ⟨his, hrs⟩ := (ih hlen).1 ⟨ks, hks, hp'⟩
            exact ⟨.cons hi his, .cons hr hrs⟩
          · rintro ⟨hp, hd⟩
            obtain ⟨v, point, hi, his, rfl⟩ := List.forall₂_cons_left_iff.1 hp
            obtain ⟨hr, hrs⟩ := box_cons.1 hd
            obtain ⟨k, hk, hv⟩ := Interval.mem_inter?.2 ⟨hi, hr⟩
            obtain ⟨ks, hks, hp'⟩ := (ih hlen).2 ⟨his, hrs⟩
            exact ⟨k :: ks, by simp [hk, hks], .cons hv hp'⟩

/-- The region of a leaf: the bounds cut to the declared ranges. -/
theorem within_bind_close (h : Aligned features bounds) :
    Within (bounds.bind (close features)) point ↔
      Within bounds point ∧ Box (features.map Feature.range) point := by
  cases bounds with
  | none => simp
  | some is => simpa only [Option.bind_some, within_some] using within_close (h is rfl)

end Region

open Region

/-! ### Extraction by recursion on the shape -/

/-- The leaves of a shape that is entered with the given bounds, from left to right: those that
some point of the domain reaches, and the others. -/
def Shape.extract (features : List Feature) : Shape → Bounds → Extraction
  | .leaf id label, bounds =>
      match bounds.bind (close features) with
      | some intervals => ⟨[⟨id, label, intervals⟩], []⟩
      | none => ⟨[], [id]⟩
  | .split _ condition left right, bounds =>
      let leftPart := left.extract features (toward true condition bounds)
      let rightPart := right.extract features (toward false condition bounds)
      ⟨leftPart.regions ++ rightPart.regions, leftPart.unreachable ++ rightPart.unreachable⟩

namespace Extraction

/-- What has been found with one more leaf, which has a region if some intervals are left to it. -/
def leaf (found : Extraction) (id : NodeId) (label : Label) : Option (List Interval) → Extraction
  | some intervals => { found with regions := found.regions ++ [⟨id, label, intervals⟩] }
  | none => { found with unreachable := found.unreachable ++ [id] }

instance : Append Extraction where
  append a b := ⟨a.regions ++ b.regions, a.unreachable ++ b.unreachable⟩

theorem nil_append (a : Extraction) : ⟨[], []⟩ ++ a = a := rfl

theorem append_assoc (a b c : Extraction) : a ++ b ++ c = a ++ (b ++ c) :=
  congrArg₂ Extraction.mk (List.append_assoc ..) (List.append_assoc ..)

/-- A leaf is added behind what has been found. -/
theorem leaf_eq_append (found : Extraction) (features : List Feature) (id : NodeId) (label : Label)
    (bounds : Bounds) :
    found.leaf id label (bounds.bind (close features)) =
      found ++ (Shape.leaf id label).extract features bounds := by
  rw [Shape.extract]
  cases bounds.bind (close features) with
  | none => exact congrArg₂ Extraction.mk (List.append_nil _).symm rfl
  | some intervals => exact congrArg₂ Extraction.mk rfl (List.append_nil _).symm

end Extraction

/-! ### Turns of the search -/

/-- A search for leaves under way: the nodes still to visit, each with its bounds, and what has been
found. -/
structure Search where
  stack : List (NodeId × Bounds)
  found : Extraction

namespace Search

/-- One turn takes the topmost node off the stack and looks it up. -/
inductive Turn (nodes : Array Node) (features : List Feature) : Search → Search → Prop
  | leaf {id : NodeId} {label : Label} {bounds : Bounds} {stack : List (NodeId × Bounds)}
      {found : Extraction} :
      nodes[id.toNat]? = some (.leaf label) →
        Turn nodes features ⟨(id, bounds) :: stack, found⟩
          ⟨stack, found.leaf id label (bounds.bind (close features))⟩
  | split {id left right : NodeId} {condition : Split} {bounds : Bounds}
      {stack : List (NodeId × Bounds)} {found : Extraction} :
      nodes[id.toNat]? = some (.split condition left right) →
        Turn nodes features ⟨(id, bounds) :: stack, found⟩
          ⟨(left, toward true condition bounds) :: (right, toward false condition bounds) :: stack,
            found⟩

/-- A number of turns one after the other. -/
inductive Turns (nodes : Array Node) (features : List Feature) : Nat → Search → Search → Prop
  | done (a : Search) : Turns nodes features 0 a a
  | turn {n : Nat} {a b c : Search} :
      Turn nodes features a b → Turns nodes features n b c → Turns nodes features (n + 1) a c

/-- What is found when the search goes on for a number of turns. -/
def run (nodes : Array Node) (features : List Feature) (steps : Nat) (a : Search) : Extraction :=
  collect nodes features steps a.stack a.found.regions.toArray a.found.unreachable.toArray

variable {nodes : Array Node} {features : List Feature} {a b c : Search} {m n : Nat}

theorem Turns.trans (h : Turns nodes features m a b) (h' : Turns nodes features n b c) :
    Turns nodes features (m + n) a c := by
  induction h with
  | done => rwa [Nat.zero_add]
  | turn ht _ ih =>
      rw [Nat.add_right_comm]
      exact .turn ht (ih h')

theorem Turn.run_eq (h : Turn nodes features a b) (steps : Nat) :
    run nodes features (steps + 1) a = run nodes features steps b := by
  cases h with
  | @leaf id label bounds stack found hn =>
      simp only [run, collect, hn]
      cases bounds.bind (close features) <;> simp [Extraction.leaf]
  | @split id left right condition bounds stack found hn =>
      simp only [run, collect, hn]
      cases bounds <;> rfl

theorem Turns.run_eq (h : Turns nodes features n a b) (steps : Nat) :
    run nodes features (steps + n) a = run nodes features steps b := by
  induction h with
  | done => rfl
  | turn ht _ ih => rw [← Nat.add_assoc, ht.run_eq, ih]

/-- With nothing left to visit the search is over. -/
theorem run_nil (steps : Nat) (found : Extraction) :
    run nodes features steps ⟨[], found⟩ = found := by
  cases steps <;> simp [run, collect]

end Search

/-- With the root of a shape on top, the search does the work of the recursion in one turn for each
node, then goes on with what stood below. -/
theorem Shape.StoredIn.turns {nodes : Array Node} (features : List Feature) :
    ∀ {s : Shape} (bounds : Bounds) (stack : List (NodeId × Bounds)) (found : Extraction),
      s.StoredIn nodes →
        Search.Turns nodes features s.ids.length ⟨(s.root, bounds) :: stack, found⟩
          ⟨stack, found ++ s.extract features bounds⟩
  | .leaf id label, bounds, stack, found, hn => by
      rw [← Extraction.leaf_eq_append]
      exact .turn (.leaf hn) (.done _)
  | .split id condition left right, bounds, stack, found, ⟨hn, hl, hr⟩ => by
      have hleft := hl.turns features (toward true condition bounds)
        ((right.root, toward false condition bounds) :: stack) found
      have hright := hr.turns features (toward false condition bounds) stack
        (found ++ left.extract features (toward true condition bounds))
      rw [Extraction.append_assoc] at hright
      rw [Shape.ids, List.length_cons, List.length_append]
      exact .turn (.split hn) (hleft.trans hright)

/-! ### The points of a region -/

namespace Shape

/-- Every split tests one of the first `n` features. -/
def TestsBelow (n : Nat) : Shape → Prop
  | .leaf _ _ => True
  | .split _ condition left right =>
      condition.feature.toNat < n ∧ left.TestsBelow n ∧ right.TestsBelow n

variable {features : List Feature} {point : List Nat}

/-- Every leaf is listed once, with a region or as unreachable. -/
theorem extract_perm (features : List Feature) : ∀ (s : Shape) (bounds : Bounds),
    ((s.extract features bounds).regions.map Region.leaf ++
      (s.extract features bounds).unreachable).Perm (s.leaves.map Prod.fst)
  | .leaf id label, bounds => by
      rw [extract]
      cases bounds.bind (close features) <;> simp [leaves]
  | .split _ condition left right, bounds => by
      have hl := left.extract_perm features (toward true condition bounds)
      have hr := right.extract_perm features (toward false condition bounds)
      simp only [extract, leaves, List.map_append]
      refine List.Perm.trans ?_ (hl.append hr)
      simp only [List.append_assoc]
      exact (List.perm_append_comm_assoc _ _ _).append_left _

/-- A leaf that a point of the domain reaches has a region. -/
theorem exists_region {id : NodeId} : ∀ {s : Shape} {bounds : Bounds},
    s.TestsBelow features.length → Aligned features bounds → Within bounds point →
      Box (features.map Feature.range) point → s.descend point = some id →
        ∃ r ∈ (s.extract features bounds).regions, r.leaf = id
  | .leaf id' label, bounds, _, hb, hw, hd, h => by
      obtain ⟨intervals, hi, -⟩ := (within_bind_close hb).2 ⟨hw, hd⟩
      exact ⟨⟨id', label, intervals⟩, by simp [extract, hi], Option.some.inj h⟩
  | .split _ condition left right, bounds, ⟨hf, tl, tr⟩, hb, hw, hd, h => by
      obtain ⟨v, hv, ⟨hg, h⟩ | ⟨hg, h⟩⟩ := descend_split_eq_some_iff.1 h
      · obtain ⟨r, hr, e⟩ :=
          exists_region tl (hb.toward hf) ((within_toward hb hf).2 ⟨hw, v, hv, hg⟩) hd h
        exact ⟨r, List.mem_append_left _ hr, e⟩
      · obtain ⟨r, hr, e⟩ :=
          exists_region tr (hb.toward hf) ((within_toward hb hf).2 ⟨hw, v, hv, hg⟩) hd h
        exact ⟨r, List.mem_append_right _ hr, e⟩

/-- A region belongs to a leaf of the shape. -/
theorem mem_leaves_of_mem_regions {r : Region} : ∀ {s : Shape} {bounds : Bounds},
    r ∈ (s.extract features bounds).regions → (r.leaf, r.label) ∈ s.leaves
  | .leaf id label, bounds, h => by
      rw [extract] at h
      cases hc : bounds.bind (close features) <;> simp_all [leaves]
  | .split _ _ _ _, _, h => by
      rcases List.mem_append.1 h with h | h
      · exact List.mem_append_left _ (mem_leaves_of_mem_regions h)
      · exact List.mem_append_right _ (mem_leaves_of_mem_regions h)

/-- **The invariant at a leaf**: a region holds the points within the bounds and the domain that
reach its leaf. -/
theorem box_of_mem_regions {r : Region} : ∀ {s : Shape} {bounds : Bounds},
    s.TestsBelow features.length → s.ids.Nodup → Aligned features bounds →
      r ∈ (s.extract features bounds).regions →
        (Box r.intervals point ↔ Within bounds point ∧ Box (features.map Feature.range) point ∧
          s.descend point = some r.leaf)
  | .leaf id label, bounds, _, _, hb, h => by
      rw [extract] at h
      cases hc : bounds.bind (close features) with
      | none => simp [hc] at h
      | some intervals =>
          obtain rfl : r = ⟨id, label, intervals⟩ := by simpa [hc] using h
          rw [← and_assoc, ← within_bind_close hb, hc]
          simp [descend]
  | .split id condition left right, bounds, ⟨hf, tl, tr⟩, hn, hb, h => by
      obtain ⟨-, hn⟩ := List.nodup_cons.1 hn
      obtain ⟨nl, nr, hlr⟩ := List.nodup_append.1 hn
      rw [descend_split_eq_some_iff]
      rcases List.mem_append.1 h with h | h
      · have hleaf := mem_ids_of_mem_leaves (mem_leaves_of_mem_regions h)
        rw [box_of_mem_regions tl nl (hb.toward hf) h, within_toward hb hf]
        constructor
        · rintro ⟨⟨hw, v, hv, hg⟩, hd, hl⟩
          exact ⟨hw, hd, v, hv, .inl ⟨hg, hl⟩⟩
        · rintro ⟨hw, hd, v, hv, ⟨hg, hl⟩ | ⟨-, hr⟩⟩
          · exact ⟨⟨hw, v, hv, hg⟩, hd, hl⟩
          · -- a leaf on the left is not reached through the right child
            exact absurd rfl (hlr _ hleaf _ (mem_ids_of_descend hr))
      · have hleaf := mem_ids_of_mem_leaves (mem_leaves_of_mem_regions h)
        rw [box_of_mem_regions tr nr (hb.toward hf) h, within_toward hb hf]
        constructor
        · rintro ⟨⟨hw, v, hv, hg⟩, hd, hr⟩
          exact ⟨hw, hd, v, hv, .inr ⟨hg, hr⟩⟩
        · rintro ⟨hw, hd, v, hv, ⟨-, hl⟩ | ⟨hg, hr⟩⟩
          · exact absurd rfl (hlr _ (mem_ids_of_descend hl) _ hleaf)
          · exact ⟨⟨hw, v, hv, hg⟩, hd, hr⟩

/-- A leaf is unreachable when no point within the bounds and the domain reaches it. -/
theorem mem_unreachable_iff {s : Shape} {bounds : Bounds} {id : NodeId}
    (ht : s.TestsBelow features.length) (hn : s.ids.Nodup) (hb : Aligned features bounds) :
    id ∈ (s.extract features bounds).unreachable ↔ (∃ label, (id, label) ∈ s.leaves) ∧
      ∀ point, Within bounds point → Box (features.map Feature.range) point →
        s.descend point ≠ some id := by
  have hperm := s.extract_perm features bounds
  have hnodup : (s.leaves.map Prod.fst).Nodup := s.leaves_sublist_ids.nodup hn
  constructor
  · intro h
    have hleaf := hperm.mem_iff.1 (List.mem_append_right _ h)
    obtain ⟨⟨_, label⟩, hm, rfl⟩ := List.mem_map.1 hleaf
    refine ⟨⟨label, hm⟩, fun point hw hd hp => ?_⟩
    obtain ⟨r, hr, e⟩ := exists_region ht hb hw hd hp
    -- its region would list the leaf a second time
    exact (List.nodup_append.1 (hperm.nodup_iff.2 hnodup)).2.2 _ (List.mem_map.2 ⟨r, hr, e⟩) _ h rfl
  · rintro ⟨⟨label, hm⟩, hnone⟩
    rcases List.mem_append.1 (hperm.mem_iff.2 (List.mem_map_of_mem (f := Prod.fst) hm)) with h | h
    · -- a region has a point, which would reach the leaf
      obtain ⟨r, hr, rfl⟩ := List.mem_map.1 h
      obtain ⟨hw, hd, hp⟩ := (box_of_mem_regions ht hn hb hr).1 (Box.corner _)
      exact absurd hp (hnone _ hw hd)
    · exact h

end Shape

/-! ### Extraction from a tree -/

variable {tree : Tree} {table : FeatureTable} {extraction : Extraction}

/-- When no split is undeclared, every split tests a feature of the table. -/
theorem Shape.StoredIn.testsBelow (h : undeclared? tree table = none) :
    ∀ {s : Shape}, s.StoredIn tree.nodes → s.TestsBelow table.size
  | .leaf _ _, _ => trivial
  | .split id condition left right, ⟨hn, hl, hr⟩ => by
      refine ⟨?_, hl.testsBelow h, hr.testsBelow h⟩
      have hmem : (id, condition) ∈ tree.splits := by
        refine List.mem_filterMap.2 ⟨(.split condition left.root right.root, id.toNat), ?_, ?_⟩
        · simpa [List.mk_mem_zipIdx_iff_getElem?] using hn
        · simp [Node.condition?]
      have := List.find?_eq_none.1 (Option.map_eq_none_iff.1 h) _ hmem
      simpa [FeatureTable.get?, FeatureTable.size] using this

/-- The bounds of the root: every value of every field. -/
def FeatureTable.whole (table : FeatureTable) : List Interval :=
  table.features.map fun f => f.field.whole

theorem FeatureTable.aligned_whole (table : FeatureTable) :
    Aligned table.features (some table.whole) := by
  rintro is ⟨⟩
  simp [whole]

/-- The declared domain lies within the fields. -/
theorem FeatureTable.box_whole {point : List Nat}
    (h : Box (table.features.map Feature.range) point) : Box table.whole point := by
  refine Box.subset_iff.2 ?_ point h
  simp only [whole, List.forall₂_map_left_iff, List.forall₂_map_right_iff, List.forall₂_same]
  exact fun f _ => Interval.subset_iff.2 ⟨Nat.zero_le _, f.hi_le⟩

/-- The search of a tree is over after one turn for each node. -/
theorem Shape.Fills.turns {s : Shape} (hs : s.Fills tree.nodes) (table : FeatureTable) :
    Search.Turns tree.nodes table.features tree.size ⟨[(0, some table.whole)], ⟨[], []⟩⟩
      ⟨[], s.extract table.features (some table.whole)⟩ := by
  have h := hs.stored.turns table.features (some table.whole) [] ⟨[], []⟩
  rwa [hs.root_eq, hs.length_ids, Extraction.nil_append] at h

/-- Extraction succeeds when every split is declared, and is then the recursion on the shape. -/
theorem extract_eq_ok {s : Shape} (hs : s.Fills tree.nodes) :
    extract tree table = .ok extraction ↔
      undeclared? tree table = none ∧ extraction = s.extract table.features (some table.whole) := by
  have hrun := (hs.turns table).run_eq 0
  rw [Nat.zero_add, Search.run_nil] at hrun
  have hcollect : collect tree.nodes table.features tree.size
      [(0, some (table.features.map fun f => f.field.whole))] #[] #[] =
        s.extract table.features (some table.whole) := hrun
  unfold extract
  cases undeclared? tree table with
  | some e => simp
  | none => simp [hcollect, eq_comm]

/-- The regions of a tree: the leaf and the points of each, and the leaves without a region. -/
theorem extract_regions (h : extract tree table = .ok extraction) :
    (∀ r ∈ extraction.regions, tree.node? r.leaf = some (.leaf r.label) ∧
      ∀ point, Box r.intervals point ↔
        Box (table.features.map Feature.range) point ∧ tree.leafFor point = some r.leaf) ∧
    ∀ id, id ∈ extraction.unreachable ↔ (∃ label, tree.node? id = some (.leaf label)) ∧
      ∀ point, Box (table.features.map Feature.range) point → tree.leafFor point ≠ some id := by
  obtain ⟨s, hs⟩ := tree.exists_shape
  obtain ⟨hu, rfl⟩ := (extract_eq_ok hs).1 h
  have ht : s.TestsBelow table.features.length := hs.stored.testsBelow hu
  have hb := table.aligned_whole
  refine ⟨fun r hr => ⟨?_, fun point => ?_⟩, fun id => ?_⟩
  · exact hs.mem_leaves_iff.1 (Shape.mem_leaves_of_mem_regions hr)
  · rw [Shape.box_of_mem_regions ht hs.nodup hb hr, within_some, hs.leafFor_eq]
    -- the bounds of the root hold the whole domain, so they cut nothing off
    exact ⟨fun h => h.2, fun h => ⟨FeatureTable.box_whole h.1, h⟩⟩
  · rw [Shape.mem_unreachable_iff ht hs.nodup hb]
    simp only [within_some, hs.leafFor_eq, hs.mem_leaves_iff]
    exact and_congr_right fun _ => ⟨fun h point hd => h point (FeatureTable.box_whole hd) hd,
      fun h point _ hd => h point hd⟩

/-- No leaf is listed twice, be it with a region or as unreachable. -/
theorem leaves_nodup (h : extract tree table = .ok extraction) :
    (extraction.regions.map Region.leaf ++ extraction.unreachable).Nodup := by
  obtain ⟨s, hs⟩ := tree.exists_shape
  obtain ⟨-, rfl⟩ := (extract_eq_ok hs).1 h
  exact (s.extract_perm table.features (some table.whole)).nodup_iff.2
    (s.leaves_sublist_ids.nodup hs.nodup)

/-- The regions of different leaves have no point in common. -/
theorem regions_exclusive (h : extract tree table = .ok extraction) :
    Exclusive (fun (r : Region) point => Box r.intervals point) extraction.regions := by
  have hregions := (extract_regions h).1
  have hnodup := List.pairwise_map.1 (List.nodup_append.1 (leaves_nodup h)).1
  refine hnodup.imp_of_mem fun hr hr' hne point hp => ?_
  have hl := (((hregions _ hr).2 point).1 hp.1).2
  have hl' := (((hregions _ hr').2 point).1 hp.2).2
  exact hne (Option.some.inj (hl.symm.trans hl'))

/-- The intervals of a region lie in the declared ranges. -/
theorem intervals_subset (h : extract tree table = .ok extraction) {r : Region}
    (hr : r ∈ extraction.regions) :
    List.Forall₂ (fun i (f : Feature) => i ⊆ f.range) r.intervals table.features := by
  have hregion := ((extract_regions h).1 r hr).2
  exact List.forall₂_map_right_iff.1 (Box.subset_iff.1 fun point hp => ((hregion point).1 hp).1)

/-- The points of a region lie in the declared domain and get the class of the region. -/
theorem evaluate_of_box (h : extract tree table = .ok extraction) {r : Region}
    (hr : r ∈ extraction.regions) {point : List Nat} (hp : Box r.intervals point) :
    Box (table.features.map Feature.range) point ∧ tree.evaluate point = some r.label := by
  obtain ⟨hnode, hpoints⟩ := (extract_regions h).1 r hr
  obtain ⟨hd, hreach⟩ := (hpoints point).1 hp
  refine ⟨hd, ?_⟩
  rw [Tree.evaluate, hreach, Option.bind_some, hnode]
  rfl

/-- A point of the declared domain reaches a leaf. -/
theorem Shape.exists_descend {point : List Nat} :
    ∀ {s : Shape}, s.TestsBelow point.length → ∃ id, s.descend point = some id
  | .leaf id _, _ => ⟨id, rfl⟩
  | .split _ condition left right, ⟨hf, tl, tr⟩ => by
      obtain ⟨l, hl⟩ := exists_descend tl
      obtain ⟨r, hr⟩ := exists_descend tr
      have hv := List.getElem?_eq_getElem hf
      cases hg : condition.goesLeft point[condition.feature.toNat] with
      | true => exact ⟨l, descend_split_eq_some_iff.2 ⟨_, hv, .inl ⟨hg, hl⟩⟩⟩
      | false => exact ⟨r, descend_split_eq_some_iff.2 ⟨_, hv, .inr ⟨hg, hr⟩⟩⟩

/-- Every point of the declared domain lies in a region. -/
theorem exists_region_of_box (h : extract tree table = .ok extraction) {point : List Nat}
    (hd : Box (table.features.map Feature.range) point) :
    ∃ r ∈ extraction.regions, Box r.intervals point := by
  obtain ⟨s, hs⟩ := tree.exists_shape
  have hregions := (extract_regions h).1
  obtain ⟨hu, rfl⟩ := (extract_eq_ok hs).1 h
  have ht : s.TestsBelow table.features.length := hs.stored.testsBelow hu
  have hlen : table.features.length = point.length := by simpa using hd.length_eq
  obtain ⟨id, hid⟩ := Shape.exists_descend (hlen ▸ ht)
  obtain ⟨r, hr, rfl⟩ :=
    Shape.exists_region ht table.aligned_whole (within_some.2 (FeatureTable.box_whole hd)) hd hid
  exact ⟨r, hr, ((hregions r hr).2 point).2 ⟨hd, (hs.leafFor_eq point).trans hid⟩⟩

/-- **Leaf regions are exact.**  The region of a leaf holds the points of the declared domain that
reach the leaf, it has the class of the leaf, and its intervals lie in the declared ranges; a leaf
is unreachable when no point of the domain reaches it; and the regions part the domain. -/
theorem extract_exact (h : extract tree table = .ok extraction) :
    (∀ r ∈ extraction.regions,
      (∀ point, r.contains point = true ↔
        table.containsPoint point = true ∧ tree.leafFor point = some r.leaf) ∧
      tree.node? r.leaf = some (.leaf r.label) ∧
      List.Forall₂ (fun i (f : Feature) =>
        f.range.lo ≤ i.lo ∧ i.lo ≤ i.hi ∧ i.hi ≤ f.range.hi) r.intervals table.features) ∧
    (∀ id, id ∈ extraction.unreachable ↔ (∃ label, tree.node? id = some (.leaf label)) ∧
      ∀ point, table.containsPoint point = true → tree.leafFor point ≠ some id) ∧
    ∀ point,
      (table.containsPoint point = true →
        ∃! k : Nat, ∃ r, extraction.regions[k]? = some r ∧ r.contains point = true) ∧
      (table.containsPoint point = false →
        ∀ r ∈ extraction.regions, r.contains point = false) := by
  obtain ⟨hregions, hunreachable⟩ := extract_regions h
  simp only [Region.contains_eq_true, ← Bool.not_eq_true, FeatureTable.containsPoint_eq_true]
  refine ⟨fun r hr => ⟨(hregions r hr).2, (hregions r hr).1, ?_⟩, hunreachable, fun point => ?_⟩
  · refine (intervals_subset h hr).imp fun i f hi => ?_
    obtain ⟨hlo, hhi⟩ := Interval.subset_iff.1 hi
    exact ⟨hlo, i.lo_le_hi, hhi⟩
  · constructor
    · intro hd
      exact (regions_exclusive h).existsUnique_position (exists_region_of_box h hd)
    · intro hd r hr hp
      exact hd (((hregions r hr).2 point).1 hp).1

/-- The tree of one test of feature 0. -/
def Tree.stump (threshold : UInt64) (low high : Label) : Tree where
  nodes := #[.split ⟨0, threshold⟩ 1 2, .leaf low, .leaf high]
  valid := by cbv

/-- The field of four bits. -/
def Field.nibble : Field := ⟨4, by decide, by decide⟩

/-- A feature of four bits that takes the values from 2 to 12. -/
def FeatureTable.nibble : FeatureTable := ⟨[⟨"nibble", .nibble, ⟨2, 12, by decide⟩, by decide⟩]⟩

/-- Both leaves of a test against 7 are reached. -/
def Extraction.halves : Extraction :=
  ⟨[⟨1, 4, [⟨2, 7, by decide⟩]⟩, ⟨2, 9, [⟨8, 12, by decide⟩]⟩], []⟩

theorem extract_exact_stump :
    extract (Tree.stump 7 4 9) .nibble = .ok .halves ∧
      ∃! k : Nat, ∃ r, Extraction.halves.regions[k]? = some r ∧ r.contains [5] = true := by
  have h : extract (Tree.stump 7 4 9) .nibble = .ok .halves := rfl
  exact ⟨h, ((extract_exact h).2.2 [5]).1 (by decide)⟩

end TernaryRules
