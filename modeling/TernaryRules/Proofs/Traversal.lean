import TernaryRules.Proofs.Census

/-!
# Leaves in depth-first order

A recursion on the shape of a tree gathers its leaves (`Shape.gather`): it keeps a lower and an
upper limit for each feature, goes left with the smaller of the upper limit and the threshold, then
right with the greater of the lower limit and the value above the threshold, and leaves it to the
leaves to see whether the limits have crossed.  Bounds become none as soon as limits cross, and
limits that have crossed never part again, so the recursion finds what the search with a stack does
(`Limits.bounds_left`, `Limits.bounds_right`, `Shape.gather_eq`).

The search is over after one turn for each node, and lists the leaves from left to right
(`extract_recursive`).
-/

namespace TernaryRules

open Region

/-! ### Limits -/

/-- A lower and an upper limit for each feature.  Where they have crossed no value is left. -/
abbrev Limits := List (Nat × Nat)

/-- The values from the lower to the upper limit, if there are any. -/
def Interval.between? (limits : Nat × Nat) : Option Interval :=
  if h : limits.1 ≤ limits.2 then some ⟨limits.1, limits.2, h⟩ else none

/-- Limits that have crossed stay so when the lower one is raised and the upper one lowered. -/
theorem Interval.between?_eq_bind {l m : Nat × Nat} {narrow : Interval → Option Interval}
    (hlo : l.1 ≤ m.1) (hhi : m.2 ≤ l.2)
    (h : ∀ hl : l.1 ≤ l.2, between? m = narrow ⟨l.1, l.2, hl⟩) :
    between? m = (between? l).bind narrow := by
  by_cases hl : l.1 ≤ l.2
  · rw [h hl, between?, dif_pos hl, Option.bind_some]
  · have hm : ¬ m.1 ≤ m.2 := by omega
    rw [between?, between?, dif_neg hl, dif_neg hm, Option.bind_none]

namespace Limits

/-- The limits on the left of a split. -/
def left (limits : Limits) (condition : Split) : Limits :=
  limits.modify condition.feature.toNat fun l => (l.1, min l.2 condition.threshold.toNat)

/-- The limits on the right of a split. -/
def right (limits : Limits) (condition : Split) : Limits :=
  limits.modify condition.feature.toNat fun l => (max l.1 (condition.threshold.toNat + 1), l.2)

/-- The intervals that the limits leave of the declared ranges, unless one of them is empty. -/
def intervals? (limits : Limits) (features : List Feature) : Option (List Interval) :=
  (limits.zip features).mapM fun (l, f) =>
    Interval.between? (max l.1 f.range.lo, min l.2 f.range.hi)

/-- The limits as bounds, which are none once limits have crossed. -/
def bounds (limits : Limits) : Bounds := limits.mapM Interval.between?

theorem bounds_cons (l : Nat × Nat) (limits : Limits) :
    bounds (l :: limits) =
      (Interval.between? l).bind fun i => (bounds limits).map (i :: ·) :=
  mapM_option_cons ..

theorem intervals?_cons (l : Nat × Nat) (limits : Limits) (f : Feature) (features : List Feature) :
    intervals? (l :: limits) (f :: features) =
      (Interval.between? (max l.1 f.range.lo, min l.2 f.range.hi)).bind fun i =>
        (intervals? limits features).map (i :: ·) :=
  mapM_option_cons ..

/-- Changing the limits of one feature changes one of the bounds. -/
theorem bounds_modify {change : Nat × Nat → Nat × Nat} {narrow : Interval → Option Interval}
    (h : ∀ l, Interval.between? (change l) = (Interval.between? l).bind narrow) :
    ∀ {limits : Limits} {k : Nat}, k < limits.length →
      bounds (limits.modify k change) = (bounds limits).bind fun is =>
        (is[k]?.bind narrow).map (is.set k)
  | l :: limits, 0, _ => by
      rw [List.modify_zero_cons, bounds_cons, bounds_cons, h]
      cases Interval.between? l with
      | none => rfl
      | some i => cases bounds limits <;> cases hn : narrow i <;> simp [hn]
  | l :: limits, k + 1, hk => by
      rw [List.modify_succ_cons, bounds_cons, bounds_cons,
        bounds_modify h (Nat.lt_of_succ_lt_succ hk)]
      cases Interval.between? l with
      | none => rfl
      | some i =>
          cases bounds limits with
          | none => rfl
          | some is =>
              simp only [Option.bind_some, Option.map_some, List.getElem?_cons_succ]
              cases is[k]?.bind narrow <;> rfl

theorem toward_eq_bind (goesLeft : Bool) (condition : Split) (bounds : Bounds) :
    toward goesLeft condition bounds = bounds.bind fun is =>
      (is[condition.feature.toNat]?.bind fun i =>
        if goesLeft then i.upTo? condition.threshold.toNat
        else i.above? condition.threshold.toNat).map (is.set condition.feature.toNat) := by
  refine congrArg bounds.bind (funext fun is => ?_)
  rw [narrow]
  cases is[condition.feature.toNat]? <;> cases goesLeft <;> rfl

variable {limits : Limits} {condition : Split}

/-- The bounds on the left of a split are those of the limits there. -/
theorem bounds_left (h : condition.feature.toNat < limits.length) :
    bounds (limits.left condition) = toward true condition (bounds limits) := by
  rw [toward_eq_bind]
  have hupTo (l : Nat × Nat) : Interval.between? (l.1, min l.2 condition.threshold.toNat) =
      (Interval.between? l).bind fun i => i.upTo? condition.threshold.toNat :=
    Interval.between?_eq_bind (Nat.le_refl _) (Nat.min_le_left ..) fun _ => rfl
  exact bounds_modify hupTo h

/-- The bounds on the right of a split are those of the limits there. -/
theorem bounds_right (h : condition.feature.toNat < limits.length) :
    bounds (limits.right condition) = toward false condition (bounds limits) := by
  rw [toward_eq_bind]
  have habove (l : Nat × Nat) : Interval.between? (max l.1 (condition.threshold.toNat + 1), l.2) =
      (Interval.between? l).bind fun i => i.above? condition.threshold.toNat :=
    Interval.between?_eq_bind (Nat.le_max_left ..) (Nat.le_refl _) fun _ => rfl
  exact bounds_modify habove h

/-- At a leaf the bounds are cut to the intervals that the limits leave. -/
theorem bounds_bind_close : ∀ {limits : Limits} {features : List Feature},
    limits.length = features.length →
      (bounds limits).bind (close features) = limits.intervals? features
  | [], [], _ => rfl
  | l :: limits, f :: features, h => by
      have hcut : Interval.between? (max l.1 f.range.lo, min l.2 f.range.hi) =
          (Interval.between? l).bind fun i => i.inter? f.range :=
        Interval.between?_eq_bind (Nat.le_max_left ..) (Nat.min_le_left ..) fun _ => rfl
      rw [intervals?_cons, hcut, ← bounds_bind_close (Nat.succ.inj h), bounds_cons]
      cases Interval.between? l with
      | none => rfl
      | some i =>
          cases bounds limits with
          | none => cases hr : i.inter? f.range <;> simp [hr]
          | some is => simp [close_cons]

end Limits

/-! ### The recursion -/

/-- Adds the leaves of a shape that is entered with the given limits: those on the left of a split
before those on the right. -/
def Shape.gather (features : List Feature) : Shape → Limits → Extraction → Extraction
  | .leaf id label, limits, found => found.leaf id label (limits.intervals? features)
  | .split _ condition left right, limits, found =>
      right.gather features (limits.right condition)
        (left.gather features (limits.left condition) found)

/-- The recursion with limits finds what the recursion with bounds does. -/
theorem Shape.gather_eq {features : List Feature} : ∀ {s : Shape} {limits : Limits}
    (found : Extraction), s.TestsBelow features.length → limits.length = features.length →
      s.gather features limits found = found ++ s.extract features (Limits.bounds limits)
  | .leaf id label, limits, found, _, hlen => by
      rw [gather, ← Limits.bounds_bind_close hlen, Extraction.leaf_eq_append]
  | .split _ condition left right, limits, found, ⟨hf, tl, tr⟩, hlen => by
      have hk : condition.feature.toNat < limits.length := hlen ▸ hf
      rw [gather, gather_eq _ tr (by simpa [Limits.right] using hlen),
        gather_eq _ tl (by simpa [Limits.left] using hlen), Limits.bounds_left hk,
        Limits.bounds_right hk, Extraction.append_assoc]
      rfl

/-! ### Extraction from a tree -/

theorem Shape.extract_sublist (features : List Feature) : ∀ (s : Shape) (bounds : Bounds),
    ((s.extract features bounds).regions.map Region.leaf).Sublist (s.leaves.map Prod.fst) ∧
      (s.extract features bounds).unreachable.Sublist (s.leaves.map Prod.fst)
  | .leaf id label, bounds => by
      rw [extract]
      cases bounds.bind (close features) <;> simp [leaves]
  | .split _ condition left right, bounds => by
      obtain ⟨hl, hl'⟩ := left.extract_sublist features (toward true condition bounds)
      obtain ⟨hr, hr'⟩ := right.extract_sublist features (toward false condition bounds)
      simp only [extract, leaves, List.map_append]
      exact ⟨hl.append hr, hl'.append hr'⟩

variable {tree : Tree} {table : FeatureTable}

/-- The limits at the root: every value of every field. -/
def FeatureTable.limits (table : FeatureTable) : Limits :=
  table.features.map fun f => (0, f.field.maxValue)

theorem FeatureTable.bounds_limits (table : FeatureTable) :
    Limits.bounds table.limits = some table.whole := by
  rw [limits, whole]
  induction table.features with
  | nil => rfl
  | cons f features ih =>
      rw [List.map_cons, Limits.bounds_cons, ih]
      rfl

/-- **Extraction is the recursion on the tree.**  With all splits declared, the search is over after
one turn for each node, and what it has found is what the recursion gathers.  The leaves with a
region and the other ones are each listed from left to right, and every leaf of the tree is listed
once. -/
theorem extract_recursive (hd : tree.Declared table) :
    ∃ (shape : Shape) (extraction : Extraction),
      shape.Fills tree.nodes ∧ extract tree table = .ok extraction ∧
      Search.Turns tree.nodes table.features tree.size ⟨[(0, some table.whole)], ⟨[], []⟩⟩
        ⟨[], extraction⟩ ∧
      extraction = shape.gather table.features table.limits ⟨[], []⟩ ∧
      (extraction.regions.map Region.leaf).Sublist (shape.leaves.map Prod.fst) ∧
      extraction.unreachable.Sublist (shape.leaves.map Prod.fst) ∧
      (extraction.regions.map Region.leaf ++ extraction.unreachable).Nodup ∧
      ∀ id, id ∈ extraction.regions.map Region.leaf ++ extraction.unreachable ↔
        ∃ label, tree.node? id = some (.leaf label) := by
  obtain ⟨s, hs⟩ := tree.exists_shape
  have hnone := undeclared?_eq_none_iff.2 hd
  have hextract := (extract_eq_ok hs).2 ⟨hnone, rfl⟩
  obtain ⟨hregions, hunreachable⟩ := s.extract_sublist table.features (some table.whole)
  refine ⟨s, _, hs, hextract, hs.turns table, ?_, hregions, hunreachable, leaves_nodup hextract,
    fun id => ?_⟩
  · have hlen : table.limits.length = table.features.length := List.length_map _
    rw [Shape.gather_eq _ (hs.stored.testsBelow hnone) hlen, table.bounds_limits,
      Extraction.nil_append]
  · rw [(s.extract_perm table.features (some table.whole)).mem_iff]
    simp only [List.mem_map, Prod.exists, exists_and_right, exists_eq_right, hs.mem_leaves_iff]
    rfl

/-- The tree of two tests, `x ≤ 3` and then `x ≤ 7`, whose last leaf nothing reaches. -/
def Tree.crossed : Tree where
  nodes := #[.split ⟨0, 3⟩ 1 2, .split ⟨0, 7⟩ 3 4, .leaf 2, .leaf 0, .leaf 1]
  valid := by cbv

theorem extract_recursive_crossed :
    ∃ shape : Shape, shape.Fills Tree.crossed.nodes ∧
      shape.gather FeatureTable.nibble.features FeatureTable.nibble.limits ⟨[], []⟩ =
        ⟨[⟨3, 0, [⟨2, 3, by decide⟩]⟩, ⟨2, 2, [⟨4, 12, by decide⟩]⟩], [4]⟩ := by
  have h : extract Tree.crossed .nibble =
      .ok ⟨[⟨3, 0, [⟨2, 3, by decide⟩]⟩, ⟨2, 2, [⟨4, 12, by decide⟩]⟩], [4]⟩ := rfl
  have hd : Tree.crossed.Declared .nibble := declared_of_extract h
  obtain ⟨shape, extraction, hs, he, -, hgather, -⟩ := extract_recursive hd
  exact ⟨shape, hs, hgather.symm.trans (Except.ok.inj (he.symm.trans h))⟩

end TernaryRules
