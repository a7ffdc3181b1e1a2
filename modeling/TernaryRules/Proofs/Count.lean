import Mathlib.Algebra.Order.BigOperators.GroupWithZero.List
import Mathlib.Algebra.Order.Ring.Nat
import Mathlib.Order.Lattice.Nat
import TernaryRules.Compile
import TernaryRules.Proofs.Expansion

/-!
# Numbers of blocks and rules

An interval is covered by some least number of blocks of its field (`Interval.fewest`).  The cover
that `decompose` finds has that many blocks (`Cover.length_eq_fewest`), and `blockCount` finds the
number without the blocks (`blockCount_eq_ok`).

The number of rules of a region, `Region.ruleCount`, is the product of these numbers, as large as
it may be.  Expansion makes that many rules (`Region.Fits.length_bodies`).  `countRules` clamps
after each factor, which comes to the number clamped once (`Region.Fits.countRules_eq_ok`), and the
sum over the regions behaves the same way (`clampedSum_map_clamp`).
-/

namespace TernaryRules

/-! ### Clamped sums and products -/

theorem clamp_of_le {n : Nat} (h : n ≤ maxKey) : clamp n = n := Nat.min_eq_left h

theorem clamp_of_lt {n : Nat} (h : maxKey < n) : clamp n = maxKey := Nat.min_eq_right h.le

theorem one_le_clamp {n : Nat} (h : 1 ≤ n) : 1 ≤ clamp n := Nat.le_min.2 ⟨h, by decide⟩

theorem clamp_clamp_add (m n : Nat) : clamp (clamp m + n) = clamp (m + n) := by
  simp only [clamp]
  omega

theorem clamp_add_clamp (m n : Nat) : clamp (m + clamp n) = clamp (m + n) := by
  rw [Nat.add_comm, clamp_clamp_add, Nat.add_comm]

theorem clamp_clamp_mul (m n : Nat) : clamp (clamp m * n) = clamp (m * n) := by
  rcases Nat.lt_or_ge maxKey m with h | h
  · -- both sides are clamped, unless the other factor is zero
    rcases Nat.eq_zero_or_pos n with rfl | hn
    · rfl
    · have hm : maxKey ≤ m * n := h.le.trans (Nat.le_mul_of_pos_right m hn)
      rw [clamp_of_lt h, clamp, clamp, Nat.min_eq_right (Nat.le_mul_of_pos_right maxKey hn),
        Nat.min_eq_right hm]
  · rw [clamp_of_le h]

/-- Clamping each count and each partial sum comes to clamping the sum once. -/
theorem clampedSum_map_clamp (counts : List Nat) :
    clampedSum (counts.map clamp) = clamp counts.sum := by
  have hfold : ∀ total, (counts.map clamp).foldl (fun total n => clamp (total + n)) (clamp total) =
      clamp (total + counts.sum) := by
    induction counts with
    | nil => exact fun total => rfl
    | cons n counts ih =>
        intro total
        rw [List.map_cons, List.foldl_cons, clamp_clamp_add, clamp_add_clamp, ih, List.sum_cons,
          Nat.add_assoc]
  have hsum := hfold 0
  rwa [Nat.zero_add] at hsum

/-! ### Blocks of an interval -/

/-- Blocks of the field that hold the values of the interval and no others. -/
def Interval.CoveredBy (i : Interval) (field : Field) (blocks : List Block) : Prop :=
  (∀ b ∈ blocks, b.field = field) ∧ ∀ v, (∃ b ∈ blocks, b.accepts v = true) ↔ v ∈ i

/-- The least number of blocks of the field that cover the interval. -/
noncomputable def Interval.fewest (i : Interval) (field : Field) : Nat :=
  sInf {n | ∃ blocks, i.CoveredBy field blocks ∧ blocks.length = n}

namespace Cover

variable {field : Field} {i : Interval} {blocks : List Block}

theorem coveredBy (h : Cover field i.lo i.hi blocks) : i.CoveredBy field blocks := by
  refine ⟨h.field_eq, fun v => ?_⟩
  simp only [Block.accepts_eq_true]
  exact h.tiles.mem_iff

/-- Blocks that cover the interval refine the largest ones. -/
theorem refines (h : Cover field i.lo i.hi blocks) {others : List Block}
    (ho : i.CoveredBy field others) :
    Refines (fun (b : Block) v => b.accepts v = true) others blocks where
  inside t ht := by
    have hmem : ∀ v ∈ t.interval, v ∈ i := fun v hv =>
      (ho.2 v).1 ⟨t, ht, Block.accepts_eq_true.2 hv⟩
    obtain ⟨b, hb, hsub⟩ := h.exists_subset t (ho.1 t ht) (hmem _ t.first_mem).1
      (hmem _ t.interval.hi_mem).2
    exact ⟨b, hb, fun v hv => Block.accepts_eq_true.2 (hsub v (Block.accepts_eq_true.1 hv))⟩
  covered c hc v hv := (ho.2 v).2 ((h.coveredBy.2 v).1 ⟨c, hc, hv⟩)

/-- The cover by the largest blocks has the least number of blocks. -/
theorem length_eq_fewest (h : Cover field i.lo i.hi blocks) : blocks.length = i.fewest field := by
  have hleast : IsLeast {n | ∃ others, i.CoveredBy field others ∧ others.length = n}
      blocks.length := by
    refine ⟨⟨blocks, h.coveredBy, rfl⟩, ?_⟩
    -- other blocks refine the largest ones, and each of those needs one of them at least
    rintro n ⟨others, ho, rfl⟩
    exact (h.refines ho).length_le h.tiles.exclusive fun c _ =>
      ⟨c.first, Block.accepts_eq_true.2 c.first_mem⟩
  exact hleast.csInf_eq.symm

end Cover

theorem Walk.count_eq_length (w : Walk) : w.count = w.blocks.length := by
  rw [count, blocks]
  split
  · rename_i h
    rw [List.length_nil]
  · rename_i b w' h
    have := remaining_step_lt h
    rw [count_eq_length w', List.length_cons]
termination_by w.remaining

/-- Within a field, `blockCount` answers with the least number of blocks. -/
theorem blockCount_eq_ok {field : Field} {i : Interval} (hi : i.hi ≤ field.maxValue) :
    blockCount field i.lo i.hi = .ok (i.fewest field) := by
  obtain ⟨blocks, hb, hcover⟩ := decompose_cover i.lo_le_hi hi
  obtain ⟨w, hw, rfl⟩ := map_eq_ok.1 hb
  rw [blockCount, hw, ← hcover.length_eq_fewest, ← w.count_eq_length]
  rfl

theorem Interval.one_le_fewest {field : Field} {i : Interval} (hi : i.hi ≤ field.maxValue) :
    1 ≤ i.fewest field := by
  obtain ⟨blocks, -, hcover⟩ := decompose_cover i.lo_le_hi hi
  rw [← hcover.length_eq_fewest]
  obtain ⟨b, hb, -⟩ := hcover.tiles.mem_iff.2 i.lo_mem
  exact List.length_pos_of_mem hb

/-! ### Rules of a region -/

theorem length_tuples {α : Type} : ∀ lists : List (List α),
    (tuples lists).length = (lists.map List.length).prod
  | [] => rfl
  | items :: lists => by
      rw [tuples, List.length_flatMap]
      simp [length_tuples lists]

/-- For each feature the least number of blocks of the interval. -/
noncomputable def Region.blockCounts (r : Region) (table : FeatureTable) : List Nat :=
  List.zipWith (fun i (f : Feature) => i.fewest f.field) r.intervals table.features

/-- The number of rules of a region, which is not clamped. -/
noncomputable def Region.ruleCount (r : Region) (table : FeatureTable) : Nat :=
  (r.blockCounts table).prod

theorem Covers.map_length {is : List Interval} {fs : List Feature} {lists : List (List Block)}
    (h : Covers is fs lists) :
    lists.map List.length = List.zipWith (fun i (f : Feature) => i.fewest f.field) is fs := by
  induction h with
  | nil => rfl
  | cons hc _ ih => rw [List.map_cons, ih, hc.length_eq_fewest, List.zipWith_cons_cons]

namespace Region

/-- The count that is clamped after each factor. -/
theorem foldlM_blockCount (count : Nat) (pairs : List (Interval × Feature)) :
    pairs.foldlM (fun count (i, f) =>
        (blockCount f.field i.lo i.hi).map fun blocks => clamp (count * blocks)) (clamp count) =
      (pairs.mapM fun (i, f) => blockCount f.field i.lo i.hi : Except _ _).map fun counts =>
        clamp (count * counts.prod) := by
  induction pairs generalizing count with
  | nil =>
      show Except.ok (clamp count) = Except.ok (clamp (count * [].prod))
      rw [List.prod_nil, Nat.mul_one]
  | cons pair pairs ih =>
      obtain ⟨i, f⟩ := pair
      rw [List.foldlM_cons, List.mapM_cons]
      dsimp only
      cases blockCount f.field i.lo i.hi with
      | error e => rfl
      | ok n =>
          show pairs.foldlM _ (clamp (clamp count * n)) = _
          rw [clamp_clamp_mul, ih]
          cases (pairs.mapM fun (i, f) => blockCount f.field i.lo i.hi : Except _ _) with
          | error e => rfl
          | ok counts =>
              show Except.ok (clamp (count * n * counts.prod)) =
                Except.ok (clamp (count * (n :: counts).prod))
              rw [List.prod_cons, Nat.mul_assoc]

/-- Clamping after each factor comes to clamping the product. -/
theorem countRules_eq (r : Region) (table : FeatureTable) :
    r.countRules table = ((r.intervals.zip table.features).mapM fun (i, f) =>
      blockCount f.field i.lo i.hi : Except _ _).map fun counts => clamp counts.prod := by
  have hfold := foldlM_blockCount 1 (r.intervals.zip table.features)
  simp only [Nat.one_mul] at hfold
  exact hfold

namespace Fits

variable {r : Region} {table : FeatureTable}

/-- A region is expanded to as many rules as it has. -/
theorem length_bodies (h : r.Fits table) {bodies : List RuleBody}
    (hb : r.expand table = .ok bodies) : bodies.length = r.ruleCount table := by
  obtain ⟨lists, hlists, hexpand⟩ := h.expand_eq_ok
  obtain rfl := Except.ok.inj (hexpand.symm.trans hb)
  rw [List.length_map, length_tuples, hlists.map_length]
  rfl

theorem one_le_ruleCount (h : r.Fits table) : 1 ≤ r.ruleCount table := by
  have hpos : ∀ n ∈ r.blockCounts table, 0 < n := by
    intro n hn
    rw [blockCounts, ← List.map_uncurry_zip_eq_zipWith] at hn
    obtain ⟨⟨i, f⟩, hif, rfl⟩ := List.mem_map.1 hn
    exact Interval.one_le_fewest ((List.forall₂_iff_zip.1 h).2 hif)
  exact List.prod_pos hpos

theorem mapM_blockCount (h : r.Fits table) :
    ((r.intervals.zip table.features).mapM fun (i, f) => blockCount f.field i.lo i.hi) =
      .ok (r.blockCounts table) := by
  rw [mapM_eq_ok, blockCounts, ← List.map_uncurry_zip_eq_zipWith, List.forall₂_map_right_iff,
    List.forall₂_same]
  rintro ⟨i, f⟩ hif
  exact blockCount_eq_ok ((List.forall₂_iff_zip.1 h).2 hif)

/-- A region within the fields is counted as many rules as it has. -/
theorem countRules_eq_ok (h : r.Fits table) :
    r.countRules table = .ok (clamp (r.ruleCount table)) := by
  rw [countRules_eq, h.mapM_blockCount]
  rfl

end Fits

end Region

end TernaryRules
