import TernaryRules.Rule.Expansion
import TernaryRules.Proofs.Cover
import TernaryRules.Proofs.Extraction
import TernaryRules.Proofs.Odometer
import TernaryRules.Proofs.Outcome

/-!
# Expansion of regions

The intervals of a region are covered one by one (`Covers`), and the rules are the tuples of the
covers.  The checks of a cover never fail, for blocks that tile the interval are what they look for
(`checkCover_of_tiles`), so covers are decompositions (`Region.covers_eq`) and a region within the
fields of the table is always expanded (`Region.Fits.expand_eq_ok`).  A point of the region matches
exactly one of the tuples, and no other point matches any (`Covers.exists_matches`,
`Covers.exclusive`).
-/

namespace TernaryRules

/-! ### The checks of a cover -/

/-- An interval that ends outside of a field has no blocks there. -/
theorem Interval.decompose_eq_error {i : Interval} {field : Field} (h : field.maxValue < i.hi) :
    decompose field i.lo i.hi = .error (.outOfField i.hi field.bits) := by
  rw [decompose, Walk.ofBounds, dif_pos i.lo_le_hi, dif_neg (Nat.not_le.2 h)]
  rfl

theorem Tiles.getLast? {lo hi : Nat} {blocks : List Block} (h : Tiles lo hi blocks) :
    blocks.getLast?.map Block.last = some hi := by
  induction h with
  | last b => rfl
  | @cons b hi rest ht ih =>
      cases rest with
      | nil => cases ih
      | cons c rest => rw [List.getLast?_cons_cons, ih]

namespace Region

theorem checkChain_of_tiles {lo hi : Nat} {blocks : List Block} (feature : Nat)
    (interval : Interval) (h : Tiles lo hi blocks) :
    checkChain feature interval lo blocks = .ok () := by
  induction h with
  | last b => rw [checkChain, if_pos rfl, checkChain]
  | cons b _ ih => rw [checkChain, if_pos rfl, ih]

theorem checkCover_of_tiles {interval : Interval} {blocks : List Block} (feature : Nat)
    (h : Tiles interval.lo interval.hi blocks) : checkCover feature interval blocks = .ok () := by
  rw [checkCover, checkChain_of_tiles feature interval h]
  exact if_pos h.getLast?

/-- The checks of a cover never fail. -/
theorem coverOf_eq (feature : Nat) (i : Interval) (field : Field) :
    coverOf feature i field = (decompose field i.lo i.hi).mapError .domain := by
  rcases Nat.lt_or_ge field.maxValue i.hi with hout | hin
  · rw [coverOf, Interval.blocks, Interval.decompose_eq_error hout]
    rfl
  · obtain ⟨blocks, hb, hcover⟩ := decompose_cover i.lo_le_hi hin
    rw [coverOf, Interval.blocks, hb]
    exact map_eq_ok.2 ⟨(), checkCover_of_tiles feature hcover.tiles, rfl⟩

end Region

/-! ### The covers of a region -/

/-- A cover of each interval by blocks of the field of its feature. -/
inductive Covers : List Interval → List Feature → List (List Block) → Prop
  | nil : Covers [] [] []
  | cons {i : Interval} {f : Feature} {blocks : List Block} {is : List Interval}
      {fs : List Feature} {lists : List (List Block)} :
      Cover f.field i.lo i.hi blocks → Covers is fs lists →
        Covers (i :: is) (f :: fs) (blocks :: lists)

namespace Covers

variable {is : List Interval} {fs : List Feature} {lists : List (List Block)}

/-- The points of the intervals match a tuple of the covers. -/
theorem exists_matches (h : Covers is fs lists) {point : List Nat} :
    (∃ cell ∈ tuples lists, Matches cell point) ↔ Box is point := by
  induction h generalizing point with
  | nil =>
      constructor
      · rintro ⟨cell, hc, hm⟩
        rw [List.mem_singleton.1 hc] at hm
        exact box_nil.2 (List.forall₂_nil_left_iff.1 hm)
      · intro hp
        exact ⟨[], List.mem_singleton.2 rfl, box_nil.1 hp ▸ .nil⟩
  | cons hc _ ih =>
      constructor
      · rintro ⟨cell, hcell, hm⟩
        cases mem_tuples.1 hcell with
        | cons hb hrest =>
            cases hm with
            | cons hv hm =>
                have hmem := hc.tiles.mem_iff.1 ⟨_, hb, Block.accepts_eq_true.1 hv⟩
                exact box_cons.2 ⟨hmem, ih.1 ⟨_, mem_tuples.2 hrest, hm⟩⟩
      · intro hp
        cases hp with
        | cons hv hp =>
            obtain ⟨b, hb, hmem⟩ := hc.tiles.mem_iff.2 hv
            obtain ⟨cell, hcell, hm⟩ := ih.2 hp
            refine ⟨b :: cell, mem_tuples.2 (.cons hb (mem_tuples.1 hcell)), .cons ?_ hm⟩
            exact Block.accepts_eq_true.2 hmem

theorem tiles (h : Covers is fs lists) : ∀ blocks ∈ lists, ∃ lo hi, Tiles lo hi blocks := by
  induction h with
  | nil => exact fun blocks hb => absurd hb List.not_mem_nil
  | cons hc _ ih =>
      intro blocks hb
      rcases List.mem_cons.1 hb with rfl | hb
      · exact ⟨_, _, hc.tiles⟩
      · exact ih blocks hb

theorem nil_notMem (h : Covers is fs lists) : [] ∉ lists := by
  intro hnil
  obtain ⟨lo, hi, htiles⟩ := h.tiles [] hnil
  cases htiles

/-- No point matches two tuples of the covers. -/
theorem exclusive (h : Covers is fs lists) : Exclusive Matches (tuples lists) := by
  refine tuples_exclusive fun blocks hb => ?_
  obtain ⟨lo, hi, htiles⟩ := h.tiles blocks hb
  exact htiles.exclusive

theorem fields_eq (h : Covers is fs lists) {cell : List Block} (hc : cell ∈ tuples lists) :
    cell.map Block.field = fs.map Feature.field := by
  have hcell := mem_tuples.1 hc
  clear hc
  induction h generalizing cell with
  | nil =>
      cases hcell
      rfl
  | cons hcover _ ih =>
      cases hcell with
      | cons hb hrest => exact congrArg₂ List.cons (hcover.field_eq _ hb) (ih hrest)

/-- A tuple of blocks of the fields that stays within the intervals lies in a tuple of the
covers. -/
theorem exists_subset (h : Covers is fs lists) {tuple : List Block}
    (hf : tuple.map Block.field = fs.map Feature.field)
    (hs : List.Forall₂ (fun (b : Block) i => b.interval ⊆ i) tuple is) :
    ∃ cell ∈ tuples lists, ∀ point, Matches tuple point → Matches cell point := by
  simp only [matches_subset_iff]
  induction h generalizing tuple with
  | nil =>
      cases hs
      exact ⟨[], List.mem_singleton.2 rfl, .nil⟩
  | cons hcover _ ih =>
      cases hs with
      | cons hb hs =>
          obtain ⟨hfield, hfields⟩ := List.cons.inj hf
          obtain ⟨hlo, hhi⟩ := Interval.subset_iff.1 hb
          obtain ⟨c, hc, hsub⟩ := hcover.exists_subset _ hfield hlo hhi
          obtain ⟨cell, hcell, hsubs⟩ := ih hfields hs
          exact ⟨c :: cell, mem_tuples.2 (.cons hc (mem_tuples.1 hcell)), .cons hsub hsubs⟩

end Covers

/-! ### The rules of a region -/

namespace Region

/-- The decompositions of the intervals in the fields of the features at the same positions. -/
def decomposed (r : Region) (table : FeatureTable) : Except DomainError (List (List Block)) :=
  (r.intervals.zip table.features).mapM fun (i, f) => decompose f.field i.lo i.hi

theorem covers_eq (r : Region) (table : FeatureTable) :
    r.covers table = (r.decomposed table).mapError .domain := by
  have hsteps : (fun p : (Interval × Feature) × Nat => coverOf p.2 p.1.1 p.1.2.field) =
      (fun p => (decompose p.2.field p.1.lo p.1.hi).mapError .domain) ∘ Prod.fst :=
    funext fun p => coverOf_eq p.2 p.1.1 p.1.2.field
  have hcovers : r.covers table =
      (r.intervals.zip table.features).zipIdx.mapM fun p => coverOf p.2 p.1.1 p.1.2.field := rfl
  rw [hcovers, hsteps, ← List.mapM_map, List.zipIdx_map_fst, decomposed, ← mapM_mapError]

theorem expand_eq (r : Region) (table : FeatureTable) :
    r.expand table = ((r.decomposed table).map fun lists =>
      (tuples lists).map fun blocks => ⟨blocks, r.label⟩).mapError .domain := by
  simp only [expand, covers_eq, Odometer.choices_eq_tuples]
  cases r.decomposed table <;> rfl

theorem expand_of_decomposed {r : Region} {table : FeatureTable} {lists : List (List Block)}
    (h : r.decomposed table = .ok lists) :
    r.expand table = .ok ((tuples lists).map fun blocks => ⟨blocks, r.label⟩) := by
  rw [expand_eq, h]
  rfl

/-- Each interval ends within the field of its feature. -/
def Fits (r : Region) (table : FeatureTable) : Prop :=
  List.Forall₂ (fun i (f : Feature) => i.hi ≤ f.field.maxValue) r.intervals table.features

theorem exists_covers {is : List Interval} {fs : List Feature}
    (h : List.Forall₂ (fun i (f : Feature) => i.hi ≤ f.field.maxValue) is fs) :
    ∃ lists, Covers is fs lists ∧
      List.Forall₂ (fun (i, f) blocks => decompose f.field i.lo i.hi = .ok blocks)
        (is.zip fs) lists := by
  induction h with
  | nil => exact ⟨[], .nil, .nil⟩
  | @cons i f _ _ hi _ ih =>
      obtain ⟨blocks, hb, hcover⟩ := decompose_cover i.lo_le_hi hi
      obtain ⟨lists, hlists, hall⟩ := ih
      exact ⟨blocks :: lists, .cons hcover hlists, .cons hb hall⟩

namespace Fits

variable {r : Region} {table : FeatureTable}

theorem decomposed_eq_ok (h : r.Fits table) :
    ∃ lists, Covers r.intervals table.features lists ∧ r.decomposed table = .ok lists := by
  obtain ⟨lists, hlists, hall⟩ := exists_covers h
  exact ⟨lists, hlists, mapM_eq_ok.2 hall⟩

/-- A region within the fields of the table is expanded to the tuples of the covers. -/
theorem expand_eq_ok (h : r.Fits table) :
    ∃ lists, Covers r.intervals table.features lists ∧
      r.expand table = .ok ((tuples lists).map fun blocks => ⟨blocks, r.label⟩) := by
  obtain ⟨lists, hlists, hdecomposed⟩ := h.decomposed_eq_ok
  exact ⟨lists, hlists, expand_of_decomposed hdecomposed⟩

/-- The bodies of a region are exclusive, have the points of the region and its class. -/
theorem bodies (h : r.Fits table) {bodies : List RuleBody} (hb : r.expand table = .ok bodies) :
    Exclusive (fun (b : RuleBody) point => Matches b.blocks point) bodies ∧
      (∀ point, (∃ b ∈ bodies, Matches b.blocks point) ↔ Box r.intervals point) ∧
      ∀ b ∈ bodies, b.label = r.label := by
  obtain ⟨lists, hlists, hexpand⟩ := h.expand_eq_ok
  obtain rfl := Except.ok.inj (hexpand.symm.trans hb)
  refine ⟨List.pairwise_map.2 hlists.exclusive, fun point => ?_, fun b hb => ?_⟩
  · rw [← hlists.exists_matches]
    constructor
    · rintro ⟨b, hb, hm⟩
      obtain ⟨cell, hc, rfl⟩ := List.mem_map.1 hb
      exact ⟨cell, hc, hm⟩
    · rintro ⟨cell, hc, hm⟩
      exact ⟨_, List.mem_map_of_mem hc, hm⟩
  · obtain ⟨cell, _, rfl⟩ := List.mem_map.1 hb
    rfl

end Fits

end Region

/-- The region of a leaf lies within the fields of the table. -/
theorem fits_of_mem_regions {tree : Tree} {table : FeatureTable} {extraction : Extraction}
    {region : Region} (h : extract tree table = .ok extraction)
    (hr : region ∈ extraction.regions) : region.Fits table :=
  (intervals_subset h hr).imp fun _ f hi => Nat.le_trans (Interval.subset_iff.1 hi).2 f.hi_le

end TernaryRules
