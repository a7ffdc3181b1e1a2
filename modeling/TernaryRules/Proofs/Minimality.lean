import TernaryRules.Proofs.Expansion

/-!
# Few rules for a leaf

A tuple of blocks inside a region lies in one tuple of the covers of its intervals, coordinate by
coordinate, since the covers take the largest blocks.  So any tuples that match the points of the
region, overlapping or not, refine the partition of the region by the tuples of the covers
(`Covers.refines`), and there are at least as many of them.  With no more than that, they are the
tuples of the covers (`expand_minimal`).
-/

namespace TernaryRules

/-- Tuples of blocks that match the points of a region refine the covers of its intervals. -/
theorem Covers.refines {is : List Interval} {fs : List Feature} {lists : List (List Block)}
    (h : Covers is fs lists) {others : List (List Block)}
    (hf : ∀ t ∈ others, t.map Block.field = fs.map Feature.field)
    (hp : ∀ point, (∀ v ∈ point, v ≤ maxKey) → ((∃ t ∈ others, Matches t point) ↔ Box is point)) :
    Refines Matches others (tuples lists) where
  inside t ht := by
    have hbox : ∀ point, Box (t.map Block.interval) point → Box is point := by
      intro point hm
      have hm := matches_iff_box.2 hm
      exact (hp point hm.le_maxKey).1 ⟨t, ht, hm⟩
    exact h.exists_subset (hf t ht) (List.forall₂_map_left_iff.1 (Box.subset_iff.1 hbox))
  covered cell hc point hm :=
    (hp point hm.le_maxKey).2 (h.exists_matches.1 ⟨cell, hc, hm⟩)

variable {tree : Tree} {table : FeatureTable} {extraction : Extraction} {region : Region}

/-- **The rules of a leaf are as few as can be.**  The region of a leaf is expanded to no more
bodies than there are tuples in any list of tuples of blocks of the fields that matches the points
of the region, and a list that is no longer is a rearrangement of the expanded one. -/
theorem expand_minimal (h : extract tree table = .ok extraction)
    (hr : region ∈ extraction.regions) {others : List (List Block)}
    (hf : ∀ t ∈ others, t.map Block.field = table.features.map Feature.field)
    (hp : ∀ point, (∀ v ∈ point, v ≤ maxKey) →
      ((∃ t ∈ others, Matches t point) ↔ region.contains point = true)) :
    ∃ bodies, region.expand table = .ok bodies ∧ bodies.length ≤ others.length ∧
      (others.length = bodies.length → others.Perm (bodies.map RuleBody.blocks)) := by
  obtain ⟨lists, hlists, hexpand⟩ := (fits_of_mem_regions h hr).expand_eq_ok
  have hrefines : Refines Matches others (tuples lists) :=
    hlists.refines hf fun point hv => (hp point hv).trans Region.contains_eq_true
  have hinhabited : ∀ cell ∈ tuples lists, ∃ point, Matches cell point :=
    fun cell _ => ⟨_, matches_corner cell⟩
  refine ⟨_, hexpand, ?_, fun hlen => ?_⟩
  · rw [List.length_map]
    exact hrefines.length_le hlists.exclusive hinhabited
  · rw [List.length_map] at hlen
    rw [List.map_map]
    refine (List.map_id _).symm ▸ hrefines.perm hlists.exclusive hinhabited ?_ hlen
    intro t ht cell hc
    exact eq_of_matches_iff ((hf t ht).trans (hlists.fields_eq hc).symm)

/-- The cover of 8 to 12 in four bits, from the top down. -/
def upperHalf : List (List Block) :=
  [[⟨.nibble, 12, 0, by decide, by decide, by decide⟩],
    [⟨.nibble, 8, 2, by decide, by decide, by decide⟩]]

theorem matches_upperHalf {point : List Nat} :
    (∃ t ∈ upperHalf, Matches t point) ↔ Box [⟨8, 12, by decide⟩] point := by
  simp only [upperHalf, List.mem_cons, List.not_mem_nil, or_false, exists_eq_or_imp,
    exists_eq_left, matches_iff_box, List.map_cons, List.map_nil]
  rcases point with _ | ⟨v, _ | ⟨u, rest⟩⟩
  · simp [Box]
  · simp [Box, Interval.mem_def, Block.interval, Block.last, lowMask]
    omega
  · simp [Box]

theorem expand_minimal_upperHalf :
    ∃ bodies, Region.expand ⟨2, 9, [⟨8, 12, by decide⟩]⟩ .nibble = .ok bodies ∧
      bodies.length ≤ upperHalf.length ∧
      (upperHalf.length = bodies.length → upperHalf.Perm (bodies.map RuleBody.blocks)) := by
  have h : extract (Tree.stump 7 4 9) .nibble = .ok .halves := rfl
  refine expand_minimal h (by simp [Extraction.halves]) (by decide) fun point _ => ?_
  rw [Region.contains_eq_true]
  exact matches_upperHalf

end TernaryRules
