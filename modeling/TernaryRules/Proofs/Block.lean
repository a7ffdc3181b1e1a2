import TernaryRules.Rule
import TernaryRules.Proofs.Box

/-!
# Blocks as intervals

The comparison under the mask of a block accepts the values of its interval and no others
(`Block.accepts_eq_true`): on the keys of the field the mask clears the low bits, which is a
division by a power of two (`Field.and_mask`).  So the tuples of blocks match the points of a box
(`matches_iff_box`).

Two aligned blocks that share a value are nested, the one with fewer open bits inside the other
(`Block.interval_subset`).
-/

namespace TernaryRules

theorem lowMask_add_one (k : Nat) : lowMask k + 1 = 2 ^ k :=
  Nat.sub_add_cancel (Nat.two_pow_pos k)

theorem lowMask_mono {v w : Nat} (h : v ≤ w) : lowMask v ≤ lowMask w :=
  Nat.sub_le_sub_right (Nat.pow_le_pow_right Nat.two_pos h) 1

theorem testBit_lowMask (k i : Nat) : (lowMask k).testBit i = decide (i < k) :=
  Nat.testBit_two_pow_sub_one k i

/-- A key of the field, taken under the mask of `w` open bits, is rounded down to a multiple of
`2 ^ w`. -/
theorem Field.and_mask (f : Field) {w key : Nat} (hk : key ≤ f.maxValue) :
    key &&& (f.maxValue ^^^ lowMask w) = 2 ^ w * (key / 2 ^ w) := by
  refine Nat.eq_of_testBit_eq fun i => ?_
  rw [Nat.testBit_and, Nat.testBit_xor, Nat.testBit_two_pow_mul, Nat.testBit_div_two_pow,
    Field.maxValue, testBit_lowMask, testBit_lowMask]
  by_cases hi : i < f.bits
  · by_cases hw : w ≤ i
    · simp [hi, hw, Nat.not_lt.2 hw]
    · simp [hi, hw, Nat.lt_of_not_le hw]
  · -- above the width of the field the key has no bits
    have hlt : key < 2 ^ i :=
      calc key < lowMask f.bits + 1 := Nat.lt_succ_of_le hk
        _ = 2 ^ f.bits := lowMask_add_one _
        _ ≤ 2 ^ i := Nat.pow_le_pow_right Nat.two_pos (Nat.le_of_not_lt hi)
    have hbit : key.testBit i = false := Nat.testBit_lt_two_pow hlt
    by_cases hw : w ≤ i
    · simp [hbit, hw]
    · simp [hbit, hw]

theorem Field.maxValue_le_maxKey (f : Field) : f.maxValue ≤ maxKey :=
  lowMask_mono f.le_sixtyFour

namespace Block

theorem last_add_one (b : Block) : b.last + 1 = b.first + 2 ^ b.wildcards := by
  rw [last, Nat.add_assoc, lowMask_add_one]

theorem mem_interval {b : Block} {v : Nat} : v ∈ b.interval ↔ b.first ≤ v ∧ v ≤ b.last := Iff.rfl

theorem first_mem (b : Block) : b.first ∈ b.interval := b.interval.lo_mem

/-- The values of a block agree above its open bits. -/
theorem mem_interval_iff_div {b : Block} {v : Nat} :
    v ∈ b.interval ↔ v / 2 ^ b.wildcards = b.first / 2 ^ b.wildcards := by
  obtain ⟨q, hq⟩ := b.aligned
  have hpos : 0 < 2 ^ b.wildcards := Nat.two_pow_pos _
  have hlast := b.last_add_one
  rw [mem_interval, hq, Nat.mul_div_cancel_left q hpos, Nat.div_eq_iff hpos, Nat.mul_comm q]
  constructor
  · intro h
    omega
  · intro h
    omega

/-- A block ends within its field. -/
theorem last_le (b : Block) : b.last ≤ b.field.maxValue := by
  obtain ⟨q, hq⟩ := b.aligned
  obtain ⟨k, hk⟩ := Nat.exists_eq_add_of_le b.wildcards_le
  have hbits : 2 ^ b.field.bits = 2 ^ b.wildcards * 2 ^ k := by rw [hk, Nat.pow_add]
  have hfirst : 2 ^ b.wildcards * q < 2 ^ b.wildcards * 2 ^ k := by
    rw [← hq, ← hbits, ← lowMask_add_one]
    exact Nat.lt_succ_of_le b.first_le
  have hq' : q + 1 ≤ 2 ^ k := Nat.lt_of_mul_lt_mul_left hfirst
  refine Nat.le_of_lt_succ ?_
  calc b.last < b.last + 1 := Nat.lt_succ_self _
    _ = 2 ^ b.wildcards * (q + 1) := by rw [last_add_one, hq, Nat.mul_succ]
    _ ≤ 2 ^ b.wildcards * 2 ^ k := Nat.mul_le_mul_left _ hq'
    _ = b.field.maxValue + 1 := by rw [← hbits, Field.maxValue, lowMask_add_one]

/-- Comparison under the mask is membership in the interval. -/
theorem accepts_eq_true {b : Block} {key : Nat} : b.accepts key = true ↔ key ∈ b.interval := by
  rw [accepts, Bool.and_eq_true, Field.contains, decide_eq_true_iff, beq_iff_eq]
  constructor
  · rintro ⟨hk, hm⟩
    rw [mask, b.field.and_mask hk] at hm
    rw [mem_interval_iff_div, ← hm, Nat.mul_div_cancel_left _ (Nat.two_pow_pos _)]
  · intro h
    have hk : key ≤ b.field.maxValue := Nat.le_trans h.2 b.last_le
    refine ⟨hk, ?_⟩
    rw [mask, b.field.and_mask hk, mem_interval_iff_div.1 h, Nat.mul_div_cancel' b.aligned]

/-- Blocks that share a value are nested. -/
theorem interval_subset {a b : Block} (hw : a.wildcards ≤ b.wildcards) {v : Nat}
    (ha : v ∈ a.interval) (hb : v ∈ b.interval) : a.interval ⊆ b.interval := by
  obtain ⟨k, hk⟩ := Nat.exists_eq_add_of_le hw
  intro u hu
  have huv : u / 2 ^ a.wildcards = v / 2 ^ a.wildcards :=
    (mem_interval_iff_div.1 hu).trans (mem_interval_iff_div.1 ha).symm
  rw [mem_interval_iff_div, ← mem_interval_iff_div.1 hb, hk, Nat.pow_add, ← Nat.div_div_eq_div_mul,
    ← Nat.div_div_eq_div_mul, huv]

/-- A block is given by its field and its interval. -/
theorem eq_of_interval_eq {a b : Block} (hf : a.field = b.field) (h : a.interval = b.interval) :
    a = b := by
  have hfirst : a.first = b.first := congrArg Interval.lo h
  have hlast : a.last = b.last := congrArg Interval.hi h
  have hpow : 2 ^ a.wildcards = 2 ^ b.wildcards := by
    have := a.last_add_one
    rw [hlast, b.last_add_one, hfirst] at this
    exact (Nat.add_left_cancel this).symm
  have hw : a.wildcards = b.wildcards := (Nat.pow_right_inj Nat.one_lt_two).1 hpow
  cases a
  cases b
  cases hf
  cases hfirst
  cases hw
  rfl

end Block

/-- The points with one coordinate accepted by each block. -/
def Matches (blocks : List Block) (point : List Nat) : Prop :=
  List.Forall₂ (fun b v => b.accepts v = true) blocks point

theorem matches_iff_box {blocks : List Block} {point : List Nat} :
    Matches blocks point ↔ Box (blocks.map Block.interval) point := by
  simp only [Matches, Block.accepts_eq_true, Box, List.forall₂_map_left_iff]

theorem Rule.accepts_eq_true {r : Rule} {point : List Nat} :
    r.accepts point = true ↔ Matches r.blocks point :=
  forall₂_iff_zip_all Block.accepts

/-- The lower corner of a tuple of blocks. -/
theorem matches_corner (blocks : List Block) : Matches blocks (blocks.map Block.first) := by
  have h := Box.corner (blocks.map Block.interval)
  rw [List.map_map] at h
  exact matches_iff_box.2 h

theorem Matches.le_maxKey {blocks : List Block} {point : List Nat} (h : Matches blocks point) :
    ∀ v ∈ point, v ≤ maxKey := by
  induction h with
  | nil => exact fun v hv => absurd hv List.not_mem_nil
  | @cons b v _ _ hb _ ih =>
      intro u hu
      rcases List.mem_cons.1 hu with rfl | hu
      · have hlast := (Block.accepts_eq_true.1 hb).2
        exact Nat.le_trans hlast (Nat.le_trans b.last_le b.field.maxValue_le_maxKey)
      · exact ih u hu

/-- Tuples of blocks are contained in each other coordinate by coordinate. -/
theorem matches_subset_iff {s t : List Block} :
    (∀ point, Matches s point → Matches t point) ↔
      List.Forall₂ (fun (a b : Block) => a.interval ⊆ b.interval) s t := by
  simp only [matches_iff_box, Box.subset_iff, List.forall₂_map_left_iff, List.forall₂_map_right_iff]

/-- A tuple of blocks is given by the fields and the points. -/
theorem eq_of_matches_iff {s t : List Block} (hf : s.map Block.field = t.map Block.field)
    (h : ∀ point, Matches s point ↔ Matches t point) : s = t := by
  have hst := matches_subset_iff.1 fun point => (h point).1
  have hts := matches_subset_iff.1 fun point => (h point).2
  clear h
  induction hst with
  | nil => rfl
  | cons hab _ ih =>
      cases hts with
      | cons hba hts =>
          obtain ⟨hfield, hfields⟩ := List.cons.inj hf
          have hblock := Block.eq_of_interval_eq hfield (Interval.eq_of_subset hab hba)
          exact congrArg₂ List.cons hblock (ih hfields hts)

end TernaryRules
