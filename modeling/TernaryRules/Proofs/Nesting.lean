import TernaryRules.Proofs.Decomposition

/-!
# Nested blocks

A block can be read in three ways: as a range of values, as a start with a number of open bits, and
as a value under a mask.  The mask leaves open as many bits as the block has open ones
(`Block.setBits_mask`), and the keys that agree with the value under it are those of the range
(`Block.spans`).

The ranges of two blocks are nested or apart, whatever the widths of their fields, so blocks that
overlap share a key and one contains the other (`Block.nested`).  A block of a field is given by its
keys, and the decomposition of its range is the block alone (`Block.decompose_eq`).
-/

namespace TernaryRules

theorem Field.eq_of_bits {f g : Field} (h : f.bits = g.bits) : f = g := by
  cases f
  cases g
  cases h
  rfl

/-! ### The mask of a block -/

/-- The number of set bits of a word. -/
def setBits (word : Nat) : Nat := (List.range 64).countP word.testBit

theorem countP_range_between (w k : Nat) : ∀ n,
    ((List.range n).countP fun i => decide (w ≤ i ∧ i < k)) = min n k - w
  | 0 => by simp
  | n + 1 => by
      rw [List.range_succ, List.countP_append, List.countP_singleton, countP_range_between w k n]
      by_cases hn : w ≤ n ∧ n < k
      · rw [if_pos (decide_eq_true hn)]
        omega
      · rw [if_neg (by simpa using hn)]
        omega

namespace Block

theorem testBit_mask (b : Block) (i : Nat) :
    b.mask.testBit i = decide (b.wildcards ≤ i ∧ i < b.field.bits) := by
  have hle := b.wildcards_le
  rw [mask, Nat.testBit_xor, Field.maxValue, testBit_lowMask, testBit_lowMask]
  by_cases hw : b.wildcards ≤ i
  · simp [hw, Nat.not_lt.2 hw]
  · have hi : i < b.wildcards := Nat.lt_of_not_le hw
    simp [hw, hi, Nat.lt_of_lt_of_le hi hle]

/-- The mask has a bit for each bit of the field that is not open. -/
theorem setBits_mask (b : Block) : setBits b.mask = b.field.bits - b.wildcards := by
  have htest : b.mask.testBit = fun i => decide (b.wildcards ≤ i ∧ i < b.field.bits) :=
    funext b.testBit_mask
  rw [setBits, htest, countP_range_between, Nat.min_eq_right b.field.le_sixtyFour]

/-- The last value has all open bits set. -/
theorem last_eq_or (b : Block) : b.last = b.first ||| lowMask b.wildcards := by
  obtain ⟨q, hq⟩ := b.aligned
  have hlt : lowMask b.wildcards < 2 ^ b.wildcards := by
    rw [← lowMask_add_one]
    exact Nat.lt_succ_self _
  rw [last, hq, Nat.two_pow_add_eq_or_of_lt hlt]

/-- The block of the field that starts at `start` and leaves `k` bits open, as a range of values and
under its mask. -/
structure Spans (b : Block) (field : Field) (start k : Nat) : Prop where
  field_eq : b.field = field
  first_eq : b.first = start
  wildcards_eq : b.wildcards = k
  mask_open : b.field.bits - setBits b.mask = k
  last_open : b.last = b.first ||| lowMask k
  size_eq : b.size = 2 ^ k
  size_range : b.size = b.last - b.first + 1
  accepts_iff : ∀ key, b.accepts key = true ↔ b.first ≤ key ∧ key ≤ b.last

theorem spans (b : Block) : b.Spans b.field b.first b.wildcards where
  field_eq := rfl
  first_eq := rfl
  wildcards_eq := rfl
  mask_open := by rw [setBits_mask, Nat.sub_sub_self b.wildcards_le]
  last_open := b.last_eq_or
  size_eq := rfl
  size_range := by rw [last, Nat.add_sub_cancel_left, lowMask_add_one, size]
  accepts_iff _ := accepts_eq_true

/-! ### Two blocks -/

variable {a b : Block}

theorem overlaps_comm (a b : Block) : a.overlaps b = b.overlaps a :=
  decide_eq_decide.2 and_comm

theorem overlaps_eq_true : a.overlaps b = true ↔ ∃ key, key ∈ a.interval ∧ key ∈ b.interval := by
  rw [overlaps, decide_eq_true_iff]
  constructor
  · rintro ⟨hab, hba⟩
    exact ⟨max a.first b.first, ⟨Nat.le_max_left _ _, Nat.max_le.2 ⟨a.interval.lo_le_hi, hba⟩⟩,
      Nat.le_max_right _ _, Nat.max_le.2 ⟨hab, b.interval.lo_le_hi⟩⟩
  · rintro ⟨key, ha, hb⟩
    exact ⟨ha.1.trans hb.2, hb.1.trans ha.2⟩

theorem le_maxKey_of_mem {key : Nat} (h : key ∈ b.interval) : key ≤ maxKey :=
  h.2.trans (b.last_le.trans b.field.maxValue_le_maxKey)

/-- Two blocks are nested or apart. -/
theorem nested (h : a.overlaps b = true) : a.interval ⊆ b.interval ∨ b.interval ⊆ a.interval := by
  obtain ⟨key, ha, hb⟩ := overlaps_eq_true.1 h
  rcases Nat.le_total a.wildcards b.wildcards with hw | hw
  · exact .inl (interval_subset hw ha hb)
  · exact .inr (interval_subset hw hb ha)

/-- A block is given by its field and its keys. -/
theorem eq_iff_accepts (hf : a.field = b.field) :
    a = b ↔ ∀ key ≤ maxKey, a.accepts key = b.accepts key := by
  constructor
  · rintro rfl _ _
    rfl
  · intro h
    have hmem : ∀ key ≤ maxKey, key ∈ a.interval ↔ key ∈ b.interval := by
      intro key hkey
      rw [← accepts_eq_true, ← accepts_eq_true, h key hkey]
    exact eq_of_interval_eq hf (Interval.eq_of_subset
      (fun key ha => (hmem key (le_maxKey_of_mem ha)).1 ha)
      fun key hb => (hmem key (le_maxKey_of_mem hb)).2 hb)

/-- How two blocks lie to each other. -/
structure Laminar (a b : Block) : Prop where
  comm : a.overlaps b = b.overlaps a
  overlaps_iff : a.overlaps b = true ↔
    ∃ key ≤ maxKey, a.accepts key = true ∧ b.accepts key = true
  nested : a.overlaps b = true → a.interval ⊆ b.interval ∨ b.interval ⊆ a.interval
  eq_iff : a.field.bits = b.field.bits →
    (a = b ↔ ∀ key ≤ maxKey, a.accepts key = b.accepts key)

theorem laminar (a b : Block) : a.Laminar b where
  comm := overlaps_comm a b
  overlaps_iff := by
    simp only [overlaps_eq_true, accepts_eq_true]
    constructor
    · rintro ⟨key, ha, hb⟩
      exact ⟨key, le_maxKey_of_mem ha, ha, hb⟩
    · rintro ⟨key, -, ha, hb⟩
      exact ⟨key, ha, hb⟩
  nested := Block.nested
  eq_iff hbits := eq_iff_accepts (Field.eq_of_bits hbits)

end Block

/-! ### The decomposition of a block -/

/-- Blocks that follow one another through the range of one of them are that one. -/
theorem Tiles.eq_singleton {b : Block} {blocks : List Block} (h : Tiles b.first b.last blocks)
    (hb : b ∈ blocks) : blocks = [b] := by
  generalize hlo : b.first = lo at h
  generalize hhi : b.last = hi at h
  cases h with
  | last c => rw [List.mem_singleton.1 hb]
  | @cons c _ rest ht =>
      have hc := c.interval.lo_le_hi
      rcases List.mem_cons.1 hb with rfl | hb
      · -- nothing is left behind a block that ends where the range does
        exact absurd (hhi ▸ ht.le) (Nat.not_succ_le_self _)
      · have hfirst := (ht.bounds b hb).1
        rw [hlo] at hfirst
        exact absurd (Nat.le_trans hfirst hc) (Nat.not_succ_le_self _)

theorem Cover.eq_singleton {b : Block} {blocks : List Block}
    (h : Cover b.field b.first b.last blocks) : blocks = [b] := by
  obtain ⟨c, hc, hsub⟩ := h.exists_subset b rfl (Nat.le_refl _) (Nat.le_refl _)
  have hwithin : c.interval ⊆ b.interval := Interval.subset_iff.2 (h.tiles.bounds c hc)
  obtain rfl := Block.eq_of_interval_eq (h.field_eq c hc) (Interval.eq_of_subset hwithin hsub)
  exact h.tiles.eq_singleton hc

theorem Block.decompose_eq (b : Block) : decompose b.field b.first b.last = .ok [b] := by
  obtain ⟨blocks, hb, hcover⟩ := decompose_cover b.interval.lo_le_hi b.last_le
  exact hb.trans (congrArg Except.ok hcover.eq_singleton)

/-- **Aligned blocks are nested or apart.**  A start outside the field is refused, then one that is
no multiple of the size; any other one gives a block, whose mask, number of open bits and range say
the same.  Blocks that overlap share a key and are nested, blocks of one width are told apart by
their keys, and the range of a block is covered by the block alone. -/
theorem aligned_laminar (field : Field) (start wildcards : Nat) :
    (field.maxValue < start →
      Block.ofAligned field start wildcards = .error (.outOfField start field.bits)) ∧
    (start ≤ field.maxValue → ¬ 2 ^ min wildcards field.bits ∣ start →
      Block.ofAligned field start wildcards =
        .error (.misaligned start (min wildcards field.bits))) ∧
    (start ≤ field.maxValue → 2 ^ min wildcards field.bits ∣ start →
      ∃ b, Block.ofAligned field start wildcards = .ok b ∧
        b.Spans field start (min wildcards field.bits)) ∧
    ∀ a b : Block, a.Laminar b ∧ decompose a.field a.first a.last = .ok [a] := by
  refine ⟨fun hlt => ?_, fun hs hd => ?_, fun hs hd => ?_, fun a b => ?_⟩
  · rw [Block.ofAligned, dif_neg (Nat.not_le.2 hlt)]
  · rw [Block.ofAligned, dif_pos hs, dif_neg hd]
  · refine ⟨_, ?_, Block.spans ⟨field, start, min wildcards field.bits, Nat.min_le_right _ _, hs,
      hd⟩⟩
    rw [Block.ofAligned, dif_pos hs, dif_pos hd]
  · exact ⟨a.laminar b, a.decompose_eq⟩

/-- With more open bits than the widest field has, a block holds every key, so a block of four bits
overlaps it. -/
theorem aligned_laminar_widest :
    ∃ a b, Block.ofAligned .widest 0 70 = .ok a ∧ a.Spans .widest 0 64 ∧
      Block.ofAligned .nibble 4 2 = .ok b ∧ b.Spans .nibble 4 2 ∧
      a.Laminar b ∧ a.overlaps b = true ∧ decompose .widest a.first a.last = .ok [a] := by
  have hzero : 0 ≤ Field.widest.maxValue := Nat.zero_le _
  obtain ⟨a, ha, hwidest⟩ := (aligned_laminar .widest 0 70).2.2.1 hzero (Nat.dvd_zero _)
  obtain ⟨b, hb, hnibble⟩ := (aligned_laminar .nibble 4 2).2.2.1 (by decide) (by decide)
  obtain ⟨hlaminar, hdecompose⟩ := (aligned_laminar .widest 0 70).2.2.2 a b
  refine ⟨a, b, ha, hwidest, hb, hnibble, hlaminar, ?_, hwidest.field_eq ▸ hdecompose⟩
  refine hlaminar.overlaps_iff.2 ⟨5, by decide, ?_, ?_⟩
  · rw [hwidest.accepts_iff, hwidest.last_open, hwidest.first_eq]
    decide
  · rw [hnibble.accepts_iff, hnibble.last_open, hnibble.first_eq]
    decide

end TernaryRules
