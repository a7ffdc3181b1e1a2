import TernaryRules.Proofs.Count

/-!
# Decompositions

Within a field `decompose` answers with blocks that cover the interval exactly: they follow one
another from its lower to its upper end, so a key of the interval is accepted by one of them and no
other key by any (`decompose_exact`).  `blockCount` answers with the length of that list, or with
the same error (`blockCount_eq_map`).

Of all lists of blocks with the keys of the interval it is the best one.  Its blocks are the largest
blocks of the interval, those that lie in no other block of it (`Interval.Largest`), because each
block of the interval lies in one of them.  So any other cover refines it: it is at least as long,
and if it is no longer it is the same list in another order (`decompose_optimal`).
-/

namespace TernaryRules

/-! ### Blocks of a field -/

/-- The block can be made of the field, with some start and some number of open bits. -/
def Field.Makes (field : Field) (b : Block) : Prop :=
  ∃ start wildcards, Block.ofAligned field start wildcards = .ok b

theorem Field.makes_iff {field : Field} {b : Block} : field.Makes b ↔ b.field = field := by
  constructor
  · rintro ⟨start, wildcards, h⟩
    unfold Block.ofAligned at h
    split at h
    · split at h
      · rw [← Except.ok.inj h]
      · cases h
    · cases h
  · rintro rfl
    have hw : min b.wildcards b.field.bits = b.wildcards := Nat.min_eq_left b.wildcards_le
    refine ⟨b.first, b.wildcards, ?_⟩
    rw [Block.ofAligned, dif_pos b.first_le, dif_pos (hw.symm ▸ b.aligned)]
    simp only [hw]

/-- The value of a block has no bit outside its mask. -/
theorem Block.testBit_first {b : Block} {i : Nat} (h : b.mask.testBit i = false) :
    b.first.testBit i = false := by
  have hfirst : b.first &&& b.mask = b.first := by
    have := accepts_eq_true.2 b.first_mem
    rw [accepts, Bool.and_eq_true, beq_iff_eq] at this
    exact this.2
  rw [← hfirst, Nat.testBit_and, h, Bool.and_false]

/-! ### Exact covers -/

namespace Tiles

variable {lo hi : Nat} {blocks : List Block}

theorem head? (h : Tiles lo hi blocks) : blocks.head?.map Block.first = some lo := by
  cases h with
  | last b => rfl
  | cons b _ => rfl

theorem isChain (h : Tiles lo hi blocks) : blocks.IsChain fun a b => b.first = a.last + 1 := by
  induction h with
  | last b => exact .singleton b
  | cons b ht ih =>
      refine List.isChain_cons.2 ⟨fun c hc => ?_, ih⟩
      have hfirst := ht.head?
      rw [hc] at hfirst
      exact Option.some.inj hfirst

/-- A key between the bounds is accepted by the block at one position. -/
theorem existsUnique_accepts (h : Tiles lo hi blocks) {key : Nat} (hkey : lo ≤ key ∧ key ≤ hi) :
    ∃! k : Nat, ∃ b, blocks[k]? = some b ∧ b.accepts key = true := by
  obtain ⟨b, hb, hmem⟩ := h.mem_iff.2 hkey
  exact h.exclusive.existsUnique_position ⟨b, hb, Block.accepts_eq_true.2 hmem⟩

theorem accepts_eq_false (h : Tiles lo hi blocks) {key : Nat} (hkey : ¬ (lo ≤ key ∧ key ≤ hi)) :
    ∀ b ∈ blocks, b.accepts key = false := by
  intro b hb
  rw [← Bool.not_eq_true, Block.accepts_eq_true]
  exact fun hmem => hkey (h.mem_iff.1 ⟨b, hb, hmem⟩)

end Tiles

/-- The blocks follow one another from `lo` to `hi` without a gap, and each key between the two is
accepted by one of them. -/
structure ExactCover (field : Field) (lo hi : Nat) (blocks : List Block) : Prop where
  ne_nil : blocks ≠ []
  bits_eq : ∀ b ∈ blocks, b.field.bits = field.bits
  head_first : blocks.head?.map Block.first = some lo
  last_last : blocks.getLast?.map Block.last = some hi
  next_first : blocks.IsChain fun a b => b.first = a.last + 1
  size_dvd : ∀ b ∈ blocks, b.size ∣ b.first
  open_bits : ∀ b ∈ blocks, ∀ i, b.mask.testBit i = false → b.first.testBit i = false
  accepted : ∀ key, lo ≤ key ∧ key ≤ hi →
    ∃! k : Nat, ∃ b, blocks[k]? = some b ∧ b.accepts key = true
  refused : ∀ key, ¬ (lo ≤ key ∧ key ≤ hi) → ∀ b ∈ blocks, b.accepts key = false

theorem Cover.exact {field : Field} {lo hi : Nat} {blocks : List Block}
    (h : Cover field lo hi blocks) : ExactCover field lo hi blocks where
  ne_nil hnil := by
    have hfirst := h.tiles.head?
    rw [hnil] at hfirst
    cases hfirst
  bits_eq b hb := congrArg Field.bits (h.field_eq b hb)
  head_first := h.tiles.head?
  last_last := h.tiles.getLast?
  next_first := h.tiles.isChain
  size_dvd b _ := b.aligned
  open_bits _ _ _ := Block.testBit_first
  accepted _ := h.tiles.existsUnique_accepts
  refused _ := h.tiles.accepts_eq_false

/-- `blockCount` answers with the length of the list, or with the same error. -/
theorem blockCount_eq_map (field : Field) (lo hi : Nat) :
    blockCount field lo hi = (decompose field lo hi).map List.length := by
  rw [blockCount, decompose]
  cases Walk.ofBounds field lo hi with
  | error e => rfl
  | ok w => exact congrArg Except.ok w.count_eq_length

/-- **Decompositions are exact.**  An interval that is empty or does not end within the field is
refused, in this order; any other one is covered exactly. -/
theorem decompose_exact (field : Field) (lo hi : Nat) :
    (hi < lo → decompose field lo hi = .error (.emptyInterval lo hi)) ∧
    (lo ≤ hi → field.maxValue < hi → decompose field lo hi = .error (.outOfField hi field.bits)) ∧
    (lo ≤ hi → hi ≤ field.maxValue →
      ∃ blocks, decompose field lo hi = .ok blocks ∧ ExactCover field lo hi blocks) ∧
    blockCount field lo hi = (decompose field lo hi).map List.length := by
  refine ⟨fun hlt => ?_, fun hl hlt => ?_, fun hl hh => ?_, blockCount_eq_map field lo hi⟩
  · rw [decompose, Walk.ofBounds, dif_neg (Nat.not_le.2 hlt)]
    rfl
  · rw [decompose, Walk.ofBounds, dif_pos hl, dif_neg (Nat.not_le.2 hlt)]
    rfl
  · obtain ⟨blocks, hb, hcover⟩ := decompose_cover hl hh
    exact ⟨blocks, hb, hcover.exact⟩

/-- The widest field. -/
def Field.widest : Field := ⟨64, by decide, by decide⟩

/-- At the top of the widest field, where no sum may pass `maxKey`. -/
theorem decompose_exact_top :
    ∃ blocks, decompose .widest (maxKey - 2) maxKey = .ok blocks ∧
      ExactCover .widest (maxKey - 2) maxKey blocks :=
  (decompose_exact .widest (maxKey - 2) maxKey).2.2.1 (by decide) (by decide)

/-! ### Largest blocks -/

/-- A block of the field that lies in the interval, and in no other block that does. -/
structure Interval.Largest (i : Interval) (field : Field) (b : Block) : Prop where
  made : field.Makes b
  within : b.interval ⊆ i
  eq_of_subset : ∀ a, field.Makes a → a.interval ⊆ i → b.interval ⊆ a.interval → a = b

namespace Cover

variable {field : Field} {i : Interval} {blocks : List Block}

/-- The blocks of a cover are the largest ones of the interval. -/
theorem mem_iff_largest (h : Cover field i.lo i.hi blocks) {b : Block} :
    b ∈ blocks ↔ i.Largest field b := by
  have hwithin : ∀ c ∈ blocks, c.interval ⊆ i := fun c hc =>
    Interval.subset_iff.2 (h.tiles.bounds c hc)
  have hin : ∀ a, field.Makes a → a.interval ⊆ i → ∃ c ∈ blocks, a.interval ⊆ c.interval := by
    intro a ha hsub
    obtain ⟨hlo, hhi⟩ := Interval.subset_iff.1 hsub
    exact h.exists_subset a (Field.makes_iff.1 ha) hlo hhi
  constructor
  · intro hb
    refine ⟨Field.makes_iff.2 (h.field_eq b hb), hwithin b hb, fun a ha hai hba => ?_⟩
    obtain ⟨c, hc, hac⟩ := hin a ha hai
    -- `b` and the block around `a` share a key, so they are one block
    have hbc : b = c := h.tiles.exclusive.eq_of_mem hb hc
      (Block.accepts_eq_true.2 b.first_mem)
      (Block.accepts_eq_true.2 (hac _ (hba _ b.first_mem)))
    have hfield : a.field = b.field := (Field.makes_iff.1 ha).trans (h.field_eq b hb).symm
    exact Block.eq_of_interval_eq hfield (Interval.eq_of_subset (hbc ▸ hac) hba)
  · intro hb
    obtain ⟨c, hc, hbc⟩ := hin b hb.made hb.within
    obtain rfl := hb.eq_of_subset c (Field.makes_iff.2 (h.field_eq c hc)) (hwithin c hc) hbc
    exact hc

/-- A cover of the interval that is no longer consists of the same blocks. -/
theorem perm (h : Cover field i.lo i.hi blocks) {others : List Block}
    (ho : i.CoveredBy field others) (hlen : others.length = blocks.length) :
    others.Perm blocks := by
  refine (h.refines ho).perm h.tiles.exclusive
    (fun c _ => ⟨c.first, Block.accepts_eq_true.2 c.first_mem⟩) (fun a ha c hc hac => ?_) hlen
  simp only [Block.accepts_eq_true] at hac
  have hfield : a.field = c.field := (ho.1 a ha).trans (h.field_eq c hc).symm
  exact Block.eq_of_interval_eq hfield
    (Interval.eq_of_subset (fun v => (hac v).1) fun v => (hac v).2)

end Cover

/-- Whether blocks cover an interval of their field is seen on the keys up to `maxKey`. -/
theorem Interval.coveredBy_of_keys {i : Interval} {field : Field} (hi : i.hi ≤ field.maxValue)
    {blocks : List Block} (hm : ∀ b ∈ blocks, field.Makes b)
    (hk : ∀ key ≤ maxKey, (∃ b ∈ blocks, b.accepts key = true) ↔ key ∈ i) :
    i.CoveredBy field blocks := by
  refine ⟨fun b hb => Field.makes_iff.1 (hm b hb), fun key => ?_⟩
  by_cases hkey : key ≤ maxKey
  · exact hk key hkey
  · constructor
    · rintro ⟨b, -, hb⟩
      have hlast := (Block.accepts_eq_true.1 hb).2
      exact absurd (hlast.trans (b.last_le.trans b.field.maxValue_le_maxKey)) hkey
    · intro hmem
      exact absurd (hmem.2.trans (hi.trans field.maxValue_le_maxKey)) hkey

/-- **Decompositions are optimal.**  The blocks of a decomposition are in increasing order and are
the largest blocks of the interval.  No list of blocks with the keys of the interval is shorter,
be they disjoint or not, and one that is as long is a rearrangement. -/
theorem decompose_optimal {field : Field} {i : Interval} (hi : i.hi ≤ field.maxValue) :
    ∃ blocks, decompose field i.lo i.hi = .ok blocks ∧
      (blocks.Pairwise fun a b => a.last < b.first) ∧
      (∀ b, b ∈ blocks ↔ i.Largest field b) ∧
      ∀ others : List Block, (∀ b ∈ others, field.Makes b) →
        (∀ key ≤ maxKey, (∃ b ∈ others, b.accepts key = true) ↔ key ∈ i) →
          blocks.length ≤ others.length ∧
            (others.length = blocks.length → others.Perm blocks) := by
  obtain ⟨blocks, hb, hcover⟩ := decompose_cover i.lo_le_hi hi
  refine ⟨blocks, hb, hcover.tiles.pairwise_lt, fun b => hcover.mem_iff_largest, ?_⟩
  intro others hm hk
  have ho := Interval.coveredBy_of_keys hi hm hk
  refine ⟨?_, hcover.perm ho⟩
  exact (hcover.refines ho).length_le hcover.tiles.exclusive fun c _ =>
    ⟨c.first, Block.accepts_eq_true.2 c.first_mem⟩

/-- The three largest keys. -/
def Interval.top : Interval := ⟨maxKey - 2, maxKey, by decide⟩

/-- A cover of the three largest keys by a pair and two single ones, which overlap. -/
def topCover : List Block :=
  [⟨.widest, maxKey - 1, 1, by decide, by decide, by decide⟩,
    ⟨.widest, maxKey, 0, by decide, by decide, by decide⟩,
    ⟨.widest, maxKey - 2, 0, by decide, by decide, by decide⟩]

theorem decompose_optimal_top :
    ∃ blocks, decompose .widest Interval.top.lo Interval.top.hi = .ok blocks ∧
      (∀ b, b ∈ blocks ↔ Interval.top.Largest .widest b) ∧
      blocks.length ≤ topCover.length := by
  have htop : Interval.top.hi ≤ Field.widest.maxValue := by decide
  obtain ⟨blocks, hb, -, hlargest, hbest⟩ := decompose_optimal htop
  have hmade : ∀ b ∈ topCover, Field.widest.Makes b := by
    simp only [Field.makes_iff]
    decide
  refine ⟨blocks, hb, hlargest, (hbest topCover hmade fun key _ => ?_).1⟩
  simp [topCover, Block.accepts_eq_true, Block.interval, Block.last, lowMask, Interval.top,
    Interval.mem_def, maxKey]
  omega

end TernaryRules
