import TernaryRules.Proofs.Decomposition
import TernaryRules.Rule.Audit

/-!
# Audits of covers

An audit of blocks goes through them once, with the value at which the next block has to start
(`Audit.coversFrom_cons`).  It passes the lists that tile the interval with blocks of the right
width, and no others (`Audit.coversFrom_eq_ok_iff`).  Above the largest key there is nowhere for a
block to start, so the audit turns away no tiling when it stops at a block that ends there.

Blocks tile an interval when the first starts at its lower end, each of the others just above the
one before it, and the last one ends at its upper end (`tiles_iff`).  The main statement,
`Audit.covers_eq_ok_iff_chain`, says so without the tiling.
-/

namespace TernaryRules

/-- Each block is aligned. -/
theorem Block.stray_eq_zero (b : Block) : b.stray = 0 := by
  refine Nat.eq_of_testBit_eq fun i => ?_
  rw [stray, Nat.testBit_and, Nat.testBit_xor, Nat.zero_testBit, maxKey,
    Nat.testBit_two_pow_sub_one]
  cases hmask : b.mask.testBit i with
  | false => rw [testBit_first hmask, Bool.false_and]
  | true =>
      -- no bit of the mask is above those of a key
      have hbits : i < b.field.bits := by
        by_contra hi
        rw [mask, Nat.testBit_xor, Field.maxValue, testBit_lowMask, testBit_lowMask] at hmask
        have hw := b.wildcards_le
        simp [hi, Nat.not_lt.2 (hw.trans (Nat.le_of_not_lt hi))] at hmask
      rw [decide_eq_true (Nat.lt_of_lt_of_le hbits b.field.le_sixtyFour), Bool.true_xor,
        Bool.not_true, Bool.and_false]

theorem Block.first_le_maxKey (b : Block) : b.first ≤ maxKey :=
  b.first_le.trans b.field.maxValue_le_maxKey

/-! ### Tilings as chains -/

section Tilings

variable {lo hi : Nat}

theorem not_tiles_nil : ¬ Tiles lo hi [] := fun h => nomatch h.head?

theorem tiles_singleton_iff {b : Block} : Tiles lo hi [b] ↔ b.first = lo ∧ b.last = hi := by
  constructor
  · intro h
    cases h with
    | last b => exact ⟨rfl, rfl⟩
    | cons b h => exact absurd h not_tiles_nil
  · rintro ⟨rfl, rfl⟩
    exact .last b

theorem tiles_cons_iff {b c : Block} {rest : List Block} :
    Tiles lo hi (b :: c :: rest) ↔ b.first = lo ∧ Tiles (b.last + 1) hi (c :: rest) := by
  constructor
  · intro h
    cases h with
    | cons b h => exact ⟨rfl, h⟩
  · rintro ⟨rfl, h⟩
    exact .cons b h

theorem tiles_of_isChain : ∀ {blocks : List Block} {lo : Nat},
    blocks.head?.map Block.first = some lo →
      (blocks.IsChain fun a b => b.first = a.last + 1) →
        blocks.getLast?.map Block.last = some hi → Tiles lo hi blocks
  | [], _, hhead, _, _ => nomatch hhead
  | [b], _, hhead, _, hlast =>
      tiles_singleton_iff.2 ⟨Option.some.inj hhead, Option.some.inj hlast⟩
  | b :: c :: rest, _, hhead, hchain, hlast => by
      obtain ⟨hnext, hchain⟩ := List.isChain_cons_cons.1 hchain
      rw [List.getLast?_cons_cons] at hlast
      have hrest : Tiles (b.last + 1) hi (c :: rest) :=
        tiles_of_isChain (congrArg some hnext) hchain hlast
      exact tiles_cons_iff.2 ⟨Option.some.inj hhead, hrest⟩

/-- Blocks tile an interval when they are a chain from its lower to its upper end. -/
theorem tiles_iff {blocks : List Block} :
    Tiles lo hi blocks ↔
      blocks.head?.map Block.first = some lo ∧
      (blocks.IsChain fun a b => b.first = a.last + 1) ∧
      blocks.getLast?.map Block.last = some hi :=
  ⟨fun h => ⟨h.head?, h.isChain, h.getLast?⟩, fun ⟨hhead, hchain, hlast⟩ =>
    tiles_of_isChain hhead hchain hlast⟩

end Tilings

namespace Audit

/-! ### One block after the other -/

section Blocks

variable {field : Field} {hi index expected : Nat} {b c : Block} {rest : List Block}

theorem coversFrom_singleton :
    coversFrom field hi index expected [b] = .ok () ↔
      b.field.bits = field.bits ∧ b.first = expected ∧ b.last = hi := by
  rw [coversFrom, if_neg (not_not_intro b.stray_eq_zero), List.isEmpty_nil, if_pos rfl]
  by_cases hbits : b.field.bits = field.bits
  · by_cases hfirst : b.first = expected
    · by_cases hlast : b.last = hi
      · simp [hbits, hfirst, hlast]
      · simp [hbits, hfirst, hlast]
    · simp [hbits, hfirst]
  · simp [hbits]

theorem coversFrom_cons :
    coversFrom field hi index expected (b :: c :: rest) = .ok () ↔
      b.field.bits = field.bits ∧ b.first = expected ∧ b.last ≠ maxKey ∧
        coversFrom field hi (index + 1) (b.last + 1) (c :: rest) = .ok () := by
  rw [coversFrom, if_neg (not_not_intro b.stray_eq_zero), List.isEmpty_cons,
    if_neg Bool.false_ne_true]
  by_cases hbits : b.field.bits = field.bits
  · by_cases hfirst : b.first = expected
    · by_cases hlast : b.last = maxKey
      · simp [hbits, hfirst, hlast]
      · simp [hbits, hfirst, hlast]
    · simp [hbits, hfirst]
  · simp [hbits]

/-- **The blocks that pass are the tilings by blocks of the right width.** -/
theorem coversFrom_eq_ok_iff :
    coversFrom field hi index expected (b :: rest) = .ok () ↔
      (∀ c ∈ b :: rest, c.field.bits = field.bits) ∧ Tiles expected hi (b :: rest) := by
  induction rest generalizing b index expected with
  | nil => rw [coversFrom_singleton, tiles_singleton_iff, List.forall_mem_singleton]
  | cons c rest ih =>
      rw [coversFrom_cons, ih, tiles_cons_iff]
      constructor
      · rintro ⟨hbits, hfirst, -, hrest, htiles⟩
        exact ⟨List.forall_mem_cons.2 ⟨hbits, hrest⟩, hfirst, htiles⟩
      · rintro ⟨hall, hfirst, htiles⟩
        obtain ⟨hbits, hrest⟩ := List.forall_mem_cons.1 hall
        have hlast : b.last ≠ maxKey := by
          intro hmax
          have hstart := (htiles.bounds c List.mem_cons_self).1
          rw [hmax] at hstart
          exact Nat.not_succ_le_self maxKey (hstart.trans c.first_le_maxKey)
        exact ⟨hbits, hfirst, hlast, hrest, htiles⟩

end Blocks

variable {blocks : List Block} {field : Field} {lo hi : Nat}

theorem covers_eq_ok_iff_tiles :
    covers blocks field lo hi = .ok () ↔
      (∀ b ∈ blocks, b.field.bits = field.bits) ∧ Tiles lo hi blocks := by
  cases blocks with
  | nil => exact ⟨nofun, fun ⟨_, h⟩ => absurd h not_tiles_nil⟩
  | cons b rest =>
      rw [covers, ← coversFrom_eq_ok_iff]
      by_cases hfirst : b.first = lo
      · rw [if_neg (not_not_intro hfirst)]
      · rw [if_pos hfirst]
        refine ⟨nofun, fun h => ?_⟩
        obtain ⟨-, htiles⟩ := coversFrom_eq_ok_iff.1 h
        exact absurd (Option.some.inj htiles.head?) hfirst

/-- **Audits of covers are exact.**  The blocks that pass have the width of the field and are a
chain from `lo` to `hi`, without a gap, an overlap or a way around the largest key; and all blocks
of this kind pass.  So each key from `lo` to `hi` is accepted by the block at one position, and no
other key is accepted by any.

The audit is the one whose sums are checked for overflow.  That no way around the largest key passes
rests on this: a sum that came out as 0 there would let the list go on from the start. -/
theorem covers_eq_ok_iff_chain (blocks : List Block) (field : Field) (lo hi : Nat) :
    (covers blocks field lo hi = .ok () ↔
      blocks ≠ [] ∧
      (∀ b ∈ blocks, b.field.bits = field.bits) ∧
      blocks.head?.map Block.first = some lo ∧
      (blocks.IsChain fun a b => b.first = a.last + 1) ∧
      blocks.getLast?.map Block.last = some hi) ∧
    (covers blocks field lo hi = .ok () →
      lo ≤ hi ∧
      (∀ key, lo ≤ key ∧ key ≤ hi →
        ∃! k : Nat, ∃ b, blocks[k]? = some b ∧ b.accepts key = true) ∧
      ∀ key, ¬ (lo ≤ key ∧ key ≤ hi) → ∀ b ∈ blocks, b.accepts key = false) := by
  constructor
  · rw [covers_eq_ok_iff_tiles, tiles_iff]
    constructor
    · rintro ⟨hbits, hhead, hrest⟩
      have hne : blocks ≠ [] := by
        rintro rfl
        cases hhead
      exact ⟨hne, hbits, hhead, hrest⟩
    · rintro ⟨-, hbits, hchain⟩
      exact ⟨hbits, hchain⟩
  · intro h
    obtain ⟨-, htiles⟩ := covers_eq_ok_iff_tiles.1 h
    exact ⟨htiles.le, fun _ => htiles.existsUnique_accepts, fun _ => htiles.accepts_eq_false⟩

/-- The twelve largest keys, in blocks of four and of eight. -/
def topBlocks : List Block :=
  [⟨.widest, maxKey - 11, 2, by decide, by decide, by decide⟩,
    ⟨.widest, maxKey - 7, 3, by decide, by decide, by decide⟩]

theorem covers_eq_ok_iff_chain_top :
    covers topBlocks .widest (maxKey - 11) maxKey = .ok () ∧
      (∃! k : Nat, ∃ b, topBlocks[k]? = some b ∧ b.accepts maxKey = true) ∧
      ∀ b ∈ topBlocks, b.accepts 0 = false := by
  have h : covers topBlocks .widest (maxKey - 11) maxKey = .ok () := by decide
  obtain ⟨-, haccepted, hrefused⟩ :=
    (covers_eq_ok_iff_chain topBlocks .widest (maxKey - 11) maxKey).2 h
  exact ⟨h, haccepted maxKey (by decide), hrefused 0 (by decide)⟩

/-- The whole of the widest field does not follow on itself. -/
example :
    let whole : Block := ⟨.widest, 0, 64, by decide, by decide, by decide⟩
    covers [whole, whole] .widest 0 maxKey = .error .pastLargestKey := by
  decide

end Audit

end TernaryRules
