import TernaryRules.Proofs.Numbering
import TernaryRules.Proofs.Peak

/-!
# Covers in words

A walk is about numbers that are known to fit.  `WordWalk` is the same walk carried out in words of
which nothing is known: a request for a block counts the low zeros of the start, takes open bits off
one by one, puts the block together from masks and goes on behind its last value.  It comes to a
stop where a difference is below zero, where a sum is no word, or where a block would start outside
of its field or between two multiples of its size.

Each operation in words gives what the walk has in its place (`min_lowZeros`, `shrink?_eq`,
`Block.ofStart?_eq`, `Block.last?_eq`).  So a request goes through and leads to the walk behind it
(`Walk.request?_eq`), and so do any number of them (`Walk.after?_eq`).  The main statement is
`decompose_in_words`.
-/

namespace TernaryRules

/-! ### Masks and zeros of a word -/

/-- The number of zeros below the lowest set bit of a word, all of them for zero. -/
def lowZeros (word : Nat) : Nat := (List.range 64).findIdx word.testBit

/-- The word whose lowest `k` bits are set, all of them when there are no more than `k`. -/
def wordMask (k : Nat) : Nat := if 64 ≤ k then maxKey else (1 <<< k) - 1

theorem wordMask_eq {k : Nat} (h : k ≤ 64) : wordMask k = lowMask k := by
  rw [wordMask]
  split
  next hk =>
    obtain rfl : k = 64 := Nat.le_antisymm h hk
    rfl
  next => rw [Nat.one_shiftLeft, lowMask]

theorem and_lowMask_eq_zero_iff {n k : Nat} : n &&& lowMask k = 0 ↔ 2 ^ k ∣ n := by
  rw [lowMask, Nat.and_two_pow_sub_one_eq_mod, Nat.dvd_iff_mod_eq_zero]

theorem two_pow_dvd_iff_testBit {n k : Nat} : 2 ^ k ∣ n ↔ ∀ i < k, n.testBit i = false := by
  rw [Nat.dvd_iff_mod_eq_zero]
  constructor
  · intro h i hi
    have hbit := Nat.testBit_mod_two_pow n k i
    rw [h, Nat.zero_testBit, decide_eq_true hi, Bool.true_and] at hbit
    exact hbit.symm
  · intro h
    refine Nat.eq_of_testBit_eq fun i => ?_
    rw [Nat.testBit_mod_two_pow, Nat.zero_testBit]
    by_cases hi : i < k
    · rw [h i hi, Bool.and_false]
    · rw [decide_eq_false hi, Bool.false_and]

theorem two_pow_dvd_iff_le_lowZeros {word k : Nat} (hk : k ≤ 64) :
    2 ^ k ∣ word ↔ k ≤ lowZeros word := by
  rw [two_pow_dvd_iff_testBit]
  constructor
  · intro h
    refine Nat.le_of_not_lt fun hlt => ?_
    have hlen : lowZeros word < (List.range 64).length := by
      rw [List.length_range]
      exact Nat.lt_of_lt_of_le hlt hk
    have hbit : word.testBit ((List.range 64)[lowZeros word]) = true := List.findIdx_getElem
    rw [List.getElem_range, h _ hlt] at hbit
    cases hbit
  · intro h i hi
    have hbit := List.not_of_lt_findIdx (Nat.lt_of_lt_of_le hi h)
    rwa [List.getElem_range] at hbit

/-- The low zeros of a start, up to the width of a field, are its alignment. -/
theorem min_lowZeros {start k : Nat} (hk : k ≤ 64) :
    min (lowZeros start) k = alignment start k := by
  have hmin : min (lowZeros start) k ≤ k := Nat.min_le_right _ _
  have hle : alignment start k ≤ k := alignment_le start k
  refine Nat.le_antisymm (le_alignment ?_ hmin) (Nat.le_min.2 ⟨?_, hle⟩)
  · exact (two_pow_dvd_iff_le_lowZeros (hmin.trans hk)).2 (Nat.min_le_left _ _)
  · exact (two_pow_dvd_iff_le_lowZeros (hle.trans hk)).1 (pow_alignment_dvd start k)

/-- Takes open bits off, one after the other, as long as the block asks for more than `room`; there
is nothing to take off from none. -/
def shrink? (room : Nat) : Nat → Option Nat
  | 0 => if room < wordMask 0 then none else some 0
  | k + 1 => if room < wordMask (k + 1) then shrink? room k else some (k + 1)

theorem shrink?_eq {room k : Nat} (hk : k ≤ 64) : shrink? room k = some (shrink room k) := by
  induction k with
  | zero => exact if_neg (Nat.not_lt_zero room)
  | succ k ih =>
      rw [shrink?, shrink, wordMask_eq hk]
      split
      · exact ih (Nat.le_of_succ_le hk)
      · rfl

/-! ### Blocks in words -/

/-- A value and a mask, and the width of the field that they belong to. -/
structure WordBlock where
  value : Nat
  mask : Nat
  bits : Nat
deriving DecidableEq

namespace WordBlock

/-- The block with `k` open bits from `start` on, which has to be in the field and a multiple of the
size. -/
def ofStart? (bits start k : Nat) : Option WordBlock :=
  if start ≤ wordMask bits ∧ start &&& wordMask k = 0 then
    some ⟨start, (maxKey ^^^ wordMask k) &&& wordMask bits, bits⟩
  else none

/-- The last value, with all bits set that the mask leaves open. -/
def last? (b : WordBlock) : Option Nat := do
  let k ← difference? b.bits (setBits b.mask)
  return b.value ||| wordMask k

end WordBlock

namespace Block

def inWords (b : Block) : WordBlock := ⟨b.first, b.mask, b.field.bits⟩

theorem wildcards_le_sixtyFour (b : Block) : b.wildcards ≤ 64 :=
  b.wildcards_le.trans b.field.le_sixtyFour

theorem mask_eq (b : Block) :
    (maxKey ^^^ wordMask b.wildcards) &&& wordMask b.field.bits = b.mask := by
  have hbits := b.field.le_sixtyFour
  rw [wordMask_eq b.wildcards_le_sixtyFour, wordMask_eq hbits]
  refine Nat.eq_of_testBit_eq fun i => ?_
  rw [testBit_mask, Nat.testBit_and, Nat.testBit_xor, show maxKey = lowMask 64 from rfl,
    testBit_lowMask, testBit_lowMask, testBit_lowMask]
  by_cases hi : i < b.field.bits
  · have hword : i < 64 := hi.trans_le hbits
    by_cases hw : i < b.wildcards
    · simp [hi, hword, hw]
    · simp [hi, hword, hw, Nat.le_of_not_lt hw]
  · simp [hi]

theorem ofStart?_eq (b : Block) :
    WordBlock.ofStart? b.field.bits b.first b.wildcards = some b.inWords := by
  have hstart : b.first ≤ wordMask b.field.bits := by
    rw [wordMask_eq b.field.le_sixtyFour]
    exact b.first_le
  have haligned : b.first &&& wordMask b.wildcards = 0 := by
    rw [wordMask_eq b.wildcards_le_sixtyFour]
    exact and_lowMask_eq_zero_iff.2 b.aligned
  rw [WordBlock.ofStart?, if_pos ⟨hstart, haligned⟩, b.mask_eq]
  rfl

theorem last?_eq (b : Block) : b.inWords.last? = some b.last := by
  have hopen : difference? b.field.bits (setBits b.mask) = some b.wildcards := by
    rw [setBits_mask, difference?_eq (Nat.sub_le _ _), Nat.sub_sub_self b.wildcards_le]
  rw [WordBlock.last?]
  simp only [inWords, hopen]
  rw [b.last_eq_or, ← wordMask_eq b.wildcards_le_sixtyFour]
  rfl

end Block

/-! ### Walks in words -/

/-- A cover under way, in words: the width of the field, the end, and the start of the next block
when there is one. -/
structure WordWalk where
  bits : Nat
  hi : Nat
  next : Option Nat
deriving DecidableEq

namespace WordWalk

/-- A request for the next block, and the walk after it. -/
def request? (v : WordWalk) : Option (Option WordBlock × WordWalk) :=
  match v.next with
  | none => some (none, v)
  | some start => do
      let room ← difference? v.hi start
      let k ← shrink? room (min (lowZeros start) v.bits)
      let block ← WordBlock.ofStart? v.bits start k
      let last ← block.last?
      if last = v.hi then
        return (some block, { v with next := none })
      else
        let next ← sum? last 1
        return (some block, { v with next := some next })

/-- The walk after `n` requests. -/
def after? : Nat → WordWalk → Option WordWalk
  | 0, v => some v
  | n + 1, v => do
      let (_, v) ← v.request?
      after? n v

end WordWalk

namespace Walk

variable {w : Walk}

def inWords (w : Walk) : WordWalk := ⟨w.field.bits, w.hi, w.next.map Subtype.val⟩

theorem hi_le_maxKey (w : Walk) : w.hi ≤ maxKey := w.hi_le.trans w.field.maxValue_le_maxKey

/-- A request at `start`, worked out in words.  The room behind the start is no difference below
zero, the open bits are found before there are none left to take off, and the block starts in the
field, at a multiple of its size, and ends within the walk.  Where it ends before the walk does,
there is a word behind it, and less room. -/
structure Secure (w : Walk) (start : Nat) (b : Block) : Prop where
  step_eq : w.step = some (b, w.advance)
  request_eq : w.inWords.request? = some (some b.inWords, w.advance.inWords)
  room_eq : difference? w.hi start = some (w.hi - start)
  shrink_eq : shrink? (w.hi - start) (min (lowZeros start) w.field.bits) = some b.wildcards
  start_le : start ≤ w.field.maxValue
  aligned : start &&& wordMask b.wildcards = 0
  block_eq : WordBlock.ofStart? w.field.bits start b.wildcards = some b.inWords
  last_eq : b.inWords.last? = some b.last
  last_le : b.last ≤ w.hi
  done : b.last = w.hi → w.advance.inWords.next = none
  onward : b.last < w.hi → sum? b.last 1 = some (b.last + 1) ∧
    w.advance.inWords.next = some (b.last + 1) ∧ w.hi - (b.last + 1) < w.hi - start

variable {start : Nat} {hs : start ≤ w.hi}

theorem step_of_next (hn : w.next = some ⟨start, hs⟩) :
    w.step = some (w.blockAt start hs, { w with
      next := if hl : (w.blockAt start hs).last = w.hi then none
        else some ⟨_, Nat.lt_of_le_of_ne (w.last_blockAt_le start hs) hl⟩ }) := by
  rw [step]
  split
  next hnone =>
    rw [hn] at hnone
    cases hnone
  next hsome =>
    rw [hn] at hsome
    cases hsome
    rfl

theorem advance_of_step {w' : Walk} {b : Block} (h : w.step = some (b, w')) : w.advance = w' := by
  rw [advance, h]

theorem inWords_of_next (hn : w.next = some ⟨start, hs⟩) :
    w.inWords = ⟨w.field.bits, w.hi, some start⟩ := by
  rw [inWords, hn, Option.map_some]

/-- Behind a block, the walk is over or goes on at the next value. -/
theorem inWords_advance (hn : w.next = some ⟨start, hs⟩) :
    w.advance.inWords = ⟨w.field.bits, w.hi,
      if (w.blockAt start hs).last = w.hi then none else some ((w.blockAt start hs).last + 1)⟩ := by
  rw [advance_of_step (step_of_next hn)]
  by_cases hl : (w.blockAt start hs).last = w.hi
  · simp [inWords, hl]
  · simp [inWords, hl]

theorem sum?_last (h : (w.blockAt start hs).last < w.hi) :
    sum? (w.blockAt start hs).last 1 = some ((w.blockAt start hs).last + 1) :=
  sum?_eq (Nat.le_trans h w.hi_le_maxKey)

/-- The open bits of the block are found in words. -/
theorem shrink?_openBits (w : Walk) (start : Nat) :
    shrink? (w.hi - start) (min (lowZeros start) w.field.bits) = some (w.openBits start) := by
  rw [min_lowZeros w.field.le_sixtyFour,
    shrink?_eq ((alignment_le _ _).trans w.field.le_sixtyFour), openBits]

/-- **One request in words** gives the block of the walk and leads to the walk behind it. -/
theorem request?_of_next (hn : w.next = some ⟨start, hs⟩) :
    w.inWords.request? = some (some (w.blockAt start hs).inWords, w.advance.inWords) := by
  have hroom : difference? w.hi start = some (w.hi - start) := difference?_eq hs
  have hopen := w.shrink?_openBits start
  have hblock : WordBlock.ofStart? w.field.bits start (w.openBits start) =
      some (w.blockAt start hs).inWords := (w.blockAt start hs).ofStart?_eq
  have hlast := (w.blockAt start hs).last?_eq
  rw [inWords_of_next hn, inWords_advance hn, WordWalk.request?]
  simp only [hroom, hopen, hblock, hlast, Option.bind_eq_bind, Option.bind_some]
  by_cases hl : (w.blockAt start hs).last = w.hi
  · rw [if_pos hl, if_pos hl]
    rfl
  · have hlt : (w.blockAt start hs).last < w.hi :=
      Nat.lt_of_le_of_ne (w.last_blockAt_le start hs) hl
    rw [if_neg hl, if_neg hl, sum?_last hlt]
    rfl

theorem secure_of_next (hn : w.next = some ⟨start, hs⟩) : w.Secure start (w.blockAt start hs) where
  step_eq := by rw [advance_of_step (step_of_next hn), step_of_next hn]
  request_eq := request?_of_next hn
  room_eq := difference?_eq hs
  shrink_eq := w.shrink?_openBits start
  start_le := hs.trans w.hi_le
  aligned := by
    rw [wordMask_eq (w.blockAt start hs).wildcards_le_sixtyFour]
    exact and_lowMask_eq_zero_iff.2 (w.blockAt start hs).aligned
  block_eq := (w.blockAt start hs).ofStart?_eq
  last_eq := (w.blockAt start hs).last?_eq
  last_le := w.last_blockAt_le start hs
  done hl := by rw [inWords_advance hn, if_pos hl]
  onward hlt := by
    refine ⟨sum?_last hlt, by rw [inWords_advance hn, if_neg (Nat.ne_of_lt hlt)], ?_⟩
    have hle : start ≤ (w.blockAt start hs).last := (w.blockAt start hs).interval.lo_le_hi
    omega

/-- A request in words goes through in every state. -/
theorem request?_eq (w : Walk) :
    w.inWords.request? = some (w.step.map fun next => next.1.inWords, w.advance.inWords) := by
  cases hn : w.next with
  | none =>
      have hstep : w.step = none := step_eq_none_iff.2 hn
      have hnext : w.inWords.next = none := by rw [inWords, hn, Option.map_none]
      rw [WordWalk.request?, hnext, advance, hstep]
      rfl
  | some next =>
      have h := secure_of_next hn
      rw [h.request_eq, h.step_eq]
      rfl

/-- Any number of requests in words lead where they lead the walk. -/
theorem after?_eq (w : Walk) (n : Nat) :
    w.inWords.after? n = some (advance^[n] w).inWords := by
  induction n generalizing w with
  | zero => rfl
  | succ n ih =>
      rw [WordWalk.after?, request?_eq, Function.iterate_succ_apply]
      exact ih w.advance

theorem hi_advance (w : Walk) : w.advance.hi = w.hi := by
  cases hn : w.next with
  | none => rw [advance, step_eq_none_iff.2 hn]
  | some next => rw [advance_of_step (step_of_next hn)]

theorem hi_iterate (w : Walk) : ∀ n, (advance^[n] w).hi = w.hi
  | 0 => rfl
  | n + 1 => by rw [Function.iterate_succ_apply', hi_advance, hi_iterate w n]

/-- The start after a request lies above the start before it. -/
theorem exists_lt_of_next_advance (h : w.advance.inWords.next = some start) :
    ∃ before, w.inWords.next = some before ∧ before < start := by
  cases hn : w.next with
  | none =>
      rw [advance, step_eq_none_iff.2 hn, inWords, hn] at h
      cases h
  | some next =>
      obtain ⟨before, hb⟩ := next
      have hle : before ≤ (w.blockAt before hb).last := (w.blockAt before hb).interval.lo_le_hi
      refine ⟨before, by rw [inWords_of_next hn], ?_⟩
      rw [inWords_advance hn] at h
      obtain ⟨-, h⟩ := Option.ite_none_left_eq_some.1 h
      rw [← Option.some.inj h]
      exact Nat.lt_succ_of_le hle

/-- With each request the start of the next block moves on. -/
theorem add_le_of_next_iterate {lo n : Nat} (hlo : w.inWords.next = some lo)
    (h : (advance^[n] w).inWords.next = some start) : lo + n ≤ start := by
  induction n generalizing start with
  | zero => exact Nat.le_of_eq (Option.some.inj (hlo.symm.trans h))
  | succ n ih =>
      rw [Function.iterate_succ_apply'] at h
      obtain ⟨before, hbefore, hlt⟩ := exists_lt_of_next_advance h
      exact Nat.le_trans (Nat.succ_le_succ (ih hbefore)) hlt

end Walk

/-- **Covers are found in words.**  For bounds within a field, and after any number of requests, the
walk in words has not stopped and stands where the walk stands.  A block to come starts between the
bounds, higher up with each request, and the request for it is secure: no number on the way is below
zero or above the largest word, and behind it less is left to cover, or nothing. -/
theorem decompose_in_words {field : Field} {lo hi : Nat} (hl : lo ≤ hi)
    (hh : hi ≤ field.maxValue) :
    ∃ w, Walk.ofBounds field lo hi = .ok w ∧ w.inWords = ⟨field.bits, hi, some lo⟩ ∧
      ∀ n, ∃ v : Walk, v = Walk.advance^[n] w ∧ w.inWords.after? n = some v.inWords ∧
        v.field = field ∧ v.hi = hi ∧
        ∀ start, v.inWords.next = some start →
          lo + n ≤ start ∧ start ≤ hi ∧ ∃ b, v.Secure start b := by
  refine ⟨_, Walk.ofBounds_eq_ok hl hh, rfl, fun n => ⟨_, rfl, Walk.after?_eq _ n,
    Walk.field_iterate _ n, Walk.hi_iterate _ n, fun start hstart => ?_⟩⟩
  obtain ⟨⟨_, hs⟩, hn, rfl⟩ := Option.map_eq_some_iff.1 hstart
  refine ⟨Walk.add_le_of_next_iterate rfl hstart, ?_, _, Walk.secure_of_next hn⟩
  rwa [Walk.hi_iterate] at hs

/-- At the top of the widest field the second block ends at the largest word, and no word is asked
for behind it. -/
theorem decompose_in_words_top :
    ∃ w v, Walk.ofBounds .widest (maxKey - 2) maxKey = .ok w ∧ v = Walk.advance^[1] w ∧
      w.inWords.after? 1 = some ⟨64, maxKey, some (maxKey - 1)⟩ ∧
      v.advance.inWords = ⟨64, maxKey, none⟩ ∧ ∃ b, v.Secure (maxKey - 1) b := by
  have hl : maxKey - 2 ≤ maxKey := Nat.sub_le _ _
  have hh : maxKey ≤ Field.widest.maxValue := by decide
  obtain ⟨w, hw, hstart, hrun⟩ := decompose_in_words hl hh
  obtain ⟨v, hv, hafter, -, -, hsecure⟩ := hrun 1
  have hone : w.inWords.after? 1 = some ⟨64, maxKey, some (maxKey - 1)⟩ := by
    rw [hstart]
    decide +kernel
  have hnext : v.inWords = ⟨64, maxKey, some (maxKey - 1)⟩ :=
    Option.some.inj (hafter.symm.trans hone)
  obtain ⟨-, -, b, hb⟩ := hsecure (maxKey - 1) (by rw [hnext])
  have htwo : v.inWords.request? =
      some (some ⟨maxKey - 1, maxKey - 1, 64⟩, ⟨64, maxKey, none⟩) := by
    rw [hnext]
    decide +kernel
  refine ⟨w, v, hw, hv, hone, ?_, b, hb⟩
  exact congrArg Prod.snd (Option.some.inj (hb.request_eq.symm.trans htwo))

end TernaryRules
