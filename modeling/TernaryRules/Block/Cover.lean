import TernaryRules.Block

/-!
# Covers of an interval

`decompose` covers an interval by aligned blocks, from its lower end upwards. Each step takes the
largest block that is aligned at the current start and does not run past the upper end, so the
blocks are disjoint and in order. `Walk` is the state between two steps.
-/

namespace TernaryRules

/-- The largest `w` up to the given one with `start` a multiple of `2 ^ w`. -/
def alignment (start : Nat) : Nat → Nat
  | 0 => 0
  | w + 1 => if 2 ^ (w + 1) ∣ start then w + 1 else alignment start w

/-- The largest `w` up to the given one for which `2 ^ w` values take at most `room` more than
one. -/
def shrink (room : Nat) : Nat → Nat
  | 0 => 0
  | w + 1 => if room < lowMask (w + 1) then shrink room w else w + 1

theorem alignment_le (start w : Nat) : alignment start w ≤ w := by
  induction w with
  | zero => exact Nat.le_refl _
  | succ w ih => unfold alignment; split <;> omega

theorem pow_alignment_dvd (start w : Nat) : 2 ^ alignment start w ∣ start := by
  induction w with
  | zero => simp [alignment]
  | succ w ih => unfold alignment; split <;> assumption

theorem shrink_le (room w : Nat) : shrink room w ≤ w := by
  induction w with
  | zero => exact Nat.le_refl _
  | succ w ih => unfold shrink; split <;> omega

theorem lowMask_shrink_le (room w : Nat) : lowMask (shrink room w) ≤ room := by
  induction w with
  | zero => simp [shrink, lowMask]
  | succ w ih => unfold shrink; split <;> omega

/-- A cover under way: the blocks still to come start at `next` and end at `hi`. -/
structure Walk where
  field : Field
  hi : Nat
  hi_le : hi ≤ field.maxValue
  next : Option { start : Nat // start ≤ hi }

namespace Walk

def ofBounds (field : Field) (lo hi : Nat) : Except DomainError Walk :=
  if hl : lo ≤ hi then
    if hh : hi ≤ field.maxValue then .ok ⟨field, hi, hh, some ⟨lo, hl⟩⟩
    else .error (.outOfField hi field.bits)
  else .error (.emptyInterval lo hi)

/-- The number of low bits left open by the block at `start`: as many as the alignment of `start`
and the field allow, then as few as the end of the walk demands. -/
def openBits (w : Walk) (start : Nat) : Nat :=
  shrink (w.hi - start) (alignment start w.field.bits)

/-- The block at `start`. -/
def blockAt (w : Walk) (start : Nat) (h : start ≤ w.hi) : Block where
  field := w.field
  first := start
  wildcards := w.openBits start
  wildcards_le := Nat.le_trans (shrink_le _ _) (alignment_le _ _)
  first_le := Nat.le_trans h w.hi_le
  aligned := Nat.dvd_trans (Nat.pow_dvd_pow 2 (shrink_le _ _)) (pow_alignment_dvd _ _)

theorem last_blockAt_le (w : Walk) (start : Nat) (h : start ≤ w.hi) :
    (w.blockAt start h).last ≤ w.hi := by
  have := lowMask_shrink_le (w.hi - start) (alignment start w.field.bits)
  show start + lowMask _ ≤ w.hi
  simp only [blockAt, openBits]
  omega

/-- The next block and the walk after it. -/
def step (w : Walk) : Option (Block × Walk) :=
  match w.next with
  | none => none
  | some ⟨start, h⟩ =>
      let block := w.blockAt start h
      let next :=
        if hl : block.last = w.hi then none
        else some ⟨block.last + 1, Nat.lt_of_le_of_ne (w.last_blockAt_le start h) hl⟩
      some (block, { w with next })

/-- How many values are still to be covered. -/
def remaining (w : Walk) : Nat :=
  match w.next with
  | none => 0
  | some ⟨start, _⟩ => w.hi - start + 1

theorem remaining_step_lt {w w' : Walk} {b : Block} (h : w.step = some (b, w')) :
    w'.remaining < w.remaining := by
  unfold step at h
  split at h
  · cases h
  next start hs e =>
    simp only [Option.some.injEq, Prod.mk.injEq] at h
    obtain ⟨rfl, rfl⟩ := h
    have hle : start ≤ (w.blockAt start hs).last := Nat.le_add_right _ _
    have hhi := w.last_blockAt_le start hs
    simp only [remaining, e]
    split
    · omega
    next s' hs' e' =>
      split at e'
      · cases e'
      · cases e'
        omega

/-- Bounds on the number of blocks still to come, at most two for each bit of the field. -/
def sizeHint (w : Walk) : Nat × Nat :=
  match w.next with
  | none => (0, 0)
  | some _ => (1, 2 * w.field.bits)

/-- The blocks still to come. -/
def blocks (w : Walk) : List Block :=
  match h : w.step with
  | none => []
  | some (b, w') =>
      have := remaining_step_lt h
      b :: w'.blocks
termination_by w.remaining

/-- The number of blocks still to come, found without listing them. -/
def count (w : Walk) : Nat :=
  match h : w.step with
  | none => 0
  | some (_, w') =>
      have := remaining_step_lt h
      w'.count + 1
termination_by w.remaining

end Walk

/-- The cover of `lo` to `hi` by the fewest aligned blocks, in increasing order. -/
def decompose (field : Field) (lo hi : Nat) : Except DomainError (List Block) :=
  (Walk.ofBounds field lo hi).map Walk.blocks

/-- The number of blocks in the cover of `lo` to `hi`. -/
def blockCount (field : Field) (lo hi : Nat) : Except DomainError Nat :=
  (Walk.ofBounds field lo hi).map Walk.count

/-- The cover of an interval by aligned blocks of a field. -/
def Interval.blocks (i : Interval) (field : Field) : Except DomainError (List Block) :=
  decompose field i.lo i.hi

end TernaryRules
