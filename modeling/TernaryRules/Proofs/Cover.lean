import TernaryRules.Block.Cover
import TernaryRules.Proofs.Block
import TernaryRules.Proofs.Partition

/-!
# Covers of an interval

A walk lists blocks that *tile* what it is to cover: each starts just above the one before it, and
the last ends where the walk ends (`Walk.Run.tiles`).  No block of the field inside the bounds of
the walk sticks out of the block taken at its start, because a step opens as many bits as any block
at that start could (`Walk.le_openBits`).  So every block inside the bounds lies in a block of the
walk (`Walk.Run.exists_subset`).

`decompose_cover` puts the two together: within a field, `decompose` answers with the largest
blocks of the interval.
-/

namespace TernaryRules

/-! ### Tilings -/

/-- The blocks follow one another from `lo` to `hi`. -/
inductive Tiles : Nat → Nat → List Block → Prop
  | last (b : Block) : Tiles b.first b.last [b]
  | cons (b : Block) {hi : Nat} {rest : List Block} :
      Tiles (b.last + 1) hi rest → Tiles b.first hi (b :: rest)

namespace Tiles

theorem le {lo hi : Nat} {blocks : List Block} (h : Tiles lo hi blocks) : lo ≤ hi := by
  induction h with
  | last b => exact b.interval.lo_le_hi
  | cons b _ ih => exact Nat.le_trans b.interval.lo_le_hi (Nat.le_of_succ_le ih)

theorem bounds {lo hi : Nat} {blocks : List Block} (h : Tiles lo hi blocks) :
    ∀ b ∈ blocks, lo ≤ b.first ∧ b.last ≤ hi := by
  induction h with
  | last b =>
      intro c hc
      rw [List.mem_singleton.1 hc]
      exact ⟨Nat.le_refl _, Nat.le_refl _⟩
  | cons b ht ih =>
      intro c hc
      rcases List.mem_cons.1 hc with rfl | hc
      · exact ⟨Nat.le_refl _, Nat.le_of_succ_le ht.le⟩
      · obtain ⟨hlo, hhi⟩ := ih c hc
        exact ⟨Nat.le_trans b.interval.lo_le_hi (Nat.le_of_succ_le hlo), hhi⟩

/-- Each value between the bounds lies in a block. -/
theorem exists_mem {lo hi : Nat} {blocks : List Block} (h : Tiles lo hi blocks) {v : Nat}
    (hlo : lo ≤ v) (hhi : v ≤ hi) : ∃ b ∈ blocks, v ∈ b.interval := by
  induction h with
  | last b => exact ⟨b, List.mem_cons_self, hlo, hhi⟩
  | cons b _ ih =>
      by_cases hv : v ≤ b.last
      · exact ⟨b, List.mem_cons_self, hlo, hv⟩
      · obtain ⟨c, hc, hm⟩ := ih (Nat.lt_of_not_le hv) hhi
        exact ⟨c, List.mem_cons_of_mem _ hc, hm⟩

theorem mem_iff {lo hi : Nat} {blocks : List Block} (h : Tiles lo hi blocks) {v : Nat} :
    (∃ b ∈ blocks, v ∈ b.interval) ↔ lo ≤ v ∧ v ≤ hi := by
  constructor
  · rintro ⟨b, hb, hv⟩
    obtain ⟨hlo, hhi⟩ := h.bounds b hb
    exact ⟨Nat.le_trans hlo hv.1, Nat.le_trans hv.2 hhi⟩
  · rintro ⟨hlo, hhi⟩
    exact h.exists_mem hlo hhi

theorem pairwise_lt {lo hi : Nat} {blocks : List Block} (h : Tiles lo hi blocks) :
    blocks.Pairwise fun a b => a.last < b.first := by
  induction h with
  | last b => exact List.pairwise_singleton _ _
  | cons b ht ih => exact List.pairwise_cons.2 ⟨fun c hc => (ht.bounds c hc).1, ih⟩

/-- No key is accepted by two blocks. -/
theorem exclusive {lo hi : Nat} {blocks : List Block} (h : Tiles lo hi blocks) :
    Exclusive (fun (b : Block) v => b.accepts v = true) blocks := by
  refine h.pairwise_lt.imp fun {a b} hlt v hv => ?_
  obtain ⟨ha, hb⟩ := hv
  have hva := (Block.accepts_eq_true.1 ha).2
  have hvb := (Block.accepts_eq_true.1 hb).1
  exact Nat.lt_irrefl v (Nat.lt_of_le_of_lt hva (Nat.lt_of_lt_of_le hlt hvb))

end Tiles

/-! ### Steps of a walk -/

theorem le_alignment {start v : Nat} (hd : 2 ^ v ∣ start) :
    ∀ {w : Nat}, v ≤ w → v ≤ alignment start w
  | 0, hv => hv
  | w + 1, hv => by
      unfold alignment
      split
      · exact hv
      · rename_i hn
        have hne : v ≠ w + 1 := fun e => hn (e ▸ hd)
        exact le_alignment hd (Nat.le_of_lt_succ (Nat.lt_of_le_of_ne hv hne))

theorem le_shrink {room v : Nat} (hr : lowMask v ≤ room) : ∀ {w : Nat}, v ≤ w → v ≤ shrink room w
  | 0, hv => hv
  | w + 1, hv => by
      unfold shrink
      split
      · rename_i hlt
        have hne : v ≠ w + 1 := fun e => Nat.not_lt.2 hr (e ▸ hlt)
        exact le_shrink hr (Nat.le_of_lt_succ (Nat.lt_of_le_of_ne hv hne))
      · exact hv

namespace Walk

theorem ofBounds_eq_ok {field : Field} {lo hi : Nat} (hl : lo ≤ hi) (hh : hi ≤ field.maxValue) :
    ofBounds field lo hi = .ok ⟨field, hi, hh, some ⟨lo, hl⟩⟩ := by
  rw [ofBounds, dif_pos hl, dif_pos hh]

/-- A step opens as many bits as any block of the field that starts there and ends in time. -/
theorem le_openBits (w : Walk) {a : Block} (hf : a.field = w.field) (hl : a.last ≤ w.hi) :
    a.wildcards ≤ w.openBits a.first := by
  have hroom : lowMask a.wildcards ≤ w.hi - a.first := Nat.le_sub_of_add_le' hl
  exact le_shrink hroom (le_alignment a.aligned (hf ▸ a.wildcards_le))

/-- The steps of a walk from a start to its end, with the blocks they take. -/
inductive Run (w : Walk) : Nat → List Block → Prop
  | last {start : Nat} (h : start ≤ w.hi) :
      (w.blockAt start h).last = w.hi → Run w start [w.blockAt start h]
  | step {start : Nat} (h : start ≤ w.hi) {rest : List Block} :
      Run w ((w.blockAt start h).last + 1) rest → Run w start (w.blockAt start h :: rest)

theorem blocks_of_step {w w' : Walk} {b : Block} (h : w.step = some (b, w')) :
    w.blocks = b :: w'.blocks := by
  rw [blocks]
  split
  · rename_i hn
    rw [hn] at h
    cases h
  · rename_i hs
    rw [hs] at h
    cases h
    rfl

theorem blocks_of_done {w : Walk} (h : w.step = none) : w.blocks = [] := by
  rw [blocks]
  split
  · rfl
  · rename_i hs
    rw [hs] at h
    cases h

theorem run_blocks (w : Walk) {start : Nat} (h : start ≤ w.hi) :
    w.Run start { w with next := some ⟨start, h⟩ : Walk }.blocks := by
  have hlast := w.last_blockAt_le start h
  by_cases hl : (w.blockAt start h).last = w.hi
  · have hstep : { w with next := some ⟨start, h⟩ : Walk }.step =
        some (w.blockAt start h, { w with next := none }) := by
      rw [step]
      exact congrArg some (congrArg _ (congrArg _ (dif_pos hl)))
    rw [blocks_of_step hstep, blocks_of_done rfl]
    exact .last h hl
  · have hlt : (w.blockAt start h).last + 1 ≤ w.hi := Nat.lt_of_le_of_ne hlast hl
    have hstep : { w with next := some ⟨start, h⟩ : Walk }.step =
        some (w.blockAt start h, { w with next := some ⟨_, hlt⟩ }) := by
      rw [step]
      exact congrArg some (congrArg _ (congrArg _ (dif_neg hl)))
    rw [blocks_of_step hstep]
    exact .step h (run_blocks w hlt)
termination_by w.hi - start
decreasing_by
  have : start ≤ (w.blockAt start h).last := Nat.le_add_right _ _
  omega

namespace Run

variable {w : Walk} {start : Nat} {blocks : List Block}

theorem tiles (h : w.Run start blocks) : Tiles start w.hi blocks := by
  induction h with
  | last h hl => exact hl ▸ .last (w.blockAt _ h)
  | step h _ ih => exact .cons (w.blockAt _ h) ih

theorem field_eq (h : w.Run start blocks) : ∀ b ∈ blocks, b.field = w.field := by
  induction h with
  | last =>
      intro b hb
      rw [List.mem_singleton.1 hb]
      rfl
  | step _ _ ih =>
      intro b hb
      rcases List.mem_cons.1 hb with rfl | hb
      · rfl
      · exact ih b hb

/-- A block inside the bounds of the walk that meets the block of a step lies in it. -/
theorem subset_blockAt {a : Block} (hf : a.field = w.field) (hl : a.last ≤ w.hi)
    (h : start ≤ w.hi) (ha : start ≤ a.first) (hm : a.first ≤ (w.blockAt start h).last) :
    a.interval ⊆ (w.blockAt start h).interval := by
  have hmem : a.first ∈ (w.blockAt start h).interval := ⟨ha, hm⟩
  by_cases hw : a.wildcards ≤ (w.blockAt start h).wildcards
  · exact Block.interval_subset hw a.first_mem hmem
  · -- then the block of the step lies in `a`, so both start together
    have hsub := Block.interval_subset (Nat.le_of_not_le hw) hmem a.first_mem
    have hstart : start = a.first := Nat.le_antisymm ha (hsub _ (w.blockAt start h).first_mem).1
    subst hstart
    exact absurd (w.le_openBits hf hl) hw

/-- Each block of the field inside the bounds of a walk lies in a block of the walk. -/
theorem exists_subset (h : w.Run start blocks) {a : Block} (hf : a.field = w.field)
    (ha : start ≤ a.first) (hl : a.last ≤ w.hi) : ∃ b ∈ blocks, a.interval ⊆ b.interval := by
  induction h with
  | last h hlast =>
      have hm := hlast.symm ▸ Nat.le_trans a.interval.lo_le_hi hl
      exact ⟨_, List.mem_cons_self, subset_blockAt hf hl h ha hm⟩
  | step h _ ih =>
      by_cases hm : a.first ≤ (w.blockAt _ h).last
      · exact ⟨_, List.mem_cons_self, subset_blockAt hf hl h ha hm⟩
      · obtain ⟨b, hb, hsub⟩ := ih (Nat.lt_of_not_le hm)
        exact ⟨b, List.mem_cons_of_mem _ hb, hsub⟩

end Run

end Walk

/-! ### The cover of an interval -/

/-- The blocks of a field that cover `lo` to `hi` one after the other, so large that each block of
the field within these bounds lies in one of them. -/
structure Cover (field : Field) (lo hi : Nat) (blocks : List Block) : Prop where
  tiles : Tiles lo hi blocks
  field_eq : ∀ b ∈ blocks, b.field = field
  exists_subset : ∀ a : Block, a.field = field → lo ≤ a.first → a.last ≤ hi →
    ∃ b ∈ blocks, a.interval ⊆ b.interval

/-- Within a field, `decompose` answers with the cover by the largest blocks. -/
theorem decompose_cover {field : Field} {lo hi : Nat} (hl : lo ≤ hi) (hh : hi ≤ field.maxValue) :
    ∃ blocks, decompose field lo hi = .ok blocks ∧ Cover field lo hi blocks := by
  let w : Walk := ⟨field, hi, hh, some ⟨lo, hl⟩⟩
  have hw : Walk.ofBounds field lo hi = .ok w := Walk.ofBounds_eq_ok hl hh
  have hrun : w.Run lo w.blocks := w.run_blocks hl
  refine ⟨w.blocks, by rw [decompose, hw]; rfl, hrun.tiles, hrun.field_eq, ?_⟩
  intro a hf ha hla
  exact hrun.exists_subset hf ha hla

end TernaryRules
