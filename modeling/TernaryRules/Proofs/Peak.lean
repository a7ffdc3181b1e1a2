import TernaryRules.Proofs.Nesting

/-!
# The shape of a decomposition

A step of a walk opens as many bits as the alignment of its start allows, or fewer when the end of
the walk is near.  In the first case the next start is aligned to more bits; in the second the walk
*falls*: less than twice the block was left, so the next block is smaller and the walk falls there
too (`Walk.Falls`, `Walk.falls_next`, `Walk.rises_next`).  So the numbers of open bits rise to a
largest one, which may stand there twice, and fall after it (`Peaked`, `Walk.Run.peaked`).

Numbers that are peaked are few.  A block of half the field lies at one end of it, which leaves room
on one side only, so a decomposition has at most two blocks for each bit but one
(`Cover.length_le`), and the bounds that a walk gives on the number of blocks to come are right at
every point of it (`Walk.sizeHint_bounds`).
-/

namespace TernaryRules

/-! ### Peaked numbers -/

/-- The numbers rise to a largest one, which may stand there twice, and fall after it. -/
def Peaked (ns : List Nat) : Prop :=
  ∃ rise top fall, (ns = rise ++ top :: fall ∨ ns = rise ++ top :: top :: fall) ∧
    (rise ++ [top]).Pairwise (· < ·) ∧ (top :: fall).Pairwise (· > ·)

namespace Peaked

theorem of_falling {n : Nat} {ns : List Nat} (h : (n :: ns).Pairwise (· > ·)) : Peaked (n :: ns) :=
  ⟨[], n, ns, .inl rfl, List.pairwise_singleton _ _, h⟩

/-- A number before falling ones, and no smaller than the first of them. -/
theorem cons_falling {m n : Nat} {ns : List Nat} (h : (n :: ns).Pairwise (· > ·)) (hmn : n ≤ m) :
    Peaked (m :: n :: ns) := by
  rcases Nat.eq_or_lt_of_le hmn with rfl | hlt
  · exact ⟨[], n, ns, .inr rfl, List.pairwise_singleton _ _, h⟩
  · refine of_falling (List.pairwise_cons.2 ⟨fun k hk => ?_, h⟩)
    rcases List.mem_cons.1 hk with rfl | hk
    · exact hlt
    · exact Nat.lt_trans ((List.pairwise_cons.1 h).1 k hk) hlt

/-- A number before peaked ones, and smaller than the first of them. -/
theorem cons_rising {m n : Nat} {ns : List Nat} (h : Peaked (n :: ns)) (hmn : m < n) :
    Peaked (m :: n :: ns) := by
  obtain ⟨rise, top, fall, heq, hrise, hfall⟩ := h
  refine ⟨m :: rise, top, fall, ?_, ?_, hfall⟩
  · rcases heq with heq | heq
    · exact .inl (congrArg (m :: ·) heq)
    · exact .inr (congrArg (m :: ·) heq)
  · have hhead : (rise ++ [top]).head? = some n := by
      rcases heq with heq | heq <;> cases rise <;> simp_all
    refine List.isChain_iff_pairwise.1 (List.isChain_cons.2 ⟨fun k hk => ?_, ?_⟩)
    · exact Option.some.inj (hhead.symm.trans hk) ▸ hmn
    · exact List.isChain_iff_pairwise.2 hrise

end Peaked

/-- Distinct numbers below a bound are no more than the bound. -/
theorem length_le_of_nodup {ns : List Nat} {k : Nat} (h : ns.Nodup) (hk : ∀ n ∈ ns, n < k) :
    ns.length ≤ k := by
  have hsub : ns ⊆ List.range k := fun n hn => List.mem_range.2 (hk n hn)
  simpa using (h.subperm hsub).length_le

theorem length_le_of_rising {rise : List Nat} {top : Nat} (h : (rise ++ [top]).Pairwise (· < ·)) :
    rise.length ≤ top := by
  obtain ⟨hrise, -, htop⟩ := List.pairwise_append.1 h
  exact length_le_of_nodup (hrise.imp Nat.ne_of_lt) fun n hn =>
    htop n hn top (List.mem_singleton.2 rfl)

theorem length_le_of_falling {fall : List Nat} {top : Nat} (h : (top :: fall).Pairwise (· > ·)) :
    fall.length ≤ top := by
  obtain ⟨htop, hfall⟩ := List.pairwise_cons.1 h
  exact length_le_of_nodup (hfall.imp Nat.ne_of_gt) htop

/-- Where the sizes of items are peaked, the item at the top has at most as many items before it as
its size says, and as many behind it or else one more, since its size stands there again. -/
theorem Peaked.exists_top {α : Type} {size : α → Nat} {items : List α}
    (h : Peaked (items.map size)) :
    ∃ before a after, items = before ++ a :: after ∧ before.length ≤ size a ∧
      (after.length ≤ size a ∨ after.length ≤ size a + 1 ∧ ∃ c ∈ after, size c = size a) := by
  obtain ⟨rise, top, fall, heq, hrise, hfall⟩ := h
  have hr := length_le_of_rising hrise
  have hf := length_le_of_falling hfall
  rcases heq with heq | heq
  · obtain ⟨before, rest, rfl, rfl, hrest⟩ := List.map_eq_append_iff.1 heq
    obtain ⟨a, after, rfl, rfl, rfl⟩ := List.map_eq_cons_iff.1 hrest
    rw [List.length_map] at hr hf
    exact ⟨before, a, after, rfl, hr, .inl hf⟩
  · obtain ⟨before, rest, rfl, rfl, hrest⟩ := List.map_eq_append_iff.1 heq
    obtain ⟨a, rest', rfl, rfl, hrest'⟩ := List.map_eq_cons_iff.1 hrest
    obtain ⟨c, after, rfl, hc, rfl⟩ := List.map_eq_cons_iff.1 hrest'
    rw [List.length_map] at hr hf
    exact ⟨before, a, c :: after, rfl, hr, .inr ⟨Nat.succ_le_succ hf, c, List.mem_cons_self, hc⟩⟩

/-! ### Steps that rise and steps that fall -/

namespace Walk

variable {w : Walk} {start : Nat}

theorem last_blockAt_add_one (h : start ≤ w.hi) :
    (w.blockAt start h).last + 1 = start + 2 ^ w.openBits start :=
  (w.blockAt start h).last_add_one

theorem pow_openBits_dvd (w : Walk) (start : Nat) : 2 ^ w.openBits start ∣ start :=
  Nat.dvd_trans (Nat.pow_dvd_pow 2 (shrink_le _ _)) (pow_alignment_dvd _ _)

theorem openBits_le (w : Walk) (start : Nat) : w.openBits start ≤ w.field.bits :=
  Nat.le_trans (shrink_le _ _) (alignment_le _ _)

/-- The end of the walk allows fewer open bits than the alignment of the start. -/
def Falls (w : Walk) (start : Nat) : Prop :=
  w.openBits start < alignment start w.field.bits

/-- Where the walk falls, another bit would run past the end. -/
theorem Falls.room_lt (h : w.Falls start) : w.hi - start < lowMask (w.openBits start + 1) := by
  refine Nat.lt_of_not_le fun hroom => ?_
  exact absurd (le_shrink hroom h) (Nat.not_succ_le_self _)

/-- After a block at which the walk falls, the next one is smaller and the walk falls on. -/
theorem falls_next (h : w.Falls start) (hs : start ≤ w.hi)
    (hn : (w.blockAt start hs).last + 1 ≤ w.hi) :
    w.openBits ((w.blockAt start hs).last + 1) < w.openBits start ∧
      w.Falls ((w.blockAt start hs).last + 1) := by
  rw [last_blockAt_add_one] at hn ⊢
  have hroom := h.room_lt
  have hdouble : lowMask (w.openBits start + 1) + 1 = 2 ^ w.openBits start * 2 := by
    rw [lowMask_add_one, Nat.pow_succ]
  have hpow := lowMask_add_one (w.openBits start)
  have hleft : w.hi - (start + 2 ^ w.openBits start) < lowMask (w.openBits start) := by omega
  have hless : w.openBits (start + 2 ^ w.openBits start) < w.openBits start := by
    refine Nat.lt_of_not_le fun hle => Nat.not_lt.2 (lowMask_mono hle) ?_
    exact Nat.lt_of_le_of_lt (lowMask_shrink_le _ _) hleft
  have hdvd : 2 ^ w.openBits start ∣ start + 2 ^ w.openBits start :=
    Nat.dvd_add (w.pow_openBits_dvd start) (Nat.dvd_refl _)
  exact ⟨hless, Nat.lt_of_lt_of_le hless (le_alignment hdvd (w.openBits_le start))⟩

/-- After a block as large as its alignment allows, the next start is aligned to more bits. -/
theorem rises_next (h : ¬ w.Falls start) (hs : start ≤ w.hi)
    (hn : (w.blockAt start hs).last + 1 ≤ w.hi) :
    w.openBits start < alignment ((w.blockAt start hs).last + 1) w.field.bits := by
  rw [last_blockAt_add_one] at hn ⊢
  have halign : alignment start w.field.bits ≤ w.openBits start := Nat.le_of_not_lt h
  have hbits : w.openBits start < w.field.bits := by
    have hmax : w.hi + 1 ≤ 2 ^ w.field.bits := by
      rw [← lowMask_add_one]
      exact Nat.succ_le_succ w.hi_le
    exact (Nat.pow_lt_pow_iff_right Nat.one_lt_two).1 (by omega)
  obtain ⟨q, hq⟩ := w.pow_openBits_dvd start
  -- the multiple is odd, since the start is not aligned to one bit more
  have hodd : ¬ 2 ∣ q := by
    rintro ⟨r, rfl⟩
    have hdvd : 2 ^ (w.openBits start + 1) ∣ start := ⟨r, by rw [Nat.pow_succ, Nat.mul_assoc, ← hq]⟩
    exact absurd ((le_alignment hdvd hbits).trans halign) (Nat.not_succ_le_self _)
  obtain ⟨r, hr⟩ : 2 ∣ q + 1 := by omega
  refine le_alignment ⟨r, ?_⟩ hbits
  rw [Nat.pow_succ, Nat.mul_assoc, ← hr, Nat.mul_succ, ← hq]

/-- When the next block is no larger, the walk falls there. -/
theorem falls_of_le (hs : start ≤ w.hi) (hn : (w.blockAt start hs).last + 1 ≤ w.hi)
    (hle : w.openBits ((w.blockAt start hs).last + 1) ≤ w.openBits start) :
    w.Falls ((w.blockAt start hs).last + 1) := by
  by_cases h : w.Falls start
  · exact (falls_next h hs hn).2
  · exact Nat.lt_of_le_of_lt hle (rises_next h hs hn)

namespace Run

variable {blocks : List Block}

theorem start_le (h : w.Run start blocks) : start ≤ w.hi := by
  cases h with
  | last h _ => exact h
  | step h _ => exact h

theorem wildcards_eq_cons (h : w.Run start blocks) :
    ∃ rest, blocks.map Block.wildcards = w.openBits start :: rest := by
  cases h with
  | last h _ => exact ⟨_, rfl⟩
  | step h _ => exact ⟨_, rfl⟩

theorem falling (h : w.Run start blocks) (hf : w.Falls start) :
    (blocks.map Block.wildcards).Pairwise (· > ·) := by
  refine List.isChain_iff_pairwise.1 ?_
  induction h with
  | last h _ => exact .singleton _
  | step h hrun ih =>
      obtain ⟨hless, hfalls⟩ := falls_next hf h hrun.start_le
      obtain ⟨rest, hrest⟩ := hrun.wildcards_eq_cons
      have hchain := ih hfalls
      rw [List.map_cons]
      rw [hrest] at hchain ⊢
      exact .cons_cons hless hchain

/-- The numbers of open bits of the blocks of a walk are peaked. -/
theorem peaked (h : w.Run start blocks) : Peaked (blocks.map Block.wildcards) := by
  induction h with
  | last h _ => exact .of_falling (List.pairwise_singleton _ _)
  | @step start h rest hrun ih =>
      obtain ⟨tail, htail⟩ := hrun.wildcards_eq_cons
      rw [List.map_cons]
      rcases Nat.lt_or_ge (w.openBits start) (w.openBits ((w.blockAt start h).last + 1)) with
        hlt | hge
      · rw [htail] at ih ⊢
        exact ih.cons_rising hlt
      · have hfalling := hrun.falling (falls_of_le h hrun.start_le hge)
        rw [htail] at hfalling ⊢
        exact .cons_falling hfalling hge

end Run

end Walk

/-! ### The number of blocks -/

namespace Block

/-- A block of half the field lies at one end of it. -/
theorem half {b : Block} (h : b.wildcards + 1 = b.field.bits) :
    b.first = 0 ∨ b.last = b.field.maxValue := by
  obtain ⟨q, hq⟩ := b.aligned
  have hmax : b.field.maxValue + 1 = 2 ^ b.wildcards * 2 := by
    rw [Field.maxValue, lowMask_add_one, ← h, Nat.pow_succ]
  have hlast := b.last_add_one
  have hq2 : q < 2 := by
    refine Nat.lt_of_mul_lt_mul_left (a := 2 ^ b.wildcards) ?_
    rw [← hmax, ← hq]
    exact Nat.lt_succ_of_le b.first_le
  obtain rfl | rfl : q = 0 ∨ q = 1 := by omega
  · exact .inl hq
  · exact .inr (by omega)

/-- A block with all bits open is the whole field. -/
theorem full {b : Block} (h : b.wildcards = b.field.bits) :
    b.first = 0 ∧ b.last = b.field.maxValue := by
  have hlt : b.first < 2 ^ b.wildcards := by
    rw [h, ← lowMask_add_one]
    exact Nat.lt_succ_of_le b.first_le
  have hfirst := Nat.eq_zero_of_dvd_of_lt b.aligned hlt
  refine ⟨hfirst, ?_⟩
  rw [last, hfirst, Nat.zero_add, h, Field.maxValue]

/-- The block of all values of a field. -/
theorem exists_full (field : Field) :
    ∃ b : Block, b.field = field ∧ b.first = 0 ∧ b.last = field.maxValue := by
  let b : Block := ⟨field, 0, field.bits, Nat.le_refl _, Nat.zero_le _, Nat.dvd_zero _⟩
  exact ⟨b, rfl, full (b := b) rfl⟩

end Block

namespace Cover

variable {field : Field} {lo hi : Nat}

/-- The whole field is covered by one block. -/
theorem length_whole {blocks : List Block} (h : Cover field 0 field.maxValue blocks) :
    blocks.length = 1 := by
  obtain ⟨b, rfl, hfirst, hlast⟩ := Block.exists_full field
  rw [← hfirst, ← hlast] at h
  rw [h.eq_singleton, List.length_singleton]

/-- Short of the whole field, a block of half the field has blocks of a cover on one side only, and
none of its own size. -/
theorem half_at_end {before after : List Block} {b : Block}
    (h : Cover field lo hi (before ++ b :: after)) (hh : hi ≤ field.maxValue)
    (hp : ¬ (lo = 0 ∧ hi = field.maxValue)) (hb : b.wildcards + 1 = field.bits) :
    before = [] ∧ (∀ c ∈ after, c.wildcards ≠ b.wildcards) ∨ after = [] := by
  have hfield : ∀ c ∈ before ++ b :: after, c.field = field := h.field_eq
  have hmem : b ∈ before ++ b :: after := List.mem_append_right _ List.mem_cons_self
  have hafter : ∀ c ∈ after, c ∈ before ++ b :: after := fun c hc =>
    List.mem_append_right _ (List.mem_cons_of_mem _ hc)
  obtain ⟨-, hlater, hearlier⟩ := List.pairwise_append.1 h.tiles.pairwise_lt
  have hbehind := (List.pairwise_cons.1 hlater).1
  rcases Block.half (b := b) (by rw [hb, hfield b hmem]) with hfirst | hlast
  · refine .inl ⟨List.eq_nil_iff_forall_not_mem.2 fun c hc => ?_, fun c hc hcb => ?_⟩
    · have := hearlier c hc b List.mem_cons_self
      omega
    · -- the other half would complete the field
      have hlt := hbehind c hc
      rcases Block.half (b := c) (by rw [hcb, hb, hfield c (hafter c hc)]) with hzero | hlast
      · omega
      · have hlo := (h.tiles.bounds b hmem).1
        have hhi := (h.tiles.bounds c (hafter c hc)).2
        rw [hlast, hfield c (hafter c hc)] at hhi
        exact absurd ⟨by omega, by omega⟩ hp
  · refine .inr (List.eq_nil_iff_forall_not_mem.2 fun c hc => ?_)
    have hlt := hbehind c hc
    have hle := c.first_le
    rw [hlast, hfield b hmem] at hlt
    rw [hfield c (hafter c hc)] at hle
    omega

/-- A decomposition has at most two blocks for each bit of the field but one. -/
theorem length_le {blocks : List Block} (h : Cover field lo hi blocks) (hh : hi ≤ field.maxValue)
    (hp : Peaked (blocks.map Block.wildcards)) : blocks.length ≤ max 1 (2 * field.bits - 2) := by
  by_cases hwhole : lo = 0 ∧ hi = field.maxValue
  · obtain ⟨rfl, rfl⟩ := hwhole
    exact Nat.le_trans (Nat.le_of_eq h.length_whole) (Nat.le_max_left _ _)
  have hone := field.one_le
  obtain ⟨before, b, after, rfl, hbefore, hafter⟩ := hp.exists_top
  have hmem : b ∈ before ++ b :: after := List.mem_append_right _ List.mem_cons_self
  have hfield : b.field = field := h.field_eq b hmem
  have hbits : b.wildcards ≤ field.bits := hfield ▸ b.wildcards_le
  rw [List.length_append, List.length_cons]
  rcases Nat.lt_trichotomy (b.wildcards + 1) field.bits with hlt | heq | hgt
  · omega
  · rcases h.half_at_end hh hwhole heq with ⟨rfl, hsingle⟩ | rfl
    · rcases hafter with hafter | ⟨-, c, hc, hcb⟩
      · rw [List.length_nil]
        omega
      · exact absurd hcb (hsingle c hc)
    · rw [List.length_nil]
      omega
  · -- with all bits open the block would be the whole field
    obtain ⟨hfirst, hlast⟩ := Block.full (b := b) (by rw [hfield]; omega)
    obtain ⟨hlo, hhi⟩ := h.tiles.bounds b hmem
    rw [hlast, hfield] at hhi
    exact absurd ⟨by omega, by omega⟩ hwhole

end Cover

/-! ### Requests for blocks -/

namespace Walk

/-- The walk after one more request for a block; a walk that is done stays as it is. -/
def advance (w : Walk) : Walk :=
  match w.step with
  | none => w
  | some (_, w') => w'

theorem step_eq_none_iff {w : Walk} : w.step = none ↔ w.next = none := by
  rw [step]
  split
  · rename_i hn
    simp [hn]
  · rename_i hn
    simp [hn]

theorem field_of_step {w w' : Walk} {b : Block} (h : w.step = some (b, w')) :
    w'.field = w.field := by
  rw [step] at h
  split at h
  · cases h
  · cases h
    rfl

theorem field_advance (w : Walk) : w.advance.field = w.field := by
  rw [advance]
  split
  · rfl
  · rename_i h
    exact field_of_step h

theorem blocks_advance (w : Walk) : w.advance.blocks = w.blocks.tail := by
  rw [advance]
  split
  · rename_i h
    rw [blocks_of_done h, List.tail_nil]
  · rename_i h
    rw [blocks_of_step h, List.tail_cons]

theorem field_iterate (w : Walk) : ∀ n, (advance^[n] w).field = w.field
  | 0 => rfl
  | n + 1 => by
      rw [Function.iterate_succ_apply', field_advance, field_iterate w n]

/-- The blocks to come after some requests. -/
theorem blocks_iterate (w : Walk) : ∀ n, (advance^[n] w).blocks = w.blocks.drop n
  | 0 => rfl
  | n + 1 => by
      rw [Function.iterate_succ_apply', blocks_advance, blocks_iterate w n, List.tail_drop]

/-- A walk that is done stays so. -/
theorem iterate_of_done {w : Walk} (h : w.step = none) (n : Nat) : advance^[n] w = w := by
  have hfix : w.advance = w := by rw [advance, h]
  exact Function.iterate_fixed hfix n

theorem sizeHint_of_done {w : Walk} (h : w.step = none) : w.sizeHint = (0, 0) := by
  rw [sizeHint, step_eq_none_iff.1 h]

/-- The bounds on the number of blocks to come are right when these are no more than two for each
bit. -/
theorem sizeHint_bounds {w : Walk} (h : w.blocks.length ≤ 2 * w.field.bits) :
    w.sizeHint.1 ≤ w.blocks.length ∧ w.blocks.length ≤ w.sizeHint.2 := by
  cases hs : w.step with
  | none =>
      rw [sizeHint_of_done hs, blocks_of_done hs]
      exact ⟨Nat.le_refl _, Nat.le_refl _⟩
  | some next =>
      have hhint : w.sizeHint = (1, 2 * w.field.bits) := by
        rw [sizeHint]
        split
        · rename_i hn
          rw [step_eq_none_iff.2 hn] at hs
          cases hs
        · rfl
      rw [hhint]
      refine ⟨?_, h⟩
      rw [blocks_of_step hs]
      exact Nat.succ_le_succ (Nat.zero_le _)

/-- What a walk says of the blocks to come after `n` requests, when it started with the given
ones. -/
structure Foretells (w : Walk) (blocks : List Block) (n : Nat) : Prop where
  blocks_eq : (advance^[n] w).blocks = blocks.drop n
  lower : (advance^[n] w).sizeHint.1 ≤ (blocks.drop n).length
  upper : (blocks.drop n).length ≤ (advance^[n] w).sizeHint.2
  done : (advance^[n] w).step = none → ∀ m, (advance^[n + m] w).step = none ∧
    (advance^[n + m] w).sizeHint = (0, 0)

theorem foretells {w : Walk} (h : w.blocks.length ≤ 2 * w.field.bits) (n : Nat) :
    w.Foretells w.blocks n := by
  have hfew : (advance^[n] w).blocks.length ≤ 2 * (advance^[n] w).field.bits := by
    rw [blocks_iterate, field_iterate, List.length_drop]
    exact Nat.le_trans (Nat.sub_le _ _) h
  obtain ⟨hlower, hupper⟩ := sizeHint_bounds hfew
  rw [blocks_iterate] at hlower hupper
  refine ⟨w.blocks_iterate n, hlower, hupper, fun hdone m => ?_⟩
  rw [Nat.add_comm, Function.iterate_add_apply, iterate_of_done hdone]
  exact ⟨hdone, sizeHint_of_done hdone⟩

end Walk

/-- **Decompositions rise and fall.**  The numbers of open bits of the blocks rise to a largest one,
which may stand there twice, and fall after it, so there are at most two blocks for each bit but
one.  Before each request for a block, the walk knows bounds on the number of blocks to come, and
once it is done it stays so. -/
theorem decompose_peaked {field : Field} {lo hi : Nat} (hl : lo ≤ hi) (hh : hi ≤ field.maxValue) :
    ∃ w blocks, Walk.ofBounds field lo hi = .ok w ∧ decompose field lo hi = .ok blocks ∧
      Peaked (blocks.map Block.wildcards) ∧ blocks.length ≤ max 1 (2 * field.bits - 2) ∧
      ∀ n, w.Foretells blocks n := by
  obtain ⟨blocks, hb, hcover⟩ := decompose_cover hl hh
  have hw : Walk.ofBounds field lo hi = .ok ⟨field, hi, hh, some ⟨lo, hl⟩⟩ := by
    rw [Walk.ofBounds, dif_pos hl, dif_pos hh]
  obtain rfl : Walk.blocks ⟨field, hi, hh, some ⟨lo, hl⟩⟩ = blocks := by
    rw [decompose, hw] at hb
    exact Except.ok.inj hb
  have hpeaked := (Walk.run_blocks ⟨field, hi, hh, some ⟨lo, hl⟩⟩ hl).peaked
  have hlength := hcover.length_le hh hpeaked
  have htwo : max 1 (2 * field.bits - 2) ≤ 2 * field.bits := by
    have hone := field.one_le
    omega
  exact ⟨_, _, hw, hb, hpeaked, hlength, Walk.foretells (hlength.trans htwo)⟩

/-- Two blocks for each bit but one. -/
theorem decompose_peaked_nibble :
    ∃ w blocks, Walk.ofBounds .nibble 1 14 = .ok w ∧ decompose .nibble 1 14 = .ok blocks ∧
      blocks.map Block.wildcards = [0, 1, 2, 2, 1, 0] ∧ Peaked (blocks.map Block.wildcards) ∧
      blocks.length ≤ 6 ∧ w.Foretells blocks 4 := by
  have hh : 14 ≤ Field.nibble.maxValue := by decide
  have hl : 1 ≤ 14 := by decide
  obtain ⟨w, blocks, hw, hb, hpeaked, hlength, hforetells⟩ := decompose_peaked hl hh
  refine ⟨w, blocks, hw, hb, ?_, hpeaked, hlength, hforetells 4⟩
  have hrun : (decompose .nibble 1 14).map (List.map Block.wildcards) = .ok [0, 1, 2, 2, 1, 0] := by
    decide +kernel
  rw [hb] at hrun
  exact Except.ok.inj hrun

end TernaryRules
