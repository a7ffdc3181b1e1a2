import TernaryRules.Proofs.Agreement

/-!
# Ordered products

A region is expanded to the product of the covers of its intervals, and an odometer finds the tuples
of the product.  From its start to the setting that has no next one (`Odometer.Run`), each turn
leaves the positions within the lists (`Odometer.box_advance`), so the odometer never points beside
an item, and it has shown as many settings as there are tuples (`Odometer.exists_exhausts`).

Blocks of a cover stand in increasing order, so the tuples stand in the lexicographic order of their
first values (`tuples_increasing`), each of them once.
-/

namespace TernaryRules

/-! ### Lexicographic order -/

/-- Tuples of lists in increasing order stand in lexicographic order. -/
theorem tuples_increasing {α : Type} {key : α → Nat} {lists : List (List α)}
    (h : ∀ items ∈ lists, items.Pairwise fun a b => key a < key b) :
    (tuples lists).Pairwise fun s t => s.map key < t.map key := by
  induction lists with
  | nil => exact List.pairwise_singleton _ _
  | cons items lists ih =>
      have hrest := ih fun items hi => h items (List.mem_cons_of_mem _ hi)
      refine List.pairwise_flatMap.2 ⟨fun a _ => ?_, ?_⟩
      · -- tuples with the same first item are compared further on
        exact List.pairwise_map.2 (hrest.imp fun hlt => List.cons_lt_cons_iff.2 (.inr ⟨rfl, hlt⟩))
      · refine (h items List.mem_cons_self).imp fun hlt s hs t ht => ?_
        obtain ⟨s, _, rfl⟩ := List.mem_map.1 hs
        obtain ⟨t, _, rfl⟩ := List.mem_map.1 ht
        exact List.cons_lt_cons_iff.2 (.inl hlt)

/-- The tuples of the lists, each once, in the order of their first values; the first list changes
slowest. -/
structure Ordered (lists cells : List (List Block)) : Prop where
  mem_iff : ∀ cell, cell ∈ cells ↔ List.Forall₂ (· ∈ ·) cell lists
  nodup : cells.Nodup
  increasing : cells.Pairwise fun s t => s.map Block.first < t.map Block.first

theorem Tiles.first_lt {lo hi : Nat} {blocks : List Block} (h : Tiles lo hi blocks) :
    blocks.Pairwise fun a b => a.first < b.first :=
  h.pairwise_lt.imp fun {a _} hlt => Nat.lt_of_le_of_lt a.interval.lo_le_hi hlt

theorem Covers.ordered {is : List Interval} {fs : List Feature} {lists : List (List Block)}
    (h : Covers is fs lists) : Ordered lists (tuples lists) := by
  have hfirst : ∀ blocks ∈ lists, blocks.Pairwise fun a b => a.first < b.first := by
    intro blocks hb
    obtain ⟨lo, hi, htiles⟩ := h.tiles blocks hb
    exact htiles.first_lt
  have hincreasing := tuples_increasing hfirst
  refine ⟨fun cell => mem_tuples, hincreasing.imp fun {s t} hlt => ?_, hincreasing⟩
  rintro rfl
  exact List.lt_irrefl _ hlt

/-! ### Runs of an odometer -/

namespace Odometer

/-- The settings that are seen from one on, up to the one that has no next. -/
inductive Run (wheels : List Interval) : List Nat → List (List Nat) → Prop
  | last {digits : List Nat} : advance wheels digits = none → Run wheels digits [digits]
  | turn {digits digits' : List Nat} {seen : List (List Nat)} :
      advance wheels digits = some digits' → Run wheels digits' seen →
        Run wheels digits (digits :: seen)

theorem run_onward (wheels : List Interval) (digits : List Nat) :
    Run wheels digits (onward wheels digits) := by
  rw [onward_advance]
  cases h : advance wheels digits with
  | none => exact .last h
  | some digits' =>
      have := toCome_advance_lt h
      exact .turn h (run_onward wheels digits')
termination_by toCome wheels digits

theorem run_settings (wheels : List Interval) : Run wheels (start wheels) (settings wheels) := by
  rw [settings, settingsFrom_eq, List.nil_append]
  exact run_onward wheels (start wheels)

/-- **One turn** leaves every digit on its wheel. -/
theorem box_advance {wheels : List Interval} {digits digits' : List Nat} (hb : Box wheels digits)
    (h : advance wheels digits = some digits') : Box wheels digits' := by
  induction hb generalizing digits' with
  | nil => cases h
  | @cons wheel digit wheels digits hd hb ih =>
      rw [advance] at h
      split at h
      · rename_i later hlater
        cases h
        exact .cons hd (ih hlater)
      · split at h
        · rename_i hlt
          cases h
          exact .cons ⟨Nat.le_succ_of_le hd.1, hlt⟩ (Box.corner wheels)
        · cases h

theorem Run.box {wheels : List Interval} {digits : List Nat} {seen : List (List Nat)}
    (h : Run wheels digits seen) (hb : Box wheels digits) : ∀ s ∈ seen, Box wheels s := by
  induction h with
  | last _ =>
      intro s hs
      exact List.mem_singleton.1 hs ▸ hb
  | turn h _ ih =>
      intro s hs
      rcases List.mem_cons.1 hs with rfl | hs
      · exact hb
      · exact ih (box_advance hb h) s hs

variable {α : Type}

/-- The positions at which there is an item in each list. -/
def InRange (lists : List (List α)) (positions : List Nat) : Prop :=
  List.Forall₂ (fun items k => k < items.length) lists positions

theorem lt_length_of_mem {items : List α} {wheel : Interval} (h : wheel? items = some wheel)
    {k : Nat} (hk : k ∈ wheel) : k < items.length := by
  cases items with
  | nil => cases h
  | cons a items =>
      obtain rfl := Option.some.inj h
      exact Nat.lt_succ_of_le hk.2

theorem inRange_of_box {lists : List (List α)} {wheels : List Interval}
    (h : lists.mapM wheel? = some wheels) {positions : List Nat} (hb : Box wheels positions) :
    InRange lists positions := by
  induction lists generalizing wheels positions with
  | nil =>
      obtain rfl := Option.some.inj h
      exact box_nil.1 hb ▸ .nil
  | cons items lists ih =>
      rw [mapM_option_cons] at h
      obtain ⟨wheel, hw, h⟩ := Option.bind_eq_some_iff.1 h
      obtain ⟨wheels, hws, rfl⟩ := Option.map_eq_some_iff.1 h
      cases hb with
      | cons hk hb => exact .cons (lt_length_of_mem hw hk) (ih hws hb)

/-- The odometer over some lists has come to its end, with the settings that were seen. -/
structure Exhausts (lists : List (List α)) (seen : List (List Nat)) : Prop where
  run : ∃ wheels, lists.mapM wheel? = some wheels ∧ Run wheels (start wheels) seen
  in_range : ∀ positions ∈ seen, InRange lists positions
  length_eq : seen.length = (lists.map List.length).prod
  choices_eq : choices lists = seen.map (pick lists)

theorem exists_exhausts {lists : List (List α)} (h : [] ∉ lists) :
    ∃ seen, Exhausts lists seen := by
  cases hw : lists.mapM wheel? with
  | none => exact absurd (nil_mem_of_mapM_wheel? hw) h
  | some wheels =>
      have hrun := run_settings wheels
      have hchoices : choices lists = (settings wheels).map (pick lists) := by
        rw [choices, hw]
      refine ⟨settings wheels, ⟨wheels, hw, hrun⟩, fun positions hp => ?_, ?_, hchoices⟩
      · exact inRange_of_box hw (hrun.box (Box.corner wheels) positions hp)
      · rw [← length_tuples, ← choices_eq_tuples, hchoices, List.length_map]

end Odometer

/-! ### The product of a region -/

/-- The bodies of a region are the tuples of the decompositions of its intervals, in order. -/
structure Region.ExpandsInOrder (r : Region) (table : FeatureTable) (lists : List (List Block))
    (bodies : List RuleBody) : Prop where
  lists_eq : List.Forall₂ (fun (i, f) blocks => decompose f.field i.lo i.hi = .ok blocks)
    (r.intervals.zip table.features) lists
  length_eq : r.intervals.length = table.size
  expand_eq : r.expand table = .ok bodies
  ordered : Ordered lists (bodies.map RuleBody.blocks)
  label_eq : ∀ b ∈ bodies, b.label = r.label
  exhausts : ∃ seen, Odometer.Exhausts lists seen ∧
    bodies.map RuleBody.blocks = seen.map (Odometer.pick lists)
  matched : ∀ point, r.contains point = true →
    ∃! k : Nat, ∃ b, bodies[k]? = some b ∧ Matches b.blocks point
  unmatched : ∀ point, r.contains point = false → ∀ b ∈ bodies, ¬ Matches b.blocks point

theorem Region.Fits.expandsInOrder {r : Region} {table : FeatureTable} (h : r.Fits table) :
    ∃ lists bodies, r.ExpandsInOrder table lists bodies := by
  obtain ⟨lists, hlists, hdecomposed⟩ := h.decomposed_eq_ok
  have hexpand := expand_of_decomposed hdecomposed
  have hblocks : ((tuples lists).map fun blocks => RuleBody.mk blocks r.label).map RuleBody.blocks =
      tuples lists := by
    rw [List.map_map]
    exact List.map_id _
  obtain ⟨seen, hseen⟩ := Odometer.exists_exhausts hlists.nil_notMem
  obtain ⟨hexclusive, hpoints, hlabel⟩ := h.bodies hexpand
  refine ⟨lists, _, mapM_eq_ok.1 hdecomposed, h.length_eq, hexpand, ?_, hlabel, ⟨seen, hseen, ?_⟩,
    fun point hp => ?_, fun point hp b hb hm => ?_⟩
  · rw [hblocks]
    exact hlists.ordered
  · rw [hblocks, ← hseen.choices_eq, Odometer.choices_eq_tuples]
  · exact hexclusive.existsUnique_position ((hpoints point).2 (Region.contains_eq_true.1 hp))
  · have hbox := (hpoints point).1 ⟨b, hb, hm⟩
    rw [Region.contains_eq_true.2 hbox] at hp
    cases hp

variable {tree : Tree} {table : FeatureTable} {extraction : Extraction} {region : Region}

/-- **Regions are expanded to ordered products.**  With the table it was extracted with, a region is
expanded to all tuples of the blocks of its intervals, each once and in lexicographic order; with no
feature that is the empty tuple.  A point of the region matches exactly one of them and no other
point matches any.  The odometer stays within the lists and ends after as many settings as there are
tuples. -/
theorem expand_ordered (h : extract tree table = .ok extraction)
    (hr : region ∈ extraction.regions) :
    ∃ lists bodies, region.ExpandsInOrder table lists bodies ∧
      (table.features = [] → bodies = [⟨[], region.label⟩]) := by
  obtain ⟨lists, bodies, hexpands⟩ := (fits_of_mem_regions h hr).expandsInOrder
  refine ⟨lists, bodies, hexpands, fun hnil => ?_⟩
  have hlists := hexpands.lists_eq
  rw [hnil, List.zip_nil_right, List.forall₂_nil_left_iff] at hlists
  subst hlists
  -- no list, so the odometer has one setting only
  obtain ⟨seen, hseen, hbodies⟩ := hexpands.exhausts
  have hone : bodies.length = 1 := by
    rw [← List.length_map RuleBody.blocks, hbodies, List.length_map, hseen.length_eq]
    rfl
  obtain ⟨b, rfl⟩ := List.length_eq_one_iff.1 hone
  have hempty := (hexpands.ordered.mem_iff b.blocks).1 List.mem_cons_self
  rw [List.forall₂_nil_right_iff] at hempty
  rw [← hempty, ← hexpands.label_eq b List.mem_cons_self]

/-- The interval from 8 to 12 is covered by a quarter of the nibble and by one point. -/
theorem expand_ordered_upper :
    ∃ lists bodies, Region.ExpandsInOrder ⟨2, 9, [⟨8, 12, by decide⟩]⟩ .nibble lists bodies ∧
      bodies.map (fun b => b.blocks.map Block.first) = [[8], [12]] := by
  have h : extract (Tree.stump 7 4 9) .nibble = .ok .halves := rfl
  have hr : Region.mk 2 9 [⟨8, 12, by decide⟩] ∈ Extraction.halves.regions := by
    simp [Extraction.halves]
  obtain ⟨lists, bodies, hexpands, -⟩ := expand_ordered h hr
  have hfirst : (Region.expand ⟨2, 9, [⟨8, 12, by decide⟩]⟩ .nibble).toOption.map
      (fun bodies => bodies.map fun b => b.blocks.map Block.first) = some [[8], [12]] := by
    decide +kernel
  rw [hexpands.expand_eq] at hfirst
  exact ⟨lists, bodies, hexpands, Option.some.inj hfirst⟩

end TernaryRules
