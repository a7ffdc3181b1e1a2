import Mathlib.Data.List.Forall2
import TernaryRules.Odometer
import TernaryRules.Proofs.Partition

/-!
# Odometers run through products

`tuples` lists the ways to choose one item from each list by recursion on the lists.  The odometer
finds the same tuples in the same order, one setting after the other (`settings_eq_tuples`,
`choices_eq_tuples`): what a setting and those after it come to, `onward`, is the setting followed
by what the next one comes to (`onward_advance`).

A tuple has its points coordinate by coordinate, so the tuples of exclusive lists are exclusive
(`tuples_exclusive`).
-/

namespace TernaryRules

/-- All ways to choose one item from each list; the choice from the first list changes slowest. -/
def tuples {α : Type} : List (List α) → List (List α)
  | [] => [[]]
  | items :: lists => items.flatMap fun a => (tuples lists).map (a :: ·)

section Tuples

variable {α β : Type}

theorem mem_tuples : ∀ {lists : List (List α)} {tuple : List α},
    tuple ∈ tuples lists ↔ List.Forall₂ (· ∈ ·) tuple lists
  | [], tuple => by
      rw [tuples, List.mem_singleton, List.forall₂_nil_right_iff]
  | items :: lists, tuple => by
      simp only [tuples, List.mem_flatMap, List.mem_map, List.forall₂_cons_right_iff, mem_tuples]
      constructor
      · rintro ⟨a, ha, rest, hrest, rfl⟩
        exact ⟨a, rest, ha, hrest, rfl⟩
      · rintro ⟨a, rest, ha, hrest, rfl⟩
        exact ⟨a, ha, rest, hrest, rfl⟩

/-- The tuples of exclusive lists are exclusive. -/
theorem tuples_exclusive {R : α → β → Prop} {lists : List (List α)}
    (h : ∀ items ∈ lists, Exclusive R items) : Exclusive (List.Forall₂ R) (tuples lists) := by
  induction lists with
  | nil => exact List.pairwise_singleton _ _
  | cons items lists ih =>
      have hrest := ih fun items hi => h items (List.mem_cons_of_mem _ hi)
      refine List.pairwise_flatMap.2 ⟨fun a _ => ?_, ?_⟩
      · -- two tuples with the same first item differ further on
        refine List.pairwise_map.2 (hrest.imp fun hne point hp => ?_)
        obtain ⟨hs, ht⟩ := hp
        cases hs with
        | cons _ hs => exact hne _ ⟨hs, (List.forall₂_cons.1 ht).2⟩
      · refine (h items List.mem_cons_self).imp fun hne s hs t ht point hp => ?_
        obtain ⟨s, _, rfl⟩ := List.mem_map.1 hs
        obtain ⟨t, _, rfl⟩ := List.mem_map.1 ht
        obtain ⟨hs, ht⟩ := hp
        cases hs with
        | cons hs _ => exact hne _ ⟨hs, (List.forall₂_cons.1 ht).1⟩

end Tuples

namespace Odometer

/-- The values of an interval in order. -/
def values (i : Interval) : List Nat := List.range' i.lo i.size

/-- The settings from the given one on. -/
def onward : List Interval → List Nat → List (List Nat)
  | wheel :: wheels, digit :: digits =>
      (onward wheels digits).map (digit :: ·) ++
        (List.range' (digit + 1) (wheel.hi - digit)).flatMap fun d =>
          (tuples (wheels.map values)).map (d :: ·)
  | _, digits => [digits]

theorem onward_start : ∀ wheels : List Interval,
    onward wheels (start wheels) = tuples (wheels.map values)
  | [] => rfl
  | wheel :: wheels => by
      show onward (wheel :: wheels) (wheel.lo :: start wheels) = _
      rw [onward, onward_start wheels, List.map_cons, tuples, values, Interval.size,
        List.range'_succ, List.flatMap_cons]

/-- A setting comes before what the next setting comes to. -/
theorem onward_advance : ∀ (wheels : List Interval) (digits : List Nat),
    onward wheels digits = digits :: ((advance wheels digits).map (onward wheels)).getD []
  | [], _ => rfl
  | _ :: _, [] => rfl
  | wheel :: wheels, digit :: digits => by
      rw [advance, onward, onward_advance wheels digits]
      cases advance wheels digits with
      | some later => rfl
      | none =>
          -- the wheels behind are at their ends, so this one turns or is at its end too
          by_cases hlt : digit < wheel.hi
          · obtain ⟨k, hk⟩ : ∃ k, wheel.hi - digit = k + 1 := ⟨wheel.hi - digit - 1, by omega⟩
            have hk' : wheel.hi - (digit + 1) = k := by omega
            simp only [if_pos hlt, hk, List.range'_succ, List.flatMap_cons, Option.map_some,
              Option.getD_some, onward, hk', onward_start]
            rfl
          · have hzero : wheel.hi - digit = 0 := Nat.sub_eq_zero_of_le (Nat.le_of_not_lt hlt)
            simp only [if_neg hlt, hzero]
            rfl

theorem settingsFrom_eq (wheels : List Interval) (digits : List Nat) (seen : Array (List Nat)) :
    settingsFrom wheels digits seen = seen.toList ++ onward wheels digits := by
  rw [settingsFrom, onward_advance]
  split
  · rename_i h
    rw [h, Array.toList_push]
    rfl
  · rename_i later h
    have := toCome_advance_lt h
    rw [settingsFrom_eq wheels later, h, Array.toList_push, List.append_assoc]
    rfl
termination_by toCome wheels digits

/-- The settings are the points of the box of the wheels, in lexicographic order. -/
theorem settings_eq_tuples (wheels : List Interval) :
    settings wheels = tuples (wheels.map values) := by
  rw [settings, settingsFrom_eq, onward_start, List.nil_append]

variable {α : Type}

/-- A list with an empty one among its members has no tuples. -/
theorem tuples_eq_nil {lists : List (List α)} (h : [] ∈ lists) : tuples lists = [] := by
  induction lists with
  | nil => cases h
  | cons items lists ih =>
      rcases List.mem_cons.1 h with rfl | h
      · rfl
      · rw [tuples, ih h]
        exact List.flatMap_eq_nil_iff.2 fun _ _ => rfl

/-- The wheel of a list runs through the positions of the list. -/
theorem values_of_wheel? {items : List α} {wheel : Interval} (h : wheel? items = some wheel) :
    values wheel = List.range items.length := by
  cases items with
  | nil => cases h
  | cons a items =>
      obtain rfl := Option.some.inj h
      rw [values, List.range_eq_range']
      rfl

theorem wheel?_eq_none {items : List α} (h : wheel? items = none) : items = [] := by
  cases items with
  | nil => rfl
  | cons a items => cases h

/-- The items at the positions of a list are the items of the list. -/
theorem flatMap_positions {β : Type} (f : α → List β) : ∀ items : List α,
    (List.range items.length).flatMap (fun k => (items[k]?).toList.flatMap f) = items.flatMap f
  | [] => rfl
  | a :: items => by
      rw [List.length_cons, List.range_succ_eq_map, List.flatMap_cons, List.flatMap_map,
        List.flatMap_cons, ← flatMap_positions f items, List.getElem?_cons_zero]
      simp only [Option.toList_some, List.flatMap_singleton, List.getElem?_cons_succ,
        Nat.succ_eq_add_one]

theorem map_pick_tuples {lists : List (List α)} {wheels : List Interval}
    (h : lists.mapM wheel? = some wheels) :
    (tuples (wheels.map values)).map (pick lists) = tuples lists := by
  induction lists generalizing wheels with
  | nil =>
      obtain rfl := Option.some.inj h
      rfl
  | cons items lists ih =>
      rw [List.mapM_cons] at h
      obtain ⟨wheel, hw, h⟩ := Option.bind_eq_some_iff.1 h
      obtain ⟨wheels', hws, h⟩ := Option.bind_eq_some_iff.1 h
      obtain rfl := Option.some.inj h
      rw [List.map_cons, tuples, values_of_wheel? hw, List.map_flatMap, tuples,
        ← flatMap_positions (fun a => (tuples lists).map (a :: ·))]
      refine List.flatMap_congr fun k hk => ?_
      rw [List.getElem?_eq_getElem (List.mem_range.1 hk), Option.toList_some,
        List.flatMap_singleton, ← ih hws, List.map_map, List.map_map]
      refine List.map_congr_left fun digits _ => ?_
      simp only [Function.comp_apply, pick, List.zip_cons_cons, List.filterMap_cons,
        List.getElem?_eq_getElem (List.mem_range.1 hk)]

theorem nil_mem_of_mapM_wheel? {lists : List (List α)} (h : lists.mapM wheel? = none) :
    [] ∈ lists := by
  induction lists with
  | nil => cases h
  | cons items lists ih =>
      rw [List.mapM_cons] at h
      cases hw : wheel? items with
      | none => exact wheel?_eq_none hw ▸ List.mem_cons_self
      | some wheel =>
          cases hws : lists.mapM wheel? with
          | none => exact List.mem_cons_of_mem _ (ih hws)
          | some wheels =>
              rw [hw, hws] at h
              cases h

/-- The odometer finds the tuples of its lists in order. -/
theorem choices_eq_tuples (lists : List (List α)) : choices lists = tuples lists := by
  rw [choices]
  split
  · rename_i h
    exact (tuples_eq_nil (nil_mem_of_mapM_wheel? h)).symm
  · rename_i wheels h
    rw [settings_eq_tuples, map_pick_tuples h]

end Odometer

end TernaryRules
