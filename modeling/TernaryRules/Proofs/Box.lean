import Mathlib.Data.List.Forall2
import TernaryRules.Region

/-!
# Boxes

A point is a list of values.  The points with one coordinate in each of a list of intervals are a
*box*: the declared domain is a box, the region of a leaf is a box, and so are the points that a
rule accepts.  Each test of the library for points is membership in a box
(`Region.contains_eq_true`, `FeatureTable.containsPoint_eq_true`), and each operation on bounds is
read off its points (`mem_upTo?`, `mem_above?`, `mem_inter?`, `box_set`).

An interval is never empty, so a box has a point, its lower corner (`Box.corner`), and a box is
contained in another one only coordinate by coordinate (`Box.subset_iff`).
-/

namespace TernaryRules

instance : Membership Nat Interval where
  mem i v := i.lo ≤ v ∧ v ≤ i.hi

namespace Interval

theorem mem_def {i : Interval} {v : Nat} : v ∈ i ↔ i.lo ≤ v ∧ v ≤ i.hi := Iff.rfl

instance : HasSubset Interval where
  Subset i j := ∀ v ∈ i, v ∈ j

theorem contains_eq_true {i : Interval} {v : Nat} : i.contains v = true ↔ v ∈ i := by
  simp [contains, mem_def]

theorem lo_mem (i : Interval) : i.lo ∈ i := ⟨Nat.le_refl _, i.lo_le_hi⟩

theorem hi_mem (i : Interval) : i.hi ∈ i := ⟨i.lo_le_hi, Nat.le_refl _⟩

theorem subset_iff {i j : Interval} : i ⊆ j ↔ j.lo ≤ i.lo ∧ i.hi ≤ j.hi :=
  ⟨fun h => ⟨(h _ i.lo_mem).1, (h _ i.hi_mem).2⟩,
    fun h _ hv => ⟨Nat.le_trans h.1 hv.1, Nat.le_trans hv.2 h.2⟩⟩

theorem eq_of_subset {i j : Interval} (h : i ⊆ j) (h' : j ⊆ i) : i = j := by
  obtain ⟨hlo, hhi⟩ := subset_iff.1 h
  obtain ⟨hlo', hhi'⟩ := subset_iff.1 h'
  cases i
  cases j
  cases Nat.le_antisymm hlo' hlo
  cases Nat.le_antisymm hhi hhi'
  rfl

theorem mem_upTo? {i : Interval} {t v : Nat} :
    (∃ j, i.upTo? t = some j ∧ v ∈ j) ↔ v ∈ i ∧ v ≤ t := by
  unfold upTo?
  split
  · simp only [Option.some.injEq, exists_eq_left', mem_def]; omega
  · simp only [reduceCtorEq, false_and, exists_false, false_iff, mem_def]; omega

theorem mem_above? {i : Interval} {t v : Nat} :
    (∃ j, i.above? t = some j ∧ v ∈ j) ↔ v ∈ i ∧ t < v := by
  unfold above?
  split
  · simp only [Option.some.injEq, exists_eq_left', mem_def]; omega
  · simp only [reduceCtorEq, false_and, exists_false, false_iff, mem_def]; omega

theorem mem_inter? {i j : Interval} {v : Nat} :
    (∃ k, i.inter? j = some k ∧ v ∈ k) ↔ v ∈ i ∧ v ∈ j := by
  unfold inter?
  split
  · simp only [Option.some.injEq, exists_eq_left', mem_def]; omega
  · simp only [reduceCtorEq, false_and, exists_false, false_iff, mem_def]; omega

end Interval

/-- The points with one coordinate for each interval, within that interval. -/
def Box (intervals : List Interval) (point : List Nat) : Prop :=
  List.Forall₂ (fun i v => v ∈ i) intervals point

/-- A test of the coordinates one by one, for points of the right length. -/
theorem forall₂_iff_zip_all {α : Type} (test : α → Nat → Bool) {items : List α}
    {point : List Nat} :
    (point.length == items.length && (items.zip point).all fun (a, v) => test a v) = true ↔
      List.Forall₂ (fun a v => test a v = true) items point := by
  induction items generalizing point with
  | nil => cases point <;> simp
  | cons a items ih =>
      cases point with
      | nil => simp
      | cons v point =>
          rw [List.forall₂_cons, ← ih]
          simp [and_left_comm]

theorem Region.contains_eq_true {r : Region} {point : List Nat} :
    r.contains point = true ↔ Box r.intervals point := by
  rw [Region.contains, forall₂_iff_zip_all Interval.contains]
  simp only [Interval.contains_eq_true, Box]

theorem FeatureTable.containsPoint_eq_true {t : FeatureTable} {point : List Nat} :
    t.containsPoint point = true ↔ Box (t.features.map Feature.range) point := by
  refine (forall₂_iff_zip_all fun (f : Feature) v => f.range.contains v).trans ?_
  simp only [Interval.contains_eq_true, Box, List.forall₂_map_left_iff]

@[simp] theorem box_nil {point : List Nat} : Box [] point ↔ point = [] :=
  List.forall₂_nil_left_iff

@[simp] theorem box_cons {i : Interval} {is : List Interval} {v : Nat} {point : List Nat} :
    Box (i :: is) (v :: point) ↔ v ∈ i ∧ Box is point :=
  List.forall₂_cons

theorem Box.length_eq {is : List Interval} {point : List Nat} (h : Box is point) :
    is.length = point.length :=
  List.Forall₂.length_eq h

theorem Box.mem_of_getElem? {is : List Interval} {point : List Nat} (h : Box is point) {k v : Nat}
    {i : Interval} (hi : is[k]? = some i) (hv : point[k]? = some v) : v ∈ i := by
  induction h generalizing k with
  | nil => simp at hi
  | cons hm _ ih =>
      cases k with
      | zero =>
          obtain rfl := Option.some.inj hi
          obtain rfl := Option.some.inj hv
          exact hm
      | succ k => exact ih hi hv

/-- The lower corner of a box. -/
theorem Box.corner (is : List Interval) : Box is (is.map Interval.lo) := by
  induction is with
  | nil => exact .nil
  | cons i is ih => exact .cons i.lo_mem ih

/-- Boxes are contained in each other coordinate by coordinate. -/
theorem Box.subset_iff {is js : List Interval} :
    (∀ point, Box is point → Box js point) ↔ List.Forall₂ (· ⊆ ·) is js := by
  constructor
  · intro h
    induction is generalizing js with
    | nil =>
        have := h [] .nil
        cases js with
        | nil => exact .nil
        | cons => cases this
    | cons i is ih =>
        cases js with
        | nil => cases h _ (Box.corner (i :: is))
        | cons j js =>
            refine .cons (fun v hv => ?_) (ih fun point hp => ?_)
            · exact (box_cons.1 (h _ (box_cons.2 ⟨hv, Box.corner is⟩))).1
            · exact (box_cons.1 (h _ (box_cons.2 ⟨i.lo_mem, hp⟩))).2
  · intro h point hp
    induction h generalizing point with
    | nil => exact hp
    | cons hs _ ih =>
        cases hp with
        | cons hv hp => exact .cons (hs _ hv) (ih _ hp)

/-- Narrowing one interval of a box keeps the points whose coordinate lies in the new one. -/
theorem box_set {is : List Interval} {i j : Interval} {k : Nat} (hk : is[k]? = some i)
    (hj : j ⊆ i) {point : List Nat} :
    Box (is.set k j) point ↔ Box is point ∧ ∃ v, point[k]? = some v ∧ v ∈ j := by
  induction is generalizing k point with
  | nil => simp at hk
  | cons i' is ih =>
      cases point with
      | nil =>
          cases k <;> simp [Box]
      | cons v point =>
          cases k with
          | zero =>
              obtain rfl : i' = i := by simpa using hk
              simp only [List.set_cons_zero, box_cons, List.getElem?_cons_zero,
                Option.some.injEq, exists_eq_left']
              exact ⟨fun h => ⟨⟨hj _ h.1, h.2⟩, h.1⟩, fun h => ⟨h.2, h.1.2⟩⟩
          | succ k =>
              simp only [List.set_cons_succ, box_cons, List.getElem?_cons_succ,
                ih (by simpa using hk), and_assoc]

end TernaryRules
