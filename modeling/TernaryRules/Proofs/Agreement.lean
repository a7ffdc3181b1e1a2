import TernaryRules.Proofs.Decomposition

/-!
# Counting and expanding agree

A region may be counted, covered and expanded with any table, be it the one it was extracted with or
not.  Intervals are set beside the features at the same positions, as far as both lists go.  All
three come to the decomposition of these intervals (`Region.decomposed`): the covers are its lists,
since the checks of a cover never fail (`Region.coverOf_eq`), the bodies are the tuples of the lists
(`Region.expand_eq`), and the count is the number of these tuples, clamped
(`Region.countRules_eq_decomposed`).  So they fail together, at the first interval that ends outside
of its field (`Region.decomposed_eq_error`), and with the same error.
-/

namespace TernaryRules

namespace Interval

variable {i : Interval} {field : Field}

/-- The end of an interval decides whether it is decomposed. -/
theorem decompose_eq_error_iff {e : DomainError} :
    decompose field i.lo i.hi = .error e ↔
      field.maxValue < i.hi ∧ e = .outOfField i.hi field.bits := by
  rcases Nat.lt_or_ge field.maxValue i.hi with hout | hin
  · rw [decompose_eq_error hout]
    constructor
    · rintro ⟨⟩
      exact ⟨hout, rfl⟩
    · rintro ⟨-, rfl⟩
      rfl
  · obtain ⟨blocks, hb, -⟩ := decompose_cover i.lo_le_hi hin
    rw [hb]
    exact ⟨nofun, fun h => absurd h.1 (Nat.not_lt.2 hin)⟩

theorem exists_decompose_iff :
    (∃ blocks, decompose field i.lo i.hi = .ok blocks) ↔ i.hi ≤ field.maxValue := by
  constructor
  · rintro ⟨blocks, hb⟩
    refine Nat.le_of_not_lt fun hout => ?_
    rw [decompose_eq_error hout] at hb
    cases hb
  · intro hin
    obtain ⟨blocks, hb, -⟩ := decompose_cover i.lo_le_hi hin
    exact ⟨blocks, hb⟩

end Interval

namespace Region

/-- The count is the number of the tuples of the decompositions, clamped. -/
theorem countRules_eq_decomposed (r : Region) (table : FeatureTable) :
    r.countRules table = (r.decomposed table).map fun lists => clamp (tuples lists).length := by
  have hsteps : (fun ((i, f) : Interval × Feature) => blockCount f.field i.lo i.hi) =
      fun ((i, f) : Interval × Feature) => (decompose f.field i.lo i.hi).map List.length :=
    funext fun (i, f) => blockCount_eq_map f.field i.lo i.hi
  rw [countRules_eq, hsteps, mapM_map, ← decomposed]
  cases r.decomposed table with
  | error e => rfl
  | ok lists => exact congrArg (fun n => Except.ok (clamp n)) (length_tuples lists).symm

/-! ### The first misfit -/

/-- The interval at position `k` is the first that ends outside of the field beside it. -/
structure FirstMisfit (r : Region) (table : FeatureTable) (k : Nat) (i : Interval) (f : Feature) :
    Prop where
  interval : r.intervals[k]? = some i
  feature : table.features[k]? = some f
  outside : f.field.maxValue < i.hi
  before : ∀ j < k, ∀ (i' : Interval) (f' : Feature), r.intervals[j]? = some i' →
    table.features[j]? = some f' → i'.hi ≤ f'.field.maxValue

variable {r : Region} {table : FeatureTable}

theorem decomposed_eq_error {e : DomainError} :
    r.decomposed table = .error e ↔
      ∃ k i f, r.FirstMisfit table k i f ∧ e = .outOfField i.hi f.field.bits := by
  rw [decomposed, mapM_eq_error]
  constructor
  · rintro ⟨k, ⟨i, f⟩, hk, herror, hbefore⟩
    obtain ⟨hi, hf⟩ := List.getElem?_zip_eq_some.1 hk
    obtain ⟨hout, rfl⟩ := Interval.decompose_eq_error_iff.1 herror
    refine ⟨k, i, f, ⟨hi, hf, hout, fun j hj i' f' hi' hf' => ?_⟩, rfl⟩
    exact Interval.exists_decompose_iff.1
      (hbefore j hj (i', f') (List.getElem?_zip_eq_some.2 ⟨hi', hf'⟩))
  · rintro ⟨k, i, f, hfirst, rfl⟩
    refine ⟨k, (i, f), List.getElem?_zip_eq_some.2 ⟨hfirst.interval, hfirst.feature⟩,
      Interval.decompose_eq_error hfirst.outside, fun j hj p hp => ?_⟩
    obtain ⟨hi', hf'⟩ := List.getElem?_zip_eq_some.1 hp
    exact Interval.exists_decompose_iff.2 (hfirst.before j hj p.1 p.2 hi' hf')

/-! ### Agreement -/

/-- All three fail with the same error. -/
structure AllFail (r : Region) (table : FeatureTable) (e : DomainError) : Prop where
  count : r.countRules table = .error e
  covers : r.covers table = .error (.domain e)
  bodies : r.expand table = .error (.domain e)

/-- All three succeed: there is one list of blocks for each position that both the region and the
table have, the bodies are the tuples of these lists, and they are counted. -/
structure AllExpand (r : Region) (table : FeatureTable) (lists : List (List Block)) : Prop where
  length_eq : lists.length = min r.intervals.length table.size
  list_eq : ∀ (k : Nat) (i : Interval) (f : Feature), r.intervals[k]? = some i →
    table.features[k]? = some f → i.hi ≤ f.field.maxValue ∧
      ∃ blocks, lists[k]? = some blocks ∧ decompose f.field i.lo i.hi = .ok blocks
  covers : r.covers table = .ok lists
  bodies : r.expand table = .ok ((tuples lists).map fun blocks => ⟨blocks, r.label⟩)
  count : r.countRules table = .ok (clamp (tuples lists).length)

theorem allFail {e : DomainError} (h : r.decomposed table = .error e) : r.AllFail table e where
  count := by rw [countRules_eq_decomposed, h]; rfl
  covers := by rw [covers_eq, h]; rfl
  bodies := by rw [expand_eq, h]; rfl

theorem allExpand {lists : List (List Block)} (h : r.decomposed table = .ok lists) :
    r.AllExpand table lists where
  length_eq := by rw [← (mapM_eq_ok.1 h).length_eq, List.length_zip]; rfl
  list_eq k i f hi hf := by
    have hk := List.getElem?_zip_eq_some (z := (i, f)).2 ⟨hi, hf⟩
    obtain ⟨blocks, hblocks, hb⟩ := exists_getElem?_of_forall₂ (mapM_eq_ok.1 h).flip hk
    exact ⟨Interval.exists_decompose_iff.1 ⟨blocks, hb⟩, blocks, hblocks, hb⟩
  covers := by rw [covers_eq, h]; rfl
  bodies := expand_of_decomposed h
  count := by rw [countRules_eq_decomposed, h]; rfl

end Region

/-- **Counting and expanding agree.**  Whatever the table, a region is counted, covered and expanded
without an error, or all three complain of the first interval that ends outside of the field beside
it. -/
theorem counted_as_expanded (r : Region) (table : FeatureTable) :
    (∃ k i f, r.FirstMisfit table k i f ∧ r.AllFail table (.outOfField i.hi f.field.bits)) ∨
      ∃ lists, r.AllExpand table lists := by
  cases h : r.decomposed table with
  | error e =>
      obtain ⟨k, i, f, hfirst, rfl⟩ := Region.decomposed_eq_error.1 h
      exact .inl ⟨k, i, f, hfirst, Region.allFail h⟩
  | ok lists => exact .inr ⟨lists, Region.allExpand h⟩

/-- One feature of three bits. -/
def FeatureTable.octal : FeatureTable :=
  ⟨[⟨"octal", ⟨3, by decide, by decide⟩, ⟨0, 7, by decide⟩, by decide⟩]⟩

/-- The values 8 to 12 of four bits are too large for three. -/
theorem counted_as_expanded_octal :
    (Region.mk 2 9 [⟨8, 12, by decide⟩]).AllFail .octal (.outOfField 12 3) := by
  rcases counted_as_expanded ⟨2, 9, [⟨8, 12, by decide⟩]⟩ .octal with
    ⟨k, i, f, hfirst, hfail⟩ | ⟨lists, hexpand⟩
  · have hi := hfirst.interval
    have hf := hfirst.feature
    cases k with
    | zero =>
        cases Option.some.inj hi
        cases Option.some.inj hf
        exact hfail
    | succ k => cases hi
  · have hin := (hexpand.list_eq 0 _ _ rfl rfl).1
    exact absurd hin (by decide)

end TernaryRules
