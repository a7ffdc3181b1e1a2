import TernaryRules.Feature.Json
import TernaryRules.Proofs.Json.Number
import TernaryRules.Proofs.Json.Record

/-!
# Feature tables are read back

A table may be written from entries of any kind (`FeatureTable.entriesJson`): names, widths and
bounds that need not make sense, where a bound may be left out.  An entry is read as far as its
numbers are of the size its fields have room for (`Entry.reads`), and then it must describe a
feature: the width is that of a field, and the bounds, or what stands in for them, are in order and
within the field (`Entry.Valid`).  Nothing else is asked of a table, so reading one is reading its
entries (`reads_entriesJson`).

A table that is written is the text of such entries, with both bounds and all valid.
-/

namespace TernaryRules

open Json Json.Reader

/-! ### Features from numbers -/

theorem Field.ofWidth_bits (f : Field) : ofWidth f.bits = .ok f :=
  dif_pos ⟨f.one_le, f.le_sixtyFour⟩

theorem Field.ofWidth_eq_ok {bits : Nat} {f : Field} : ofWidth bits = .ok f ↔ f.bits = bits := by
  constructor
  · intro h
    unfold ofWidth at h
    split at h
    · cases h
      rfl
    · cases h
  · rintro rfl
    exact ofWidth_bits f

namespace Feature

/-- A feature is made from its own numbers and from no others. -/
theorem ofRange_eq_ok {name : String} {bits min max : Nat} {f : Feature} :
    ofRange name bits min max = .ok f ↔
      f.name = name ∧ f.field.bits = bits ∧ f.range.lo = min ∧ f.range.hi = max := by
  constructor
  · intro h
    unfold ofRange at h
    split at h
    · cases h
    · next field hfield =>
        split at h
        · cases h
          exact ⟨rfl, Field.ofWidth_eq_ok.1 hfield, rfl, rfl⟩
        · cases h
  · rintro ⟨rfl, rfl, rfl, rfl⟩
    rw [ofRange, Field.ofWidth_bits]
    exact dif_pos ⟨f.range.lo_le_hi, f.hi_le⟩

/-! ### Entries -/

namespace Entry

/-- The least value, where none is given as well. -/
def lo (e : Entry) : Nat := e.min.getD 0

/-- The largest value, where none is given as well. -/
def hi (e : Entry) : Nat := e.max.getD (lowMask e.bits)

/-- The width is that of a field and the range lies within it. -/
structure Valid (e : Entry) : Prop where
  one_le : 1 ≤ e.bits
  le_sixtyFour : e.bits ≤ 64
  lo_le_hi : e.lo ≤ e.hi
  hi_le : e.hi ≤ lowMask e.bits

/-- The feature has the name, the width and the range of the entry. -/
structure Describes (e : Entry) (f : Feature) : Prop where
  name : f.name = e.name
  bits : f.field.bits = e.bits
  lo : f.range.lo = e.lo
  hi : f.range.hi = e.hi

theorem feature_eq_ok {e : Entry} {f : Feature} : e.feature = .ok f ↔ e.Describes f := by
  constructor
  · intro h
    unfold feature ofBounds at h
    split at h
    · cases h
    · next field hfield =>
        have hbits : field.bits = e.bits := Field.ofWidth_eq_ok.1 hfield
        obtain ⟨hname, hwidth, hlo, hhi⟩ := ofRange_eq_ok.1 h
        exact ⟨hname, hwidth, hlo, by rw [hhi, Field.maxValue, hbits, Entry.hi]⟩
  · rintro ⟨hname, hbits, hlo, hhi⟩
    unfold feature ofBounds
    rw [Field.ofWidth_eq_ok.2 hbits]
    exact ofRange_eq_ok.2 ⟨hname, hbits, hlo, by rw [hhi, Field.maxValue, hbits, Entry.hi]⟩

theorem valid_iff_exists_describes {e : Entry} : e.Valid ↔ ∃ f, e.Describes f := by
  constructor
  · rintro ⟨hone, hle, hlo, hhi⟩
    exact ⟨⟨e.name, ⟨e.bits, hone, hle⟩, ⟨e.lo, e.hi, hlo⟩, hhi⟩, rfl, rfl, rfl, rfl⟩
  · rintro ⟨f, hname, hbits, hlo, hhi⟩
    refine ⟨hbits ▸ f.field.one_le, hbits ▸ f.field.le_sixtyFour, ?_, ?_⟩
    · rw [← hlo, ← hhi]
      exact f.range.lo_le_hi
    · rw [← hhi, ← hbits]
      exact f.hi_le

/-! ### Entries as texts -/

/-- A bound as it is written, unless it is left out. -/
def boundJson (name : String) (bound : Option Nat) : List (List Char) :=
  bound.toList.map fun n => writeField name (writeNat n)

def json (e : Entry) : List Char :=
  writeRecord ([writeField "name" (writeText e.name), writeField "bits" (writeNat e.bits)] ++
    boundJson "min" e.min ++ boundJson "max" e.max)

/-- The numbers are of the size that their fields have room for. -/
def Fits (e : Entry) : Prop :=
  e.bits ≤ 255 ∧ (∀ n ∈ e.min, n ≤ maxKey) ∧ ∀ n ∈ e.max, n ≤ maxKey

instance (e : Entry) : Decidable e.Fits := inferInstanceAs (Decidable (_ ∧ _ ∧ _))

theorem Valid.fits {e : Entry} (h : e.Valid) : e.Fits := by
  have hmask : lowMask e.bits ≤ maxKey :=
    Nat.sub_le_sub_right (Nat.pow_le_pow_right (by decide) h.le_sixtyFour) 1
  have hhi := h.hi_le
  have hlo := h.lo_le_hi
  refine ⟨Nat.le_trans h.le_sixtyFour (by decide), fun n hn => ?_, fun n hn => ?_⟩
  · rw [lo, Option.mem_def.1 hn, Option.getD_some] at hlo
    omega
  · rw [hi, Option.mem_def.1 hn, Option.getD_some] at hhi
    omega

/-- A bound is put in its place in the state, unless it is left out. -/
theorem fills_bound (name : String) {slot : Slot Parts} (place : Option (Option Nat) → Parts)
    (hslot : record.slots.find? (fun slot => slot.name == name) = some slot)
    (hfresh : slot.filled (place none) = false)
    (hread : slot.read (place none) =
      option word64 >>= fun bound => pure (place (some bound))) (bound : Option Nat) :
    record.Fills (place none) (boundJson name bound)
      (if ∀ n ∈ bound, n ≤ maxKey then some (place (bound.map some)) else none) := by
  cases bound with
  | none =>
      rw [if_pos (by simp)]
      exact .done (place none)
  | some n =>
      have hvalue := (reads_option_natural "u64" (Nat.le_refl maxKey) n).map (place <| some ·)
      have hfield : record.Fills (place none) (boundJson name (some n)) _ :=
        .single hslot hfresh (hread ▸ hvalue)
      simpa [apply_ite] using hfield

/-- The state in which an entry has been read. -/
def parts (e : Entry) : Parts := ⟨some e.name, some e.bits, e.min.map some, e.max.map some⟩

theorem fills (e : Entry) : record.Fills record.blank ([writeField "name" (writeText e.name)] ++
      [writeField "bits" (writeNat e.bits)] ++ boundJson "min" e.min ++ boundJson "max" e.max)
    (if e.Fits then some e.parts else none) := by
  have hname : record.Fills record.blank [writeField "name" (writeText e.name)]
      (if True then some ⟨some e.name, none, none, none⟩ else none) :=
    .single rfl rfl ((reads_textFor "a string" e.name).map _)
  have hbits : record.Fills ⟨some e.name, none, none, none⟩ [writeField "bits" (writeNat e.bits)]
      (if e.bits ≤ 255 then some ⟨some e.name, some e.bits, none, none⟩ else none) := by
    have hvalue := (reads_natural "u8" (by decide : 255 ≤ maxKey) e.bits).map fun bits =>
      (⟨some e.name, some bits, none, none⟩ : Parts)
    rw [apply_ite (Option.map _)] at hvalue
    exact .single rfl rfl hvalue
  have hmin := fills_bound "min" (⟨some e.name, some e.bits, ·, none⟩) rfl rfl rfl e.min
  have hmax := fills_bound "max" (⟨some e.name, some e.bits, e.min.map some, ·⟩) rfl rfl rfl e.max
  have hfits : e.Fits ↔ ((True ∧ e.bits ≤ 255) ∧ ∀ n ∈ e.min, n ≤ maxKey) ∧
      ∀ n ∈ e.max, n ≤ maxKey := by
    simp only [Fits, true_and, and_assoc]
  rw [if_congr hfits rfl rfl]
  exact ((hname.trans hbits).trans hmin).trans hmax

/-- An entry is read if its numbers have room. -/
theorem reads (e : Entry) :
    Reads (record.read Parts.finish) e.json (if e.Fits then some e else none) := by
  have hread := e.fills.reads Parts.finish
  have hfinish : e.parts.finish = .ok e := by
    obtain ⟨name, bits, _ | min, _ | max⟩ := e <;> rfl
  by_cases hfits : e.Fits
  · simp only [hfits, if_true, Option.bind_some, hfinish] at hread ⊢
    exact hread
  · simp only [hfits, if_false, Option.bind_none] at hread ⊢
    exact hread

end Entry

/-- **An entry is read as a feature exactly when it describes one.** -/
theorem reads_entry (e : Entry) : Reads reader e.json e.feature.toOption := by
  have hread : Reads reader e.json
      ((if e.Fits then some e else none).bind fun e => e.feature.toOption) :=
    e.reads.bind fun e cs => by cases e.feature <;> rfl
  by_cases hfits : e.Fits
  · rwa [if_pos hfits, Option.bind_some] at hread
  · rw [if_neg hfits, Option.bind_none] at hread
    cases hf : e.feature with
    | error => exact hread
    | ok f =>
        have hvalid := Entry.valid_iff_exists_describes.2 ⟨f, Entry.feature_eq_ok.1 hf⟩
        exact absurd hvalid.fits hfits

/-- The entry with the numbers of a feature. -/
def entry (f : Feature) : Entry := ⟨f.name, f.field.bits, some f.range.lo, some f.range.hi⟩

end Feature

namespace FeatureTable

/-- The text of a table with these entries, whether or not they are those of features. -/
def entriesJson (entries : List Feature.Entry) : List Char :=
  writeRecord [writeField "features" (writeList (entries.map Feature.Entry.json))]

theorem json_eq_entriesJson (t : FeatureTable) :
    t.json = entriesJson (t.features.map Feature.entry) := by
  rw [json, entriesJson, List.map_map]
  rfl

theorem reads_entriesJson (entries : List Feature.Entry) :
    Reads reader (entriesJson entries)
      ((entries.mapM Feature.Entry.feature).toOption.map FeatureTable.mk) := by
  have hlist : Reads (list Feature.reader) (writeList (entries.map Feature.Entry.json))
      (entries.mapM Feature.Entry.feature).toOption := by
    rw [← mapM_toOption]
    exact reads_list fun e _ => Feature.reads_entry e
  have hfields : record.Fills record.blank
      [writeField "features" (writeList (entries.map Feature.Entry.json))] _ :=
    .single rfl rfl (hlist.map some)
  have hread : Reads reader (entriesJson entries) _ :=
    hfields.reads fun features => (Record.require "features" features).map FeatureTable.mk
  cases h : entries.mapM Feature.Entry.feature <;> rwa [h] at hread

/-- Reading a table is reading its entries. -/
theorem ofJson_entriesJson_eq_ok {entries : List Feature.Entry} {t : FeatureTable} :
    ofJson (String.ofList (entriesJson entries)) = .ok t ↔
      List.Forall₂ Feature.Entry.Describes entries t.features := by
  have hmap : (entries.mapM Feature.Entry.feature).toOption.map FeatureTable.mk = some t ↔
      entries.mapM Feature.Entry.feature = .ok t.features := by
    rw [← toOption_eq_some]
    cases (entries.mapM Feature.Entry.feature).toOption with
    | none => exact ⟨nofun, nofun⟩
    | some features =>
        constructor
        · rintro ⟨⟩
          rfl
        · rintro ⟨⟩
          rfl
  rw [ofJson, (reads_entriesJson entries).run_eq_ok, hmap, mapM_eq_ok]
  simp only [Feature.Entry.feature_eq_ok]

theorem exists_describes_iff {entries : List Feature.Entry} :
    (∃ t : FeatureTable, List.Forall₂ Feature.Entry.Describes entries t.features) ↔
      ∀ e ∈ entries, e.Valid := by
  simp only [Feature.Entry.valid_iff_exists_describes]
  rw [← exists_forall₂_iff]
  exact ⟨fun ⟨t, h⟩ => ⟨t.features, h⟩, fun ⟨features, h⟩ => ⟨⟨features⟩, h⟩⟩

/-- **A table is read back from its text, and a list of entries as a table exactly when each of
them is valid.** -/
theorem ofJson_entries :
    (∀ t : FeatureTable, ofJson (String.ofList t.json) = .ok t) ∧
      (∀ entries : List Feature.Entry,
        ((∃ t, ofJson (String.ofList (entriesJson entries)) = .ok t) ↔ ∀ e ∈ entries, e.Valid) ∧
          ∀ t, ofJson (String.ofList (entriesJson entries)) = .ok t →
            List.Forall₂ Feature.Entry.Describes entries t.features) ∧
      ∀ text t, ofJson text = .ok t → ∀ f ∈ t.features,
        1 ≤ f.field.bits ∧ f.field.bits ≤ 64 ∧ f.range.lo ≤ f.range.hi ∧
          f.range.hi ≤ 2 ^ f.field.bits - 1 := by
  refine ⟨fun t => ?_, fun entries => ⟨?_, fun t h => ofJson_entriesJson_eq_ok.1 h⟩,
    fun text t _ f _ => ?_⟩
  · rw [json_eq_entriesJson, ofJson_entriesJson_eq_ok, List.forall₂_map_left_iff, List.forall₂_same]
    exact fun f _ => ⟨rfl, rfl, rfl, rfl⟩
  · simp only [ofJson_entriesJson_eq_ok]
    exact exists_describes_iff
  · exact ⟨f.field.one_le, f.field.le_sixtyFour, f.range.lo_le_hi, f.hi_le⟩

end FeatureTable

end TernaryRules
