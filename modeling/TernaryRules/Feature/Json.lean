import TernaryRules.Feature
import TernaryRules.Json.Record
import TernaryRules.Json.Writer

/-!
# Feature tables in JSON

A feature is a record of its name, its width and the bounds of its range, either of which may be
left to the field. A table is a record with the list of its features. Both bounds are always
written.
-/

namespace TernaryRules

open Json

/-- A width is written as its number of bits. -/
def Field.json (f : Field) : List Char := writeNat f.bits

def Field.reader : Reader Field := do
  match Field.ofWidth (← Reader.octet) with
  | .ok f => return f
  | .error e => throw (.refused e.message)

namespace Feature

/-- A feature as it is written, before it is known to fit its field. -/
structure Entry where
  name : String
  bits : Nat
  min : Option Nat
  max : Option Nat
deriving DecidableEq

/-- The fields of an entry that have been read. -/
structure Entry.Parts where
  name : Option String
  bits : Option Nat
  min : Option (Option Nat)
  max : Option (Option Nat)

def Entry.record : Record Entry.Parts where
  kind := "struct RawFeatureDomain"
  blank := ⟨none, none, none, none⟩
  slots := [
    { name := "name", required := true, filled := fun p => p.name.isSome,
      read := fun p => return { p with name := some (← Reader.text) } },
    { name := "bits", required := true, filled := fun p => p.bits.isSome,
      read := fun p => return { p with bits := some (← Reader.octet) } },
    { name := "min", required := false, filled := fun p => p.min.isSome,
      read := fun p => return { p with min := some (← Reader.option Reader.word64) } },
    { name := "max", required := false, filled := fun p => p.max.isSome,
      read := fun p => return { p with max := some (← Reader.option Reader.word64) } }]

def Entry.Parts.finish (p : Entry.Parts) : Except Fault Entry := do
  let name ← Record.require "name" p.name
  let bits ← Record.require "bits" p.bits
  return { name, bits, min := p.min.join, max := p.max.join }

/-- The feature that an entry describes. -/
def Entry.feature (e : Entry) : Except DomainError Feature := ofBounds e.name e.bits e.min e.max

def reader : Reader Feature := do
  match (← Entry.record.read Entry.Parts.finish).feature with
  | .ok f => return f
  | .error e => throw (.refused e.message)

def json (f : Feature) : List Char :=
  writeRecord [
    writeField "name" (writeText f.name),
    writeField "bits" f.field.json,
    writeField "min" (writeNat f.range.lo),
    writeField "max" (writeNat f.range.hi)]

end Feature

namespace FeatureTable

def record : Record (Option (List Feature)) where
  kind := "struct FeatureDomains"
  blank := none
  slots := [
    { name := "features", required := true, filled := Option.isSome,
      read := fun _ => return some (← Reader.list Feature.reader) }]

def reader : Reader FeatureTable :=
  record.read fun features => (Record.require "features" features).map FeatureTable.mk

/-- The table that a text describes. -/
def ofJson (text : String) : Except Fault FeatureTable := reader.run text

def json (t : FeatureTable) : List Char :=
  writeRecord [writeField "features" (writeList (t.features.map Feature.json))]

end FeatureTable

end TernaryRules
