import TernaryRules.Fitted
import TernaryRules.Json.Record
import TernaryRules.Json.Writer

/-!
# Fitted classifiers in JSON

A classifier is a record of its arrays.
-/

namespace TernaryRules.Fitted

open Json

/-- The arrays that have been read. -/
structure Parts where
  childrenLeft : Option (List Int)
  childrenRight : Option (List Int)
  feature : Option (List Int)
  threshold : Option (List Double)
  value : Option (List (List (List Double)))
  classes : Option (List Double)

def record : Record Parts where
  kind := "struct SklearnTree"
  blank := ⟨none, none, none, none, none, none⟩
  slots := [
    { name := "children_left", required := true, filled := fun p => p.childrenLeft.isSome,
      read := fun p => return { p with childrenLeft := some (← Reader.list Reader.integer) } },
    { name := "children_right", required := true, filled := fun p => p.childrenRight.isSome,
      read := fun p => return { p with childrenRight := some (← Reader.list Reader.integer) } },
    { name := "feature", required := true, filled := fun p => p.feature.isSome,
      read := fun p => return { p with feature := some (← Reader.list Reader.integer) } },
    { name := "threshold", required := true, filled := fun p => p.threshold.isSome,
      read := fun p => return { p with threshold := some (← Reader.list Reader.double) } },
    { name := "value", required := true, filled := fun p => p.value.isSome,
      read := fun p => return { p with
        value := some (← Reader.list (Reader.list (Reader.list Reader.double))) } },
    { name := "classes", required := true, filled := fun p => p.classes.isSome,
      read := fun p => return { p with classes := some (← Reader.list Reader.double) } }]

def Parts.finish (p : Parts) : Except Fault Fitted := do
  let childrenLeft ← Record.require "children_left" p.childrenLeft
  let childrenRight ← Record.require "children_right" p.childrenRight
  let feature ← Record.require "feature" p.feature
  let threshold ← Record.require "threshold" p.threshold
  let value ← Record.require "value" p.value
  let classes ← Record.require "classes" p.classes
  return { childrenLeft, childrenRight, feature, threshold, value, classes }

def reader : Reader Fitted := record.read Parts.finish

/-- The classifier that a text describes. -/
def ofJson (text : String) : Except Fault Fitted := reader.run text

def json (m : Fitted) : List Char :=
  let ints (xs : List Int) := writeList (xs.map writeInt)
  let doubles (xs : List Double) := writeList (xs.map writeDouble)
  writeRecord [
    writeField "children_left" (ints m.childrenLeft),
    writeField "children_right" (ints m.childrenRight),
    writeField "feature" (ints m.feature),
    writeField "threshold" (doubles m.threshold),
    writeField "value" (writeList (m.value.map fun outputs => writeList (outputs.map doubles))),
    writeField "classes" (doubles m.classes)]

end TernaryRules.Fitted
