import TernaryRules.Json.Reader

/-!
# Records in JSON

A record is written as an object with named fields, in any order, among which unknown ones are
passed over. It may also be a list of its fields in their order, where optional fields may be
missing at the end.
-/

namespace TernaryRules.Json

/-- A field of a record that is being read into a state. -/
structure Slot (σ : Type) where
  name : String
  required : Bool
  filled : σ → Bool
  read : σ → Reader σ

/-- The fields of a record in order, and the state with none of them read. -/
structure Record (σ : Type) where
  kind : String
  slots : List (Slot σ)
  blank : σ

namespace Record

variable {σ : Type} (r : Record σ)

/-- The number of fields, for a message. -/
def sized : String :=
  let n := r.slots.length
  let noun := if n = 1 then "element" else "elements"
  s!"{r.kind} with {n} {noun}"

/-- The value of a field that must be there. -/
def require {α : Type} (name : String) (value : Option α) : Except Fault α :=
  match value with
  | some a => .ok a
  | none => .error (.missingField name)

/-- The fields of an object. The first argument bounds the number of steps: none is longer than the
text. -/
def readKeys : List Char → Bool → σ → Reader σ
  | [], _, _ => throw (.ended .object)
  | _ :: steps, first, state => do
      if ← Reader.moreKeys first then
        Reader.skip
        let key ← Reader.take readText
        match r.slots.find? fun slot => slot.name == key with
        | none =>
            Reader.colon
            Reader.skipValue
            readKeys steps false state
        | some slot =>
            if slot.filled state then throw (.repeatedField key)
            else
              Reader.colon
              let state ← slot.read state
              readKeys steps false state
      else return state

/-- The fields of a list from number `index` on. -/
def readItems : List (Slot σ) → Nat → Bool → σ → Reader σ
  | [], _, _, state => return state
  | slot :: slots, index, first, state => do
      if ← Reader.moreItems first then
        let state ← slot.read state
        readItems slots (index + 1) false state
      else if slot.required then throw (.wrongLength index r.sized)
      else readItems slots (index + 1) first state

/-- A record, from the state in which its fields have been read. -/
def read {α : Type} (finish : σ → Except Fault α) : Reader α := do
  let c ← Reader.start
  if c = '\x7b' then
    Reader.skip
    let state ← r.readKeys (← get) true r.blank
    let a ← finish state
    Reader.skip
    return a
  else if c = '[' then
    Reader.skip
    let state ← r.readItems r.slots 0 true r.blank
    let a ← finish state
    Reader.closeList
    return a
  else Reader.mismatch r.kind

end Record

end TernaryRules.Json
