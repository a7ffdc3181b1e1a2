import TernaryRules.Double.Shortest
import TernaryRules.Json.Shapeless

/-!
# Faults of JSON texts

Reading fails at the first fault in the order of the text: the text ends too early, it is not
JSON, or it is JSON that does not describe the value wanted.
-/

namespace TernaryRules.Json

/-- A number as written: whole, whole and below zero, or with a point, an exponent or too many
digits for a word. -/
inductive Number where
  | natural (n : Nat)
  | negative (n : Nat)
  | fraction (d : Double)
deriving DecidableEq

/-- What stands where another kind of value is wanted. -/
inductive Found where
  | null
  | boolean (b : Bool)
  | number (n : Number)
  | text (s : String)
  | sequence
  | map
  | unitVariant
deriving DecidableEq

/-- What is being read when the text ends. -/
inductive Place where
  | list
  | object
  | text
  | value
deriving DecidableEq, Repr

inductive Fault where
  | ended (place : Place)
  | controlCharacter
  | expectedColon
  | expectedListEnd
  | expectedObjectEnd
  | expectedValue
  | expectedWord
  | invalidEscape
  | invalidNumber
  | keyNotText
  | loneSurrogate
  | numberOutOfRange
  | trailingCharacters
  | trailingComma
  | unpairedEscape
  | wrongType (found : Found) (expected : String)
  | wrongValue (n : Number) (expected : String)
  | wrongLength (length : Nat) (expected : String)
  | missingField (name : String)
  | repeatedField (name : String)
  | unknownVariant (name : String) (known : List String)
  | refused (message : String)
deriving DecidableEq

/-- The text ends early, is malformed, or describes no value of the kind wanted. -/
inductive Category where
  | ended
  | malformed
  | data
deriving DecidableEq, Repr

def Fault.category : Fault → Category
  | ended _ => .ended
  | wrongType .. | wrongValue .. | wrongLength .. | missingField _ | repeatedField _
  | unknownVariant .. | refused _ => .data
  | _ => .malformed

/-- The text of a character within quotes. -/
def quotedChar (c : Char) : List Char :=
  match c with
  | '"' => ['\\', '"']
  | '\\' => ['\\', '\\']
  | '\t' => ['\\', 't']
  | '\r' => ['\\', 'r']
  | '\n' => ['\\', 'n']
  | '\x00' => ['\\', '0']
  | c =>
      if isShapeless c then
        '\\' :: 'u' :: '\x7b' :: Numeral.write 16 c.toNat ++ ['\x7d']
      else [c]

/-- A text in quotes, for a message. -/
def quoted (s : String) : String := String.ofList ('"' :: s.toList.flatMap quotedChar ++ ['"'])

def Number.text : Number → String
  | natural n => toString n
  | negative n => s!"-{n}"
  | fraction d => d.text Double.pointed

def Found.describe : Found → String
  | null => "null"
  | boolean b => s!"boolean `{b}`"
  | number (.fraction d) => s!"floating point `{d.text Double.pointed}`"
  | number n => s!"integer `{n.text}`"
  | text s => s!"string {quoted s}"
  | sequence => "sequence"
  | map => "map"
  | unitVariant => "unit variant"

def Place.describe : Place → String
  | list => "a list"
  | object => "an object"
  | text => "a string"
  | value => "a value"

/-- Names in back quotes, for a choice between them. -/
def alternatives (names : List String) : String :=
  " or ".intercalate (names.map fun name => s!"`{name}`")

def Fault.message : Fault → String
  | ended place => s!"EOF while parsing {place.describe}"
  | controlCharacter => "control character (\\u0000-\\u001F) found while parsing a string"
  | expectedColon => "expected `:`"
  | expectedListEnd => "expected `,` or `]`"
  | expectedObjectEnd => "expected `,` or `\x7d`"
  | expectedValue => "expected value"
  | expectedWord => "expected ident"
  | invalidEscape => "invalid escape"
  | invalidNumber => "invalid number"
  | keyNotText => "key must be a string"
  | loneSurrogate => "lone leading surrogate in hex escape"
  | numberOutOfRange => "number out of range"
  | trailingCharacters => "trailing characters"
  | trailingComma => "trailing comma"
  | unpairedEscape => "unexpected end of hex escape"
  | wrongType found expected => s!"invalid type: {found.describe}, expected {expected}"
  | wrongValue n expected => s!"invalid value: {(Found.number n).describe}, expected {expected}"
  | wrongLength length expected => s!"invalid length {length}, expected {expected}"
  | missingField name => s!"missing field `{name}`"
  | repeatedField name => s!"duplicate field `{name}`"
  | unknownVariant name known => s!"unknown variant `{name}`, expected {alternatives known}"
  | refused message => message

/-- A position in a text: the line, counted from one, and the number of bytes before it there. -/
structure Position where
  line : Nat
  column : Nat
deriving DecidableEq, Repr

def Position.start : Position := ⟨1, 0⟩

/-- The position behind a character. -/
def Position.next (p : Position) (c : Char) : Position :=
  if c = '\n' then ⟨p.line + 1, 0⟩ else ⟨p.line, p.column + c.utf8Size⟩

/-- A fault and the position where it was noticed. -/
structure PlacedFault where
  fault : Fault
  position : Position
deriving DecidableEq

def PlacedFault.message (f : PlacedFault) : String :=
  s!"{f.fault.message} at line {f.position.line} column {f.position.column}"

end TernaryRules.Json
