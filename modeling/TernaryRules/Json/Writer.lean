import TernaryRules.Json.Text

/-!
# Writing JSON values

Values are written without blanks.
-/

namespace TernaryRules.Json

def writeNat (n : Nat) : List Char := Numeral.decimal n

def writeInt (n : Int) : List Char :=
  if n < 0 then '-' :: Numeral.decimal n.natAbs else Numeral.decimal n.natAbs

/-- A finite double; `null` stands for all others. -/
def writeDouble (d : Double) : List Char :=
  if d.isFinite then (d.text Double.pointed).toList else "null".toList

/-- A list of values as they are written. -/
def writeList (items : List (List Char)) : List Char := '[' :: [','].intercalate items ++ [']']

/-- A field as it is written, from the value as it is written. -/
def writeField (name : String) (value : List Char) : List Char := writeText name ++ ':' :: value

/-- A record of fields as they are written. -/
def writeRecord (fields : List (List Char)) : List Char :=
  '\x7b' :: [','].intercalate fields ++ ['\x7d']

end TernaryRules.Json
