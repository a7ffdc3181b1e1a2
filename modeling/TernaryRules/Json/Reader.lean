import TernaryRules.Json.Number
import TernaryRules.Json.Text

/-!
# Reading JSON values

A reader takes a value off the front of a text and leaves the rest. Readers say which kind of value
they want; another kind is a fault that names what was found. Where a reader stops at a fault, the
rest of the text tells the position.
-/

namespace TernaryRules.Json

/-- Takes a value off the front of a text. -/
abbrev Reader (α : Type) := ExceptT Fault (StateM (List Char)) α

def isBlank (c : Char) : Bool := c == ' ' || c == '\n' || c == '\t' || c == '\r'

namespace Reader

/-- The next character that is not blank; it stays where it is. -/
def look : Reader (Option Char) := do
  let cs := (← get).dropWhile isBlank
  set cs
  return cs.head?

/-- Takes one character. -/
def skip : Reader Unit := modify List.tail

/-- Takes what a function on the text takes. -/
def take {α : Type} (f : List Char → Except Fault (α × List Char)) : Reader α := do
  let (a, cs) ← f (← get)
  set cs
  return a

/-- The characters of a word. -/
def letters : List Char → List Char → Except Fault (Unit × List Char)
  | [], cs => .ok ((), cs)
  | _ :: _, [] => .error (.ended .value)
  | letter :: rest, c :: cs =>
      if letter = c then letters rest cs else .error .expectedWord

def word (s : String) : Reader Unit := take (letters s.toList)

/-- A number, with its sign. -/
def number : Reader Number := do
  match (← get) with
  | '-' :: rest => set rest; take (readNumber true)
  | _ => take (readNumber false)

/-- What stands here, read as far as it takes to name it. -/
def found : Reader Found := do
  match ← look with
  | none => throw .expectedValue
  | some c =>
      if c = 'n' then word "null"; return .null
      else if c = 't' then word "true"; return .boolean true
      else if c = 'f' then word "false"; return .boolean false
      else if c = '"' then skip; return .text (← take readText)
      else if c = '[' then return .sequence
      else if c = '\x7b' then return .map
      else if c = '-' ∨ c.isDigit then return .number (← number)
      else throw .expectedValue

/-- The fault that something else stands where a value of the kind wanted should. -/
def mismatch {α : Type} (expected : String) : Reader α := do
  throw (.wrongType (← found) expected)

/-- The next character, where a value must stand. -/
def start : Reader Char := do
  match ← look with
  | none => throw (.ended .value)
  | some c => return c

/-- A number of any form, where a number of the kind wanted must stand. -/
def numberFor (expected : String) : Reader Number := do
  let c ← start
  if c = '-' ∨ c.isDigit then number else mismatch expected

/-- A natural number up to a bound. -/
def natural (expected : String) (bound : Nat) : Reader Nat := do
  match ← numberFor expected with
  | .natural n => if n ≤ bound then return n else throw (.wrongValue (.natural n) expected)
  | .negative n => throw (.wrongValue (.negative n) expected)
  | .fraction d => throw (.wrongType (.number (.fraction d)) expected)

/-- A width, in eight bits. -/
def octet : Reader Nat := natural "u8" 255

/-- A number of 32 bits. -/
def word32 : Reader UInt32 := return UInt32.ofNat (← natural "u32" 4294967295)

/-- A number of 64 bits. -/
def word64 : Reader Nat := natural "u64" maxKey

/-- A number of 64 bits that may be below zero. -/
def integer : Reader Int := do
  match ← numberFor "i64" with
  | .natural n =>
      if n < 2 ^ 63 then return (n : Int) else throw (.wrongValue (.natural n) "i64")
  | .negative n => return -(n : Int)
  | .fraction d => throw (.wrongType (.number (.fraction d)) "i64")

/-- A number of any form, as a double. -/
def double : Reader Double := do
  match ← numberFor "f64" with
  | .natural n => return .ofNat n
  | .negative n => return (Double.ofNat n).neg
  | .fraction d => return d

/-- A string, named by what it is wanted for. -/
def textFor (expected : String) : Reader String := do
  if (← start) = '"' then skip; take readText else mismatch expected

def text : Reader String := textFor "a string"

/-- A value or `null`. -/
def option {α : Type} (value : Reader α) : Reader (Option α) := do
  if (← look) = some 'n' then word "null"; return none else return some (← value)

/-- Whether another item of a list follows; the comma before it is taken. -/
def moreItems (first : Bool) : Reader Bool := do
  match ← look with
  | none => throw (.ended .list)
  | some c =>
      if c = ']' then return false
      else if first then return true
      else if c = ',' then
        skip
        match ← look with
        | some ']' => throw .trailingComma
        | some _ => return true
        | none => throw (.ended .value)
      else throw .expectedListEnd

/-- Whether another key of an object follows; the comma before it is taken. -/
def moreKeys (first : Bool) : Reader Bool := do
  match ← look with
  | none => throw (.ended .object)
  | some c =>
      if c = '\x7d' then return false
      else if first then
        if c = '"' then return true else throw .keyNotText
      else if c = ',' then
        skip
        match ← look with
        | some '"' => return true
        | some '\x7d' => throw .trailingComma
        | some _ => throw .keyNotText
        | none => throw (.ended .value)
      else throw .expectedObjectEnd

/-- The colon after a key. -/
def colon : Reader Unit := do
  match ← look with
  | some ':' => skip
  | some _ => throw .expectedColon
  | none => throw (.ended .object)

/-- The end of a list whose items have been read. -/
def closeList : Reader Unit := do
  match ← look with
  | some ']' => skip
  | some ',' =>
      skip
      throw (if (← look) = some ']' then .trailingComma else .trailingCharacters)
  | some _ => throw .trailingCharacters
  | none => throw (.ended .list)

/-- The items of a list after those already read. The first argument bounds the number of steps:
none is longer than the text. -/
def items {α : Type} (item : Reader α) : List Char → Bool → Array α → Reader (List α)
  | [], _, _ => throw (.ended .list)
  | _ :: steps, first, seen => do
      if ← moreItems first then
        let x ← item
        items item steps false (seen.push x)
      else return seen.toList

/-- Passes on a fault in an item. One that was refused is noticed only where the end of the list or
the next item stands. -/
def afterItem {α : Type} (fault : Fault) : Reader α := do
  match fault with
  | .refused _ =>
      if (← look) = some ',' then
        skip
        discard look
      throw fault
  | _ => throw fault

/-- A list of items of one kind. -/
def list {α : Type} (item : Reader α) : Reader (List α) := do
  if (← start) = '[' then
    skip
    let xs ← tryCatch (items item (← get) true #[]) afterItem
    closeList
    return xs
  else mismatch "a sequence"

/-! ### Values that are passed over -/

/-- The kind of a list or object that is open. -/
inductive Frame where
  | list
  | object
deriving DecidableEq

def Frame.place : Frame → Place
  | list => .list
  | object => .object

/-- Passes over a key and its colon. -/
def skipKey : Reader Unit := do
  match ← look with
  | some '"' =>
      skip
      take fun cs => (skipText cs).map ((), ·)
      colon
  | some _ => throw .keyNotText
  | none => throw (.ended .object)

/-- Passes over a value that is neither list nor object. -/
def skipScalar (c : Char) : Reader Unit := do
  if c = 'n' then word "null"
  else if c = 't' then word "true"
  else if c = 'f' then word "false"
  else if c = '"' then skip; take fun cs => (skipText cs).map ((), ·)
  else if c = '-' then skip; take fun cs => (skipNumber cs).map ((), ·)
  else if c.isDigit then take fun cs => (skipNumber cs).map ((), ·)
  else throw .expectedValue

/-- Passes over a value, if one is due, and over the rest of the lists and objects that are open.
The first argument bounds the number of steps: none is longer than the text. -/
def skipFrom : List Char → Bool → List Frame → Reader Unit
  | _, false, [] => return
  | [], false, frame :: _ => throw (.ended frame.place)
  | [], true, _ => throw (.ended .value)
  | _ :: steps, true, frames => do
      let c ← start
      if c = '[' then
        skip
        if (← look) = some ']' then skip; skipFrom steps false frames
        else if (← look) = none then throw (.ended .list)
        else skipFrom steps true (.list :: frames)
      else if c = '\x7b' then
        skip
        if (← look) = some '\x7d' then skip; skipFrom steps false frames
        else skipKey; skipFrom steps true (.object :: frames)
      else
        skipScalar c
        skipFrom steps false frames
  | _ :: steps, false, frame :: frames => do
      match frame, ← look with
      | frame, none => throw (.ended frame.place)
      | .list, some ',' => skip; skipFrom steps true (.list :: frames)
      | .list, some ']' => skip; skipFrom steps false frames
      | .list, some _ => throw .expectedListEnd
      | .object, some ',' => skip; skipKey; skipFrom steps true (.object :: frames)
      | .object, some '\x7d' => skip; skipFrom steps false frames
      | .object, some _ => throw .expectedObjectEnd

/-- Passes over a value of any kind, however deep. -/
def skipValue : Reader Unit := do skipFrom (← get) true []

/-- A value with nothing behind it. -/
def whole {α : Type} (value : Reader α) : Reader α := do
  let a ← value
  if (← look).isNone then return a else throw .trailingCharacters

/-- Reads a whole text as one value. -/
def run {α : Type} (value : Reader α) (s : String) : Except Fault α :=
  (ExceptT.run (whole value) s.toList).1

/-- What is left of a text where the reading ends. -/
def rest {α : Type} (value : Reader α) (s : String) : List Char :=
  (ExceptT.run (whole value) s.toList).2

/-- The position where the reading ends. The character in front counts as read. -/
def endPosition {α : Type} (value : Reader α) (s : String) : Position :=
  let rest := value.rest s
  let read := (s.toList.take (s.length - rest.length)).foldl Position.next Position.start
  match rest with
  | [] => read
  | c :: _ => if c = '\n' then read.next c else { read with column := read.column + 1 }

/-- Reads a whole text as one value; a fault comes with its position. -/
def runPlaced {α : Type} (value : Reader α) (s : String) : Except PlacedFault α :=
  (value.run s).mapError fun fault => ⟨fault, value.endPosition s⟩

end Reader

end TernaryRules.Json
