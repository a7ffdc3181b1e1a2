import TernaryRules.Json.Fault

/-!
# JSON strings

Strings are written in quotes. Quotes, backslashes and control characters are escaped, all other
characters stand for themselves. On reading, any character may also be given by the numbers of its
UTF-16 units.
-/

namespace TernaryRules.Json

/-- The character that a letter after a backslash stands for. -/
def escaped? (c : Char) : Option Char :=
  match c with
  | '"' => some '"'
  | '\\' => some '\\'
  | '/' => some '/'
  | 'b' => some '\x08'
  | 'f' => some '\x0c'
  | 'n' => some '\n'
  | 'r' => some '\r'
  | 't' => some '\t'
  | _ => none

/-- A character as it is written. -/
def writeChar (c : Char) : List Char :=
  match c with
  | '"' => ['\\', '"']
  | '\\' => ['\\', '\\']
  | '\x08' => ['\\', 'b']
  | '\x0c' => ['\\', 'f']
  | '\n' => ['\\', 'n']
  | '\r' => ['\\', 'r']
  | '\t' => ['\\', 't']
  | c =>
      if c.toNat < 32 then
        ['\\', 'u', '0', '0', Numeral.digit (c.toNat / 16), Numeral.digit (c.toNat % 16)]
      else [c]

/-- A string as it is written. -/
def writeText (s : String) : List Char := '"' :: s.toList.flatMap writeChar ++ ['"']

/-- Reads the number of a unit from four hexadecimal digits. The text ends early if it has not even
four more bytes. -/
def readUnit : List Char → Except Fault (Nat × List Char)
  | a :: b :: c :: d :: rest =>
      match Numeral.digit? a, Numeral.digit? b, Numeral.digit? c, Numeral.digit? d with
      | some a, some b, some c, some d => .ok (((a * 16 + b) * 16 + c) * 16 + d, rest)
      | _, _, _, _ => .error .invalidEscape
  | few =>
      if 4 ≤ few.foldl (fun size c => size + c.utf8Size) 0 then .error .invalidEscape
      else .error (.ended .text)

def isLeading (unit : Nat) : Bool := decide (0xD800 ≤ unit ∧ unit ≤ 0xDBFF)

def isTrailing (unit : Nat) : Bool := decide (0xDC00 ≤ unit ∧ unit ≤ 0xDFFF)

/-- Reads a character given by its units, after the first `\u`. -/
def readUnits (cs : List Char) : Except Fault (Char × List Char) :=
  match readUnit cs with
  | .error e => .error e
  | .ok (first, rest) =>
      if isTrailing first then .error .loneSurrogate
      else if !isLeading first then .ok (Char.ofNat first, rest)
      else
        match rest with
        | [] | ['\\'] => .error (.ended .text)
        | '\\' :: 'u' :: rest =>
            match readUnit rest with
            | .error e => .error e
            | .ok (second, rest) =>
                if isTrailing second then
                  .ok (Char.ofNat ((first - 0xD800) * 1024 + (second - 0xDC00) + 0x10000), rest)
                else .error .loneSurrogate
        | _ => .error .unpairedEscape

/-- Reads a character given by an escape, after the backslash. -/
def readEscape (cs : List Char) : Except Fault (Char × List Char) :=
  match cs with
  | [] => .error (.ended .text)
  | 'u' :: rest => readUnits rest
  | c :: rest =>
      match escaped? c with
      | some c => .ok (c, rest)
      | none => .error .invalidEscape

/-- Reads the characters of a string up to the closing quote, after those already read. The first
argument bounds the number of steps: none is longer than the text. -/
def readChars : List Char → List Char → Array Char → Except Fault (String × List Char)
  | _ :: steps, cs, seen =>
      match cs with
      | [] => .error (.ended .text)
      | '"' :: rest => .ok (String.ofList seen.toList, rest)
      | '\\' :: rest =>
          match readEscape rest with
          | .error e => .error e
          | .ok (c, rest) => readChars steps rest (seen.push c)
      | c :: rest =>
          if c.toNat < 32 then .error .controlCharacter else readChars steps rest (seen.push c)
  | [], _, _ => .error (.ended .text)

/-- Reads a string, after the opening quote. -/
def readText (cs : List Char) : Except Fault (String × List Char) := readChars cs cs #[]

/-- Passes over an escape, after the backslash, whatever units it names. -/
def skipEscape (cs : List Char) : Except Fault (List Char) :=
  match cs with
  | [] => .error (.ended .text)
  | 'u' :: rest => (readUnit rest).map Prod.snd
  | c :: rest => if (escaped? c).isSome then .ok rest else .error .invalidEscape

/-- Passes over the characters of a string up to the closing quote, in as many steps as the first
argument has characters. -/
def skipChars : List Char → List Char → Except Fault (List Char)
  | _ :: steps, cs =>
      match cs with
      | [] => .error (.ended .text)
      | '"' :: rest => .ok rest
      | '\\' :: rest =>
          match skipEscape rest with
          | .error e => .error e
          | .ok rest => skipChars steps rest
      | c :: rest => if c.toNat < 32 then .error .controlCharacter else skipChars steps rest
  | [], _ => .error (.ended .text)

/-- Passes over a string, after the opening quote. -/
def skipText (cs : List Char) : Except Fault (List Char) := skipChars cs cs

end TernaryRules.Json
