import TernaryRules.Json.Fault
import TernaryRules.Field

/-!
# JSON numbers

The digits of a number are gathered in a significand of one word. Digits that the word has no room
for are left out: those before the point count as powers of ten, those behind it are lost. A whole
number that fits a word stays whole; every other number is a double.
-/

namespace TernaryRules.Json

-- irreducible, since the comparison with `maxKey` must not be evaluated on an unknown digit
/-- The significand after one more digit, if the word has room for it. -/
@[irreducible]
def appendDigit? (significand : Nat) (c : Char) : Option Nat :=
  let next := 10 * significand + (c.toNat - 48)
  if next ≤ maxKey then some next else none

/-- The significand of the digits before the point, and the number of digits left out. -/
def gather : List Char → Nat → Nat × Nat
  | [], significand => (significand, 0)
  | c :: rest, significand =>
      match appendDigit? significand c with
      | some significand => gather rest significand
      | none => (significand, rest.length + 1)

/-- The significand after the digits behind the point, and the number of digits used. -/
def gatherFraction : List Char → Nat → Nat × Nat
  | [], significand => (significand, 0)
  | c :: rest, significand =>
      match appendDigit? significand c with
      | some significand =>
          let (significand, used) := gatherFraction rest significand
          (significand, used + 1)
      | none => (significand, 0)

/-- The largest exponent that is read as such. -/
def maxExponent : Nat := 2 ^ 31 - 1

/-- The double with a significand, a power of ten and an exponent as written. -/
def scaled (negative : Bool) (significand : Nat) (power : Int) (exponentNegative : Bool)
    (exponent : Nat) : Except Fault Number :=
  if maxExponent < exponent then
    if significand ≠ 0 ∧ !exponentNegative then .error .numberOutOfRange
    else .ok (.fraction (Double.zero negative))
  else
    let power := if exponentNegative then power - exponent else power + exponent
    match Double.ofDecimal negative significand power with
    | some d => .ok (.fraction d)
    | none => .error .numberOutOfRange

/-- Reads an exponent, after the letter that announces it. -/
def readExponent (negative : Bool) (significand : Nat) (power : Int) (cs : List Char) :
    Except Fault (Number × List Char) :=
  let (exponentNegative, cs) := match cs with
    | '+' :: rest => (false, rest)
    | '-' :: rest => (true, rest)
    | cs => (false, cs)
  match cs with
  | [] => .error (.ended .value)
  | c :: _ =>
      if c.isDigit then
        (scaled negative significand power exponentNegative
          (Numeral.value (cs.takeWhile Char.isDigit))).map fun n =>
            (n, cs.dropWhile Char.isDigit)
      else .error .invalidNumber

/-- Reads an exponent if there is one. -/
def readScale (negative : Bool) (significand : Nat) (power : Int) (cs : List Char) :
    Except Fault (Number × List Char) :=
  match cs with
  | 'e' :: rest | 'E' :: rest => readExponent negative significand power rest
  | cs => (scaled negative significand power false 0).map fun n => (n, cs)

/-- A whole number as written. -/
def whole (negative : Bool) (n : Nat) : Number :=
  if !negative then .natural n
  else if n = 0 ∨ 2 ^ 63 < n then .fraction (Double.ofNat n).neg
  else .negative n

/-- Reads what follows the digits before the point. -/
def readTail (negative : Bool) (digits cs : List Char) : Except Fault (Number × List Char) :=
  let (significand, omitted) := gather digits 0
  match cs with
  | '.' :: rest =>
      let behind := rest.takeWhile Char.isDigit
      let after := rest.dropWhile Char.isDigit
      if behind.isEmpty then
        .error (if after.isEmpty then .ended .value else .invalidNumber)
      else
        let (significand, used) := gatherFraction behind significand
        readScale negative significand ((omitted : Int) - used) after
  | 'e' :: rest | 'E' :: rest => readExponent negative significand omitted rest
  | cs =>
      if omitted = 0 then .ok (whole negative significand, cs)
      else (scaled negative significand omitted false 0).map fun n => (n, cs)

/-- Reads a number, after its sign. -/
def readNumber (negative : Bool) (cs : List Char) : Except Fault (Number × List Char) :=
  match cs with
  | [] => .error (.ended .value)
  | '0' :: rest =>
      if (rest.head?.any Char.isDigit) then .error .invalidNumber
      else readTail negative ['0'] rest
  | c :: _ =>
      if c.isDigit then
        readTail negative (cs.takeWhile Char.isDigit) (cs.dropWhile Char.isDigit)
      else .error .invalidNumber

/-- Passes over an exponent, after the letter that announces it. -/
def skipExponent (cs : List Char) : Except Fault (List Char) :=
  let cs := match cs with
    | '+' :: rest | '-' :: rest => rest
    | cs => cs
  if cs.head?.any Char.isDigit then .ok (cs.dropWhile Char.isDigit) else .error .invalidNumber

/-- Passes over what follows the digits before the point. -/
def skipTail (cs : List Char) : Except Fault (List Char) :=
  match cs with
  | '.' :: rest =>
      if rest.head?.any Char.isDigit then
        match rest.dropWhile Char.isDigit with
        | 'e' :: rest | 'E' :: rest => skipExponent rest
        | cs => .ok cs
      else .error .invalidNumber
  | 'e' :: rest | 'E' :: rest => skipExponent rest
  | cs => .ok cs

/-- Passes over a number, after its sign, whatever its size. -/
def skipNumber (cs : List Char) : Except Fault (List Char) :=
  match cs with
  | '0' :: rest =>
      if rest.head?.any Char.isDigit then .error .invalidNumber else skipTail rest
  | cs =>
      if cs.head?.any Char.isDigit then skipTail (cs.dropWhile Char.isDigit)
      else .error .invalidNumber

end TernaryRules.Json
