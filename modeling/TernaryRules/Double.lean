import TernaryRules.Field

/-!
# Doubles

Floating point numbers of 64 bits as exact numbers. A finite double is a whole multiple of
`2 ^ -1074`: `units` is that multiple, and order, rounding down and divisibility are those of the
units. Results of arithmetic are the doubles nearest to the exact results; of two that are equally
near, the one with the even mantissa.
-/

namespace TernaryRules

/-- The mantissas and exponents of finite doubles. A mantissa has all 53 bits unless the exponent
is the least one, so each double has one mantissa and one exponent. -/
def Canonical (mantissa : Nat) (exponent : Int) : Prop :=
  mantissa < 2 ^ 53 ∧ -1074 ≤ exponent ∧ exponent ≤ 971 ∧ (2 ^ 52 ≤ mantissa ∨ exponent = -1074)

instance (mantissa : Nat) (exponent : Int) : Decidable (Canonical mantissa exponent) :=
  inferInstanceAs (Decidable (_ ∧ _ ∧ _ ∧ _))

/-- A number of the binary64 format; there is one that is not a number. -/
inductive Double where
  | nan
  | infinite (negative : Bool)
  | finite (negative : Bool) (mantissa : Nat) (exponent : Int)
      (canonical : Canonical mantissa exponent)
deriving DecidableEq

namespace Double

def zero (negative : Bool) : Double := finite negative 0 (-1074) (by decide)

/-- The double with this mantissa and exponent; a number too large for any is infinite. -/
def ofParts (negative : Bool) (mantissa : Nat) (exponent : Int) : Double :=
  if h : Canonical mantissa exponent then finite negative mantissa exponent h
  else infinite negative

/-- The whole number nearest to a quotient; a half goes to the even neighbour. -/
def roundHalfEven (num den : Nat) : Nat :=
  let quotient := num / den
  let rest := num % den
  if 2 * rest < den ∨ (2 * rest = den ∧ quotient % 2 = 0) then quotient else quotient + 1

/-- A quotient divided by a power of two, as a quotient. -/
def descale (num den : Nat) (exponent : Int) : Nat × Nat :=
  (num * 2 ^ (-exponent).toNat, den * 2 ^ exponent.toNat)

/-- The double nearest to a quotient. -/
def ofRatio (negative : Bool) (num den : Nat) : Double :=
  if num = 0 then zero negative
  else
    let least := max ((num.log2 : Int) - den.log2 - 53) (-1074)
    let (a, b) := descale num den least
    let exponent := if a / b < 2 ^ 53 then least else least + 1
    let (a, b) := descale num den exponent
    let mantissa := roundHalfEven a b
    if mantissa < 2 ^ 53 then ofParts negative mantissa exponent
    else ofParts negative (2 ^ 52) (exponent + 1)

def ofNat (n : Nat) : Double := ofRatio false n 1

def neg : Double → Double
  | nan => nan
  | infinite negative => infinite !negative
  | finite negative mantissa exponent h => finite (!negative) mantissa exponent h

def isFinite : Double → Bool
  | finite .. => true
  | _ => false

/-- The multiple of `2 ^ -1074` that a finite double is. -/
def units? : Double → Option Int
  | finite negative mantissa exponent _ =>
      let size : Int := mantissa * 2 ^ (exponent + 1074).toNat
      some (if negative then -size else size)
  | _ => none

/-- The number of units in one. -/
def one : Nat := 2 ^ 1074

def lt : Double → Double → Bool
  | nan, _ => false
  | _, nan => false
  | infinite true, infinite true => false
  | infinite true, _ => true
  | _, infinite true => false
  | infinite false, _ => false
  | _, infinite false => true
  | a, b =>
      match a.units?, b.units? with
      | some a, some b => decide (a < b)
      | _, _ => false

/-- The mantissa and exponent of a number as a quotient. -/
def quotient (mantissa : Nat) (exponent : Int) : Nat × Nat :=
  (mantissa * 2 ^ exponent.toNat, 2 ^ (-exponent).toNat)

/-- The double nearest to the product of a positive double and a power of ten. -/
def timesPowerOfTen (d : Double) (power : Nat) : Double :=
  match d, ofNat (10 ^ power) with
  | finite _ m e _, finite _ m' e' _ =>
      let (a, b) := quotient m e
      let (a', b') := quotient m' e'
      ofRatio false (a * a') (b * b')
  | _, _ => infinite false

/-- The double nearest to the quotient of a positive double and a power of ten. -/
def overPowerOfTen (d : Double) (power : Nat) : Double :=
  match d, ofNat (10 ^ power) with
  | finite _ m e _, finite _ m' e' _ =>
      let (a, b) := quotient m e
      let (a', b') := quotient m' e'
      ofRatio false (a * b') (b * a')
  | _, _ => infinite false

/-- The largest power of ten that is used as a factor. -/
def maxPowerOfTen : Nat := 308

/-- A positive double divided by a power of ten, in factors of at most `maxPowerOfTen`; three
factors leave nothing of any significand. -/
def overPowersOfTen (d : Double) (power : Nat) : Double :=
  if power ≤ maxPowerOfTen then d.overPowerOfTen power
  else if power ≤ 2 * maxPowerOfTen then
    (d.overPowerOfTen maxPowerOfTen).overPowerOfTen (power - maxPowerOfTen)
  else zero false

/-- The double that stands for a significand times a power of ten. The significand is rounded
first, and again with each factor; nothing stands for a number beyond the largest double. -/
def ofDecimal (negative : Bool) (significand : Nat) (exponent : Int) : Option Double :=
  let size :=
    if significand = 0 then zero false
    else if 0 ≤ exponent then
      if exponent ≤ maxPowerOfTen then (ofNat significand).timesPowerOfTen exponent.toNat
      else infinite false
    else (ofNat significand).overPowersOfTen (-exponent).toNat
  if size.isFinite then some (if negative then size.neg else size) else none

end Double

end TernaryRules
