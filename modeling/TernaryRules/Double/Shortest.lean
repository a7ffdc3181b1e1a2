import TernaryRules.Double
import TernaryRules.Numeral

/-!
# Decimal text of doubles

A double is written with the fewest digits that are read back as the same double, and of those
with the digits nearest to it. `Layout` says where the point and the exponent go, and which of two
texts that are equally near is taken.
-/

namespace TernaryRules.Double

/-- Digits and the power of ten of the last of them. -/
structure Digits where
  digits : Nat
  power : Int
deriving DecidableEq, Repr

/-- Which of two decimals that are equally near to a double is taken: the larger one, or the one
with the even last digit. -/
inductive Tie where
  | up
  | even
deriving DecidableEq, Repr

/-- Whether the smaller decimal is taken, given its digits. -/
def Tie.staysAt : Tie → Nat → Bool
  | up, _ => false
  | even, digits => digits % 2 == 0

/-- The reals that are read as the double `mantissa * 2 ^ exponent`, as numerators over a common
denominator, around the double itself. The ends belong to it when the mantissa is even. -/
structure Rounding where
  low : Nat
  mid : Nat
  high : Nat
  den : Nat
  closed : Bool

def rounding (mantissa : Nat) (exponent : Int) : Rounding :=
  let unit := 2 ^ exponent.toNat
  let below := if mantissa = 2 ^ 52 ∧ -1074 < exponent then 1 else 2
  { low := (4 * mantissa - below) * unit
    mid := 4 * mantissa * unit
    high := (4 * mantissa + 2) * unit
    den := 4 * 2 ^ (-exponent).toNat
    closed := mantissa % 2 = 0 }

namespace Rounding

/-- Whether `digits * 10 ^ power` is read as the double. -/
def holds (r : Rounding) (d : Digits) : Bool :=
  let x := d.digits * 10 ^ d.power.toNat * r.den
  let low := r.low * 10 ^ (-d.power).toNat
  let high := r.high * 10 ^ (-d.power).toNat
  if r.closed then decide (low ≤ x ∧ x ≤ high) else decide (low < x ∧ x < high)

/-- The number of powers of ten by which a quotient below one has to be multiplied to reach one. -/
def lift (den : Nat) : Nat → Nat → Nat
  | 0, _ => 0
  | steps + 1, num => if den ≤ num then 0 else lift den steps (10 * num) + 1

/-- The power of ten of the first digit of the double. -/
def leadingPower (r : Rounding) : Int :=
  if r.den ≤ r.mid then ((Numeral.decimal (r.mid / r.den)).length : Int) - 1
  else -(lift r.den 330 r.mid : Int)

/-- The nearer to the double of its two neighbours with so many digits, out of those that are read
as the double. -/
def nearest? (r : Rounding) (tie : Tie) (leading : Int) (count : Nat) : Option Digits :=
  let power := leading - count + 1
  let num := r.mid * 10 ^ (-power).toNat
  let den := r.den * 10 ^ power.toNat
  let down : Digits := ⟨num / den, power⟩
  let up : Digits := ⟨num / den + 1, power⟩
  match r.holds down, r.holds up with
  | true, true =>
      let rest := num % den
      if 2 * rest < den ∨ (2 * rest = den ∧ tie.staysAt down.digits) then some down else some up
  | true, false => some down
  | false, true => some up
  | false, false => none

end Rounding

/-- The same number without zeros at the end. -/
def Digits.trim : Nat → Digits → Digits
  | 0, d => d
  | steps + 1, d =>
      if d.digits ≠ 0 ∧ d.digits % 10 = 0 then trim steps ⟨d.digits / 10, d.power + 1⟩ else d

/-- The fewest digits that are read back as the double. Seventeen are always enough. -/
def shortest (tie : Tie) (mantissa : Nat) (exponent : Int) : Digits :=
  if mantissa = 0 then ⟨0, 0⟩
  else
    let r := rounding mantissa exponent
    let leading := r.leadingPower
    match (List.range 17).findSome? fun count => r.nearest? tie leading (count + 1) with
    | some d => d.trim 20
    | none => ⟨mantissa, exponent⟩

/-- Which powers of ten of the first digit are written without an exponent, whether a whole number
ends in `.0`, and which of two digits that are equally near is taken. -/
structure Layout where
  positional : Int → Bool
  pointZero : Bool
  tie : Tie

/-- Never an exponent, and no point in a whole number. -/
def plain : Layout := ⟨fun _ => true, false, .up⟩

/-- An exponent below `0.00001` and from `10 ^ 16` on, and a point in every other number. -/
def pointed : Layout := ⟨fun leading => decide (-5 ≤ leading ∧ leading < 16), true, .even⟩

namespace Layout

/-- The digits with the point in its place, filled up by zeros. -/
def place (l : Layout) (digits : List Char) (power : Int) : List Char :=
  if 0 ≤ power then
    digits ++ List.replicate power.toNat '0' ++ (if l.pointZero then ['.', '0'] else [])
  else
    let behind := (-power).toNat
    if behind < digits.length then
      digits.take (digits.length - behind) ++ '.' :: digits.drop (digits.length - behind)
    else '0' :: '.' :: List.replicate (behind - digits.length) '0' ++ digits

/-- The digits with a point after the first, and the exponent with its sign. -/
def exponential (digits : List Char) (leading : Int) : List Char :=
  let head := match digits with
    | first :: second :: rest => first :: '.' :: second :: rest
    | short => short
  head ++ 'e' :: (if leading < 0 then '-' else '+') :: Numeral.decimal leading.natAbs

def write (l : Layout) (mantissa : Nat) (exponent : Int) : List Char :=
  let d := shortest l.tie mantissa exponent
  let digits := Numeral.decimal d.digits
  let leading := d.power + digits.length - 1
  if l.positional leading then l.place digits d.power else exponential digits leading

end Layout

/-- The text of a double. -/
def text (l : Layout) : Double → String
  | nan => "NaN"
  | infinite negative => if negative then "-inf" else "inf"
  | finite negative mantissa exponent _ =>
      let digits := l.write mantissa exponent
      String.ofList (if negative then '-' :: digits else digits)

end TernaryRules.Double
