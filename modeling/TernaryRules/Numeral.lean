/-!
# Numerals

Positional numerals as lists of characters, written without leading zeros and read back digit by
digit. Letters `a` to `f` follow the ten figures, so base sixteen is written in lower case.
-/

namespace TernaryRules.Numeral

/-- The character of the digit `d`, for `d < 16`. -/
def digit (d : Nat) : Char :=
  if d < 10 then Char.ofNat (d + 48) else Char.ofNat (d + 87)

/-- The digit a character stands for; letters may be of either case. -/
def digit? (c : Char) : Option Nat :=
  if 48 ≤ c.toNat ∧ c.toNat ≤ 57 then some (c.toNat - 48)
  else if 97 ≤ c.toNat ∧ c.toNat ≤ 102 then some (c.toNat - 87)
  else if 65 ≤ c.toNat ∧ c.toNat ≤ 70 then some (c.toNat - 55)
  else none

/-- The numeral of `n` in a base of at least two. -/
def write (base n : Nat) : List Char :=
  if h : base ≤ n ∧ 2 ≤ base then
    have : n / base < n := Nat.div_lt_self (by omega) h.2
    write base (n / base) ++ [digit (n % base)]
  else [digit n]

/-- The number a decimal numeral stands for, with nothing said of characters that are no digits. -/
def value (ds : List Char) : Nat :=
  ds.foldl (fun n c => 10 * n + (c.toNat - 48)) 0

/-- The decimal numeral of `n`. -/
def decimal (n : Nat) : List Char := write 10 n

/-- The hexadecimal numeral of `n`, after the mark `0x`. -/
def hex (n : Nat) : List Char := '0' :: 'x' :: write 16 n

/-- A list of numbers in brackets, parted by commas. -/
def bracketed (ns : List Nat) : String :=
  "[" ++ ", ".intercalate (ns.map toString) ++ "]"

end TernaryRules.Numeral
