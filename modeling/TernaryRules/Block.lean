import TernaryRules.Interval
import TernaryRules.Numeral

/-!
# Aligned blocks

A block holds `2 ^ wildcards` consecutive values of a field, starting at a multiple of that
number. A table entry states it as a value and a mask: a key belongs to the block when it fits
the field and agrees with the value on the bits of the mask, which are the upper ones.
-/

namespace TernaryRules

/-- The values from `first` that differ only in the lowest `wildcards` bits. -/
structure Block where
  field : Field
  first : Nat
  wildcards : Nat
  wildcards_le : wildcards ≤ field.bits
  first_le : first ≤ field.maxValue
  aligned : 2 ^ wildcards ∣ first
deriving DecidableEq

namespace Block

/-- The block of `2 ^ wildcards` values from `start`; a count of wildcards beyond the width of the
field stands for the whole field. -/
def ofAligned (field : Field) (start wildcards : Nat) : Except DomainError Block :=
  if hs : start ≤ field.maxValue then
    if ha : 2 ^ min wildcards field.bits ∣ start then
      .ok ⟨field, start, min wildcards field.bits, Nat.min_le_right _ _, hs, ha⟩
    else .error (.misaligned start (min wildcards field.bits))
  else .error (.outOfField start field.bits)

/-- The block of a single value. -/
def exact (field : Field) (value : Nat) : Except DomainError Block := ofAligned field value 0

/-- The bits on which a key is compared. -/
def mask (b : Block) : Nat := b.field.maxValue ^^^ lowMask b.wildcards

def last (b : Block) : Nat := b.first + lowMask b.wildcards

/-- The number of values. -/
def size (b : Block) : Nat := 2 ^ b.wildcards

def interval (b : Block) : Interval := ⟨b.first, b.last, Nat.le_add_right _ _⟩

/-- Comparison of a key with the value under the mask. -/
def accepts (b : Block) (key : Nat) : Bool :=
  b.field.contains key && (key &&& b.mask) == b.first

/-- Whether the two ranges of values meet, whatever the widths of the fields. -/
def overlaps (a b : Block) : Bool := decide (a.first ≤ b.last ∧ b.first ≤ a.last)

/-- The value and the mask in base sixteen. -/
def chars (b : Block) : List Char := Numeral.hex b.first ++ '/' :: Numeral.hex b.mask

def text (b : Block) : String := String.ofList b.chars

end Block

end TernaryRules
