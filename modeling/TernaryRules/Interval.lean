import TernaryRules.Field

/-!
# Intervals

Ranges of consecutive values, ends included and never empty.
-/

namespace TernaryRules

/-- The values from `lo` to `hi`. -/
structure Interval where
  lo : Nat
  hi : Nat
  lo_le_hi : lo ≤ hi
deriving DecidableEq

namespace Interval

def ofBounds (lo hi : Nat) : Except DomainError Interval :=
  if h : lo ≤ hi then .ok ⟨lo, hi, h⟩ else .error (.emptyInterval lo hi)

def point (value : Nat) : Interval := ⟨value, value, Nat.le_refl value⟩

/-- The number of values. -/
def size (i : Interval) : Nat := i.hi - i.lo + 1

def contains (i : Interval) (value : Nat) : Bool := decide (i.lo ≤ value ∧ value ≤ i.hi)

/-- The common values, if there are any. -/
def inter? (i j : Interval) : Option Interval :=
  if h : max i.lo j.lo ≤ min i.hi j.hi then some ⟨max i.lo j.lo, min i.hi j.hi, h⟩ else none

/-- The values at most `t`, if there are any. -/
def upTo? (i : Interval) (t : Nat) : Option Interval :=
  if h : i.lo ≤ min i.hi t then some ⟨i.lo, min i.hi t, h⟩ else none

/-- The values above `t`, if there are any. -/
def above? (i : Interval) (t : Nat) : Option Interval :=
  if h : max i.lo (t + 1) ≤ i.hi then some ⟨max i.lo (t + 1), i.hi, h⟩ else none

def text (i : Interval) : String := s!"[{i.lo}, {i.hi}]"

end Interval

/-- All values of a field. -/
def Field.whole (f : Field) : Interval := ⟨0, f.maxValue, Nat.zero_le _⟩

end TernaryRules
