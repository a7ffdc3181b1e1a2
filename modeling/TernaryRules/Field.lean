/-!
# Fields

A feature is an unsigned number of a fixed width, 1 to 64 bits: a `Field`. Values, bounds and
priorities are natural numbers; `maxKey` is the largest that a table entry has room for.
`DomainError` says why a number, a range, a block or a feature declaration does not fit.
-/

namespace TernaryRules

-- powers of numbers stay those of the core library where algebraic structures bring their own
attribute [scoped instance (20000)] instPowNat
attribute [default_instance (20000)] instPowNat

/-- The largest key, bound or priority. -/
def maxKey : Nat := 2 ^ 64 - 1

/-- The number whose lowest `k` bits are set. -/
def lowMask (k : Nat) : Nat := 2 ^ k - 1

/-- A count as it is reported: counts above `maxKey` are reported as `maxKey`. -/
def clamp (n : Nat) : Nat := min n maxKey

/-- Why a number, a range, a block or a feature declaration is refused. -/
inductive DomainError where
  | invalidWidth (bits : Nat)
  | emptyInterval (lo hi : Nat)
  | outOfField (value bits : Nat)
  | misaligned (start wildcards : Nat)
  | unfitRange (name : String) (bits min max : Nat)
deriving DecidableEq, Repr

namespace DomainError

def message : DomainError → String
  | invalidWidth bits => s!"invalid field width {bits}: expected 1 to 64 bits"
  | emptyInterval lo hi => s!"invalid interval [{lo}, {hi}]: lower bound exceeds upper bound"
  | outOfField value bits => s!"value {value} is outside the {bits}-bit field domain"
  | misaligned start wildcards =>
      s!"internal invariant violated: block start {start} is not aligned to 2^{wildcards}"
  | unfitRange name bits min max =>
      s!"invalid domain for feature `{name}`: [{min}, {max}] does not fit a {bits}-bit field"

end DomainError

/-- The width of an unsigned feature. -/
structure Field where
  bits : Nat
  one_le : 1 ≤ bits
  le_sixtyFour : bits ≤ 64
deriving DecidableEq

namespace Field

def ofWidth (bits : Nat) : Except DomainError Field :=
  if h : 1 ≤ bits ∧ bits ≤ 64 then .ok ⟨bits, h.1, h.2⟩ else .error (.invalidWidth bits)

/-- The largest value of the field, which is also the mask of all its bits. -/
def maxValue (f : Field) : Nat := lowMask f.bits

def contains (f : Field) (value : Nat) : Bool := decide (value ≤ f.maxValue)

def check (f : Field) (value : Nat) : Except DomainError Nat :=
  if f.contains value then .ok value else .error (.outOfField value f.bits)

end Field

end TernaryRules
