/-!
# Positions

Access by position, where a position past the end is a fault of the caller.
-/

namespace TernaryRules

/-- A position that a sequence of `size` items does not have. -/
structure OutOfRange where
  size : Nat
  index : Nat
deriving DecidableEq, Repr

def OutOfRange.message (e : OutOfRange) : String :=
  s!"index out of bounds: the len is {e.size} but the index is {e.index}"

/-- The item at a position. -/
def itemAt {α : Type} (items : List α) (index : Nat) : Except OutOfRange α :=
  match items[index]? with
  | some item => .ok item
  | none => .error ⟨items.length, index⟩

end TernaryRules
