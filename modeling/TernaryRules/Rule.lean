import TernaryRules.Region
import TernaryRules.Block.Cover

/-!
# Rules

A rule matches the points whose coordinates lie in its blocks, one block for each feature, and
assigns them a class. Rules carry a priority, which a table uses to order its entries.
-/

namespace TernaryRules

/-- A rule that has no priority yet. -/
structure RuleBody where
  blocks : List Block
  label : Label
deriving DecidableEq

structure Rule where
  blocks : List Block
  label : Label
  priority : Nat
deriving DecidableEq

namespace Rule

/-- Whether a point has one coordinate for each block, within that block. -/
def accepts (r : Rule) (point : List Nat) : Bool :=
  point.length == r.blocks.length && (r.blocks.zip point).all fun (b, v) => b.accepts v

/-- The value and the mask of each block. -/
def valueMasks (r : Rule) : List (Nat × Nat) := r.blocks.map fun b => (b.first, b.mask)

end Rule

end TernaryRules
