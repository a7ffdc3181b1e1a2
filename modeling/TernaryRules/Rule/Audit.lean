import TernaryRules.Rule
import TernaryRules.Odometer

/-!
# Audits

Checks that a list of rules or blocks does what it should: every point of a domain meets exactly
one rule, priorities increase, blocks cover an interval one after the other.
-/

namespace TernaryRules

/-- The bits of the value that the mask leaves out. -/
def Block.stray (b : Block) : Nat := b.first &&& (maxKey ^^^ b.mask)

/-- What an audit finds wrong. -/
inductive AuditFault where
  | noMatch (point : List Nat)
  | manyMatches (point priorities : List Nat)
  | notIncreasing (priority next : Nat)
  | noBlocks (lo hi : Nat)
  | wrongStart (first lo : Nat)
  | wrongWidth (index bits expected : Nat)
  | misaligned (index : Nat) (block : Block)
  | gap (index : Nat) (block : Block) (expected : Nat)
  | wrongEnd (last hi : Nat)
  | pastLargestKey
deriving DecidableEq

namespace AuditFault

/-- The report of two numbers that should be equal. -/
def differ (what : String) (left right : Nat) : String :=
  s!"assertion `left == right` failed: {what}\n  left: {left}\n right: {right}"

def message : AuditFault → String
  | noMatch point => s!"no rule matches point {Numeral.bracketed point}"
  | manyMatches point priorities =>
      s!"{priorities.length} rules match point {Numeral.bracketed point}; " ++
        s!"priorities {Numeral.bracketed priorities}"
  | notIncreasing priority next => s!"priority {priority} followed by {next}"
  | noBlocks lo hi => s!"no blocks for [{lo}, {hi}]"
  | wrongStart first lo => differ s!"cover starts at {first}" first lo
  | wrongWidth index bits expected => differ s!"block {index} has width {bits}" bits expected
  | misaligned index block =>
      differ s!"block {index} ({block.text}) is not aligned" block.stray 0
  | gap index block expected =>
      differ s!"gap or overlap before block {index} ({block.text})" block.first expected
  | wrongEnd last hi => differ s!"cover ends at {last}" last hi
  | pastLargestKey => "attempt to add with overflow"

end AuditFault

namespace Audit

/-- The rules that accept a point, in order. -/
def accepting (rules : List Rule) (point : List Nat) : List Rule :=
  rules.filter fun r => r.accepts point

/-- The one rule that accepts a point. -/
def singleMatch (rules : List Rule) (point : List Nat) : Except AuditFault Rule :=
  match accepting rules point with
  | [] => .error (.noMatch point)
  | [r] => .ok r
  | many => .error (.manyMatches point (many.map Rule.priority))

/-- Every point of the declared ranges meets exactly one rule. -/
def partitions (rules : List Rule) (table : FeatureTable) : Except AuditFault Unit :=
  Odometer.check (fun point => (singleMatch rules point).map fun _ => ())
    (table.features.map Feature.range)

/-- Each priority is above the one before it. -/
def increasing : List Rule → Except AuditFault Unit
  | a :: b :: rest =>
      if a.priority < b.priority then increasing (b :: rest)
      else .error (.notIncreasing a.priority b.priority)
  | _ => .ok ()

/-- The blocks from number `index` on have the width of the field and are aligned, each starts just
above the one before it, the first at `expected`, and the last ends at `hi`.

The sum `b.last + 1` is checked: behind a block that ends at the largest key the audit stops with
`pastLargestKey`. This is how it is built where sums are checked for overflow. Built without that
check, the sum would come out as 0 there, and a list that goes on at 0 would pass. -/
def coversFrom (field : Field) (hi : Nat) : Nat → Nat → List Block → Except AuditFault Unit
  | _, _, [] => .ok ()
  | index, expected, b :: rest =>
      if b.field.bits ≠ field.bits then .error (.wrongWidth index b.field.bits field.bits)
      else if b.stray ≠ 0 then .error (.misaligned index b)
      else if b.first ≠ expected then .error (.gap index b expected)
      else if rest.isEmpty then
        if b.last = hi then .ok () else .error (.wrongEnd b.last hi)
      else if b.last = maxKey then .error .pastLargestKey
      else coversFrom field hi (index + 1) (b.last + 1) rest

/-- The blocks are a cover of `lo` to `hi` in increasing order. -/
def covers (blocks : List Block) (field : Field) (lo hi : Nat) : Except AuditFault Unit :=
  match blocks with
  | [] => .error (.noBlocks lo hi)
  | b :: _ =>
      if b.first ≠ lo then .error (.wrongStart b.first lo)
      else coversFrom field hi 0 lo blocks

end Audit

end TernaryRules
