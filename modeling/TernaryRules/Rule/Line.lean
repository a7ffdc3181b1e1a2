import TernaryRules.Rule

/-!
# Rule lines

A rule is written as one line of words parted by single blanks, in one of two formats: a
`table_add` command with decimal values and masks, or a `match` entry with hexadecimal ones.
-/

namespace TernaryRules

/-- A line format with its free words. -/
inductive LineFormat where
  | tableAdd (table action : String)
  | matchEntry (action param : String)
deriving DecidableEq, Repr

namespace LineFormat

def defaultTable : String := "MyIngress.ml_code"

def defaultAction : String := "set_result"

def defaultParam : String := "val"

/-- The words of a rule. -/
def words (r : Rule) : LineFormat → List (List Char)
  | tableAdd table action =>
      ["table_add".toList, table.toList, action.toList] ++
        r.blocks.map (fun b => Numeral.decimal b.first ++ '-' :: '>' :: Numeral.decimal b.mask) ++
        [['=', '>'], Numeral.decimal r.label.toNat, Numeral.decimal r.priority]
  | matchEntry action param =>
      ["match".toList] ++ r.blocks.map Block.chars ++
        ["priority".toList, Numeral.decimal r.priority,
          "action".toList, action.toList, param.toList, Numeral.decimal r.label.toNat]

/-- The line of a rule, without its end. -/
def line (f : LineFormat) (r : Rule) : List Char := [' '].intercalate (f.words r)

/-- The lines of all rules, each with its end. -/
def document (f : LineFormat) (rules : List Rule) : String :=
  String.join (rules.map fun r => String.ofList (f.line r ++ ['\n']))

end LineFormat

end TernaryRules
