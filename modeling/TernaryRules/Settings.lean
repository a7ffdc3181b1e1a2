import TernaryRules.Field

/-!
# Settings

What a compilation can be told: where priorities start and which way they run, how many rules are
wanted at most, how many threads may work and how much is logged.
-/

namespace TernaryRules

/-- Whether the first rule has the lowest or the highest priority. -/
inductive PriorityOrder where
  | ascending
  | descending
deriving DecidableEq, Repr

/-- What happens above the rule limit. -/
inductive LimitAction where
  | warn
  | reject
deriving DecidableEq, Repr

/-- How much is logged, from nothing to everything. -/
inductive Verbosity where
  | silent
  | warning
  | info
  | debug
deriving DecidableEq, Repr

namespace Verbosity

def rank : Verbosity → Nat
  | silent => 0
  | warning => 1
  | info => 2
  | debug => 3

/-- Whether messages of a level are logged; no message has the level `silent`. -/
def shows (v level : Verbosity) : Bool := level != .silent && decide (level.rank ≤ v.rank)

end Verbosity

/-- What a compilation is told. Any limit can stand here, that of no rules too; `withRuleLimit` alone
turns it down. -/
structure Settings where
  priorityBase : Nat
  priorityOrder : PriorityOrder
  ruleLimit : Option Nat
  limitAction : LimitAction
  threads : Option Nat
  verbosity : Verbosity
deriving DecidableEq

inductive SettingsError where
  | zeroRuleLimit
deriving DecidableEq, Repr

def SettingsError.message : SettingsError → String
  | zeroRuleLimit => "rule_limit must be at least 1"

namespace Settings

def default : Settings where
  priorityBase := 1
  priorityOrder := .ascending
  ruleLimit := none
  limitAction := .warn
  threads := none
  verbosity := .silent

/-- The settings with another limit, which may not be zero. -/
def withRuleLimit (s : Settings) (limit : Option Nat) : Except SettingsError Settings :=
  if limit = some 0 then .error .zeroRuleLimit else .ok { s with ruleLimit := limit }

/-- The number of threads, where 0 leaves it to the machine. -/
def threadCount (s : Settings) : Nat := s.threads.getD 0

end Settings

/-- Whether work is shared out. One thread works alone; results come in the same order either
way. -/
def sharesWork (threads : Nat) : Bool := threads != 1

end TernaryRules
