import TernaryRules.Interval

/-!
# Odometers

An odometer is a row of wheels, each running through an interval. The last wheel turns fastest;
a wheel that is past its end goes back to its start and carries into the wheel before it. From the
start, the settings are the points of the box of the wheels in lexicographic order.
-/

namespace TernaryRules.Odometer

/-- Every wheel at its start. -/
def start (wheels : List Interval) : List Nat := wheels.map Interval.lo

/-- The next setting, unless every wheel is at its end. -/
def advance : List Interval → List Nat → Option (List Nat)
  | wheel :: wheels, digit :: digits =>
      match advance wheels digits with
      | some digits => some (digit :: digits)
      | none => if digit < wheel.hi then some ((digit + 1) :: start wheels) else none
  | _, _ => none

/-- The number of points in the box of the wheels. -/
def volume (wheels : List Interval) : Nat := (wheels.map Interval.size).foldr (· * ·) 1

/-- The number of settings still to come. -/
def toCome : List Interval → List Nat → Nat
  | wheel :: wheels, digit :: digits =>
      (wheel.hi - digit) * volume wheels + toCome wheels digits
  | _, _ => 0

theorem toCome_start_add_one (wheels : List Interval) :
    toCome wheels (start wheels) + 1 = volume wheels := by
  induction wheels with
  | nil => rfl
  | cons wheel wheels ih =>
      show (wheel.hi - wheel.lo) * volume wheels + toCome wheels (start wheels) + 1 =
        (wheel.hi - wheel.lo + 1) * volume wheels
      rw [Nat.add_assoc, ih, Nat.succ_mul]

theorem toCome_advance_lt {wheels : List Interval} {digits digits' : List Nat}
    (h : advance wheels digits = some digits') : toCome wheels digits' < toCome wheels digits := by
  induction wheels generalizing digits digits' with
  | nil => simp [advance] at h
  | cons wheel wheels ih =>
      cases digits with
      | nil => simp [advance] at h
      | cons digit digits =>
          unfold advance at h
          split at h
          next later e =>
            cases h
            exact Nat.add_lt_add_left (ih e) _
          next =>
            split at h
            next hlt =>
              cases h
              have hs := toCome_start_add_one wheels
              have hd : wheel.hi - digit = wheel.hi - (digit + 1) + 1 := by omega
              simp only [toCome]
              rw [hd, Nat.succ_mul]
              omega
            next => cases h

/-- Adds the settings from the given one on to those seen. -/
def settingsFrom (wheels : List Interval) (digits : List Nat) (seen : Array (List Nat)) :
    List (List Nat) :=
  match h : advance wheels digits with
  | none => (seen.push digits).toList
  | some digits' =>
      have := toCome_advance_lt h
      settingsFrom wheels digits' (seen.push digits)
termination_by toCome wheels digits

/-- All settings, in order. -/
def settings (wheels : List Interval) : List (List Nat) := settingsFrom wheels (start wheels) #[]

/-- Puts the settings from the given one on to a test, up to the first that fails. -/
def checkFrom {ε : Type} (test : List Nat → Except ε Unit) (wheels : List Interval)
    (digits : List Nat) : Except ε Unit :=
  match test digits with
  | .error e => .error e
  | .ok () =>
      match h : advance wheels digits with
      | none => .ok ()
      | some digits' =>
          have := toCome_advance_lt h
          checkFrom test wheels digits'
termination_by toCome wheels digits

/-- Puts all settings to a test, in order, up to the first that fails. -/
def check {ε : Type} (test : List Nat → Except ε Unit) (wheels : List Interval) : Except ε Unit :=
  checkFrom test wheels (start wheels)

/-- The wheel that runs through the positions of a list. -/
def wheel? {α : Type} (items : List α) : Option Interval :=
  if items.isEmpty then none else some ⟨0, items.length - 1, Nat.zero_le _⟩

/-- The items at the given positions, one from each list. -/
def pick {α : Type} (lists : List (List α)) (positions : List Nat) : List α :=
  (lists.zip positions).filterMap fun (items, position) => items[position]?

/-- All ways to choose one item from each list; the choice from the first list changes slowest. -/
def choices {α : Type} (lists : List (List α)) : List (List α) :=
  match lists.mapM wheel? with
  | none => []
  | some wheels => (settings wheels).map (pick lists)

end TernaryRules.Odometer
