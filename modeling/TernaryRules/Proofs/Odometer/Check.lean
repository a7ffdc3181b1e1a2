import TernaryRules.Proofs.Product

/-!
# Odometers that test their settings

The settings of an odometer are the points of its box in increasing order
(`Odometer.settings_increasing`).  From one to the next the odometer carries in place, wheel by
wheel from the last one (`Odometer.exists_carry`), and what it writes on the way stays in the box
(`Odometer.Carry.box`).

`Odometer.Checks` has the settings that are put to a test, up to the first that fails or to the
last.  They are the first ones of all settings (`Odometer.Checks.seen_isPrefix`), each carried to
the next (`Odometer.Checks.carried`).
-/

namespace TernaryRules

namespace Odometer

/-! ### Settings -/

theorem mem_values {i : Interval} {v : Nat} : v ∈ values i ↔ v ∈ i := by
  have hsize : i.lo + i.size = i.hi + 1 := by
    have := i.lo_le_hi
    rw [Interval.size]
    omega
  rw [values, List.mem_range'_1, hsize, Nat.lt_succ_iff, Interval.mem_def]

theorem mem_settings {wheels : List Interval} {point : List Nat} :
    point ∈ settings wheels ↔ Box wheels point := by
  rw [settings_eq_tuples, mem_tuples, List.forall₂_map_right_iff]
  simp only [mem_values]
  exact ⟨List.Forall₂.flip, List.Forall₂.flip⟩

theorem settings_increasing (wheels : List Interval) : (settings wheels).Pairwise (· < ·) := by
  have hvalues : ∀ items ∈ wheels.map values, items.Pairwise fun a b => id a < id b := by
    intro items hitems
    obtain ⟨wheel, -, rfl⟩ := List.mem_map.1 hitems
    exact List.pairwise_lt_range'
  rw [settings_eq_tuples]
  simpa using tuples_increasing hvalues

/-! ### Carrying in place -/

theorem box_set_digit {wheels : List Interval} {wheel : Interval} {i digit : Nat} {point : List Nat}
    (hb : Box wheels point) (hw : wheels[i]? = some wheel) (hd : digit ∈ wheel) :
    Box wheels (point.set i digit) := by
  induction hb generalizing i with
  | nil => cases hw
  | cons hv hb ih =>
      cases i with
      | zero =>
          obtain rfl := Option.some.inj hw
          exact .cons hd hb
      | succ i => exact .cons hv (ih hw)

/-- A carry into the first `i` wheels of a point: the points it writes, and the one it leaves, with
whether a wheel has turned.  A wheel at its end goes back to its start and passes the carry on. -/
inductive Carry (wheels : List Interval) :
    Nat → List Nat → List (List Nat) → List Nat × Bool → Prop
  | out (point : List Nat) : Carry wheels 0 point [] (point, false)
  | turn {i digit : Nat} {point : List Nat} {wheel : Interval} :
      wheels[i]? = some wheel → point[i]? = some digit → digit < wheel.hi →
        Carry wheels (i + 1) point [point.set i (digit + 1)] (point.set i (digit + 1), true)
  | reset {i digit : Nat} {point : List Nat} {wheel : Interval} {written : List (List Nat)}
      {left : List Nat × Bool} :
      wheels[i]? = some wheel → point[i]? = some digit → ¬ digit < wheel.hi →
        Carry wheels i (point.set i wheel.lo) written left →
          Carry wheels (i + 1) point (point.set i wheel.lo :: written) left

namespace Carry

variable {wheels : List Interval} {wheel : Interval} {i digit : Nat} {point : List Nat}
  {written : List (List Nat)} {left : List Nat × Bool}

/-- **A carry stays in the box** with every point it writes. -/
theorem box (h : Carry wheels i point written left) (hb : Box wheels point) :
    ∀ q ∈ written, Box wheels q := by
  induction h with
  | out => exact nofun
  | turn hw hp hlt =>
      have hmem := hb.mem_of_getElem? hw hp
      exact List.forall_mem_singleton.2
        (box_set_digit hb hw ⟨Nat.le_succ_of_le hmem.1, hlt⟩)
  | @reset i digit point wheel written left hw _ _ _ ih =>
      have hset := box_set_digit hb hw wheel.lo_mem
      exact List.forall_mem_cons.2 ⟨hset, ih hset⟩

/-- A carry that ends behind the first wheel. -/
theorem cons_turned (h : Carry wheels i point written left) (hleft : left.2 = true) :
    Carry (wheel :: wheels) (i + 1) (digit :: point) (written.map (digit :: ·))
      (digit :: left.1, true) := by
  induction h with
  | out => cases hleft
  | turn hw hp hlt => exact .turn hw hp hlt
  | reset hw hp hge _ ih => exact .reset hw hp hge (ih hleft)

/-- A carry that comes to the first wheel goes on there. -/
theorem cons_passed (h : Carry wheels i point written left) (hleft : left.2 = false)
    {written' : List (List Nat)} {left' : List Nat × Bool}
    (hfirst : Carry (wheel :: wheels) 1 (digit :: left.1) written' left') :
    Carry (wheel :: wheels) (i + 1) (digit :: point) (written.map (digit :: ·) ++ written')
      left' := by
  induction h with
  | out => exact hfirst
  | turn => cases hleft
  | reset hw hp hge _ ih => exact .reset hw hp hge (ih hleft hfirst)

end Carry

/-- **The next setting is what a carry leaves** when a wheel has turned; otherwise the carry has run
out of wheels, and all are at their start. -/
theorem exists_carry {wheels : List Interval} {digits : List Nat} (hb : Box wheels digits) :
    ∃ written, Carry wheels wheels.length digits written
      (match advance wheels digits with
        | some digits' => (digits', true)
        | none => (start wheels, false)) := by
  induction hb with
  | nil => exact ⟨[], .out []⟩
  | @cons wheel digit wheels digits _ _ ih =>
      obtain ⟨written, h⟩ := ih
      rw [advance]
      cases hadvance : advance wheels digits with
      | some later =>
          rw [hadvance] at h
          exact ⟨_, h.cons_turned rfl⟩
      | none =>
          rw [hadvance] at h
          dsimp only at h ⊢
          by_cases hlt : digit < wheel.hi
          · rw [if_pos hlt]
            exact ⟨_, h.cons_passed rfl (.turn rfl rfl hlt)⟩
          · rw [if_neg hlt]
            exact ⟨_, h.cons_passed rfl (.reset rfl rfl hlt (.out _))⟩

/-! ### Checks -/

variable {ε : Type} {test : List Nat → Except ε Unit} {wheels : List Interval}
  {digits : List Nat} {seen : List (List Nat)} {result : Except ε Unit}

/-- The settings that are put to a test from one on, and what comes of it: up to the first that
fails, or up to the one that has no next. -/
inductive Checks (test : List Nat → Except ε Unit) (wheels : List Interval) :
    List Nat → List (List Nat) → Except ε Unit → Prop
  | failed {digits : List Nat} {e : ε} :
      test digits = .error e → Checks test wheels digits [digits] (.error e)
  | last {digits : List Nat} :
      test digits = .ok () → advance wheels digits = none →
        Checks test wheels digits [digits] (.ok ())
  | turn {digits digits' : List Nat} {seen : List (List Nat)} {result : Except ε Unit} :
      test digits = .ok () → advance wheels digits = some digits' →
        Checks test wheels digits' seen result → Checks test wheels digits (digits :: seen) result

theorem exists_checks (test : List Nat → Except ε Unit) (wheels : List Interval)
    (digits : List Nat) :
    ∃ seen, Checks test wheels digits seen (checkFrom test wheels digits) := by
  rw [checkFrom]
  cases htest : test digits with
  | error e => exact ⟨_, .failed htest⟩
  | ok _ =>
      dsimp only
      split
      · rename_i hlast
        exact ⟨_, .last htest hlast⟩
      · rename_i digits' hturn
        have := toCome_advance_lt hturn
        obtain ⟨seen, hseen⟩ := exists_checks test wheels digits'
        exact ⟨_, .turn htest hturn hseen⟩
termination_by toCome wheels digits

namespace Checks

/-- The settings that are seen are the first ones. -/
theorem seen_isPrefix (h : Checks test wheels digits seen result) :
    seen <+: onward wheels digits := by
  induction h with
  | @failed digits _ _ =>
      rw [onward_advance]
      exact List.prefix_append [digits] _
  | @last digits _ _ =>
      rw [onward_advance]
      exact List.prefix_append [digits] _
  | @turn digits digits' seen result _ hturn _ ih =>
      rw [onward_advance, hturn]
      exact List.cons_prefix_cons.2 ⟨rfl, ih⟩

theorem all_passed (h : Checks test wheels digits seen result) (hok : result = .ok ()) :
    seen = onward wheels digits ∧ ∀ p ∈ seen, test p = .ok () := by
  induction h with
  | failed => cases hok
  | last htest hlast =>
      rw [onward_advance, hlast]
      exact ⟨rfl, List.forall_mem_singleton.2 htest⟩
  | turn htest hturn _ ih =>
      obtain ⟨hseen, hpassed⟩ := ih hok
      rw [onward_advance, hturn]
      exact ⟨congrArg _ hseen, List.forall_mem_cons.2 ⟨htest, hpassed⟩⟩

theorem first_failed {e : ε} (h : Checks test wheels digits seen result)
    (herror : result = .error e) :
    ∃ before p, seen = before ++ [p] ∧ (∀ q ∈ before, test q = .ok ()) ∧ test p = .error e := by
  induction h with
  | @failed digits _ htest =>
      cases herror
      exact ⟨[], digits, rfl, nofun, htest⟩
  | last => cases herror
  | @turn digits _ _ _ htest _ _ ih =>
      obtain ⟨before, p, hseen, hpassed, hfailed⟩ := ih herror
      exact ⟨digits :: before, p, congrArg (digits :: ·) hseen,
        List.forall_mem_cons.2 ⟨htest, hpassed⟩, hfailed⟩

theorem head?_eq (h : Checks test wheels digits seen result) : seen.head? = some digits := by
  cases h <;> rfl

/-- Each setting that is seen is carried to the next one. -/
theorem carried (h : Checks test wheels digits seen result) (hb : Box wheels digits) :
    seen.IsChain fun p q => ∃ written, Carry wheels wheels.length p written (q, true) := by
  induction h with
  | failed => exact .singleton _
  | last => exact .singleton _
  | turn _ hturn hrest ih =>
      refine List.isChain_cons.2 ⟨fun q hq => ?_, ih (box_advance hb hturn)⟩
      obtain rfl : _ = q := Option.some.inj (hrest.head?_eq.symm.trans hq)
      have hcarry := exists_carry hb
      rw [hturn] at hcarry
      exact hcarry

/-- Once all settings have passed, the carry runs out of wheels. -/
theorem runs_out (h : Checks test wheels digits seen result) (hb : Box wheels digits)
    (hok : result = .ok ()) :
    ∃ p written, seen.getLast? = some p ∧
      Carry wheels wheels.length p written (start wheels, false) := by
  induction h with
  | failed => cases hok
  | @last digits _ hlast =>
      obtain ⟨written, hcarry⟩ := exists_carry hb
      rw [hlast] at hcarry
      exact ⟨digits, written, rfl, hcarry⟩
  | turn _ hturn hrest ih =>
      obtain ⟨p, written, hp, hcarry⟩ := ih (box_advance hb hturn) hok
      refine ⟨p, written, ?_, hcarry⟩
      rw [List.getLast?_cons, hp]
      rfl

end Checks

end Odometer

end TernaryRules
