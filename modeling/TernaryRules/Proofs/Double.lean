import Mathlib.Algebra.Order.Floor.Ring
import Mathlib.Data.Rat.Floor
import Mathlib.Order.WithBot
import TernaryRules.Double

/-!
# Doubles as numbers

A finite double is a rational number (`Double.rat?`), and with the infinities at both ends the
doubles that are numbers are ordered (`Double.extended`).  The units count what a double is in
multiples of the least positive one, so the arithmetic on units is that of the numbers: comparison
(`lt_iff`), and by `rat?_eq` rounding down and divisibility.
-/

namespace TernaryRules.Double

/-- The number that a finite double is. -/
def rat? : Double → Option ℚ
  | finite negative mantissa exponent _ =>
      some ((if negative then -1 else 1) * (mantissa * 2 ^ exponent))
  | _ => none

theorem one_pos : 0 < one := by
  decide +kernel

theorem cast_two_pow (k : Nat) : ((2 ^ k : Nat) : ℚ) = 2 ^ (k : ℤ) := by
  rw [zpow_natCast]
  push_cast
  rfl

theorem cast_one : (one : ℚ) = 2 ^ (1074 : ℤ) := by
  rw [one]
  exact cast_two_pow 1074

theorem cast_one_pos : (0 : ℚ) < (one : ℚ) := Nat.cast_pos.2 one_pos

/-- The number is its units, in units of one. -/
theorem rat?_eq (d : Double) :
    d.rat? = d.units?.map fun units : Int => (units : ℚ) / (one : ℚ) := by
  cases d with
  | nan => rfl
  | infinite negative => rfl
  | finite negative mantissa exponent h =>
      have hscale : (2 : ℚ) ^ (exponent + 1074).toNat = 2 ^ exponent * (one : ℚ) := by
        have hnonneg : 0 ≤ exponent + 1074 := by
          have := h.2.1
          omega
        rw [← zpow_natCast, Int.toNat_of_nonneg hnonneg, zpow_add₀ two_ne_zero, cast_one]
      rw [rat?, units?, Option.map_some, Option.some.injEq, eq_div_iff cast_one_pos.ne']
      cases negative with
      | false =>
          push_cast
          rw [hscale, one_mul, mul_assoc]
      | true =>
          push_cast
          rw [hscale, if_pos rfl, if_pos rfl, neg_one_mul, neg_mul, mul_assoc]

theorem rat?_of_units {d : Double} {units : Int} (h : d.units? = some units) :
    d.rat? = some ((units : ℚ) / (one : ℚ)) := by
  rw [rat?_eq, h]
  rfl

/-! ### Order -/

/-- The number that a double is, the infinities included.  What is not a number is put at the
bottom. -/
def extended : Double → WithBot (WithTop ℚ)
  | nan => ⊥
  | infinite negative => if negative then ⊥ else ((⊤ : WithTop ℚ) : WithBot (WithTop ℚ))
  | d => ((d.rat?.getD 0 : ℚ) : WithTop ℚ)

/-- Doubles that are numbers are compared as numbers. -/
theorem lt_iff {a b : Double} (ha : a ≠ nan) (hb : b ≠ nan) :
    a.lt b = true ↔ a.extended < b.extended := by
  cases a with
  | nan => exact absurd rfl ha
  | infinite na =>
      cases b with
      | nan => exact absurd rfl hb
      | infinite nb => cases na <;> cases nb <;> simp [lt, extended]
      | finite nb mb eb cb => cases na <;> simp [lt, extended]
  | finite na ma ea ca =>
      cases b with
      | nan => exact absurd rfl hb
      | infinite nb =>
          cases nb with
          | true => simp [lt, extended]
          | false => exact iff_of_true rfl (WithBot.coe_lt_coe.2 (WithTop.coe_lt_top _))
      | finite nb mb eb cb =>
          obtain ⟨x, hx⟩ : ∃ x, (finite na ma ea ca).units? = some x := ⟨_, rfl⟩
          obtain ⟨y, hy⟩ : ∃ y, (finite nb mb eb cb).units? = some y := ⟨_, rfl⟩
          have hlt : (finite na ma ea ca).lt (finite nb mb eb cb) = decide (x < y) := by
            simp only [lt, hx, hy]
          rw [hlt, decide_eq_true_iff, extended, extended, rat?_of_units hx, rat?_of_units hy,
            WithBot.coe_lt_coe, WithTop.coe_lt_coe, Option.getD_some, Option.getD_some,
            div_lt_div_iff_of_pos_right cast_one_pos, Int.cast_lt]
          all_goals nofun

end TernaryRules.Double
