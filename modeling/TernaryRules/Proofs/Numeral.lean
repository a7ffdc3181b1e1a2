import TernaryRules.Numeral

/-!
# Numerals are read back

A decimal numeral consists of figures and stands for its number, and only that of 0 starts with
`0`.  A digit of any base up to sixteen is read back as itself.
-/

namespace TernaryRules.Numeral

theorem digit?_digit {d : Nat} (h : d < 16) : digit? (digit d) = some d :=
  (by decide : ∀ d < 16, digit? (digit d) = some d) d h

theorem isDigit_digit {d : Nat} (h : d < 10) : (digit d).isDigit = true :=
  (by decide : ∀ d < 10, (digit d).isDigit = true) d h

theorem toNat_digit {d : Nat} (h : d < 10) : (digit d).toNat - 48 = d :=
  (by decide : ∀ d < 10, (digit d).toNat - 48 = d) d h

theorem digit_ne_zero {d : Nat} (h : d < 10) (hd : d ≠ 0) : digit d ≠ '0' :=
  (by decide : ∀ d < 10, d ≠ 0 → digit d ≠ '0') d h hd

theorem decimal_of_lt {n : Nat} (h : n < 10) : decimal n = [digit n] := by
  rw [decimal, write, dif_neg (by omega)]

theorem decimal_of_le {n : Nat} (h : 10 ≤ n) :
    decimal n = decimal (n / 10) ++ [digit (n % 10)] := by
  rw [decimal, write, dif_pos ⟨h, by decide⟩]
  rfl

theorem decimal_zero : decimal 0 = ['0'] := decimal_of_lt (by decide)

/-- Induction on the number of figures. -/
@[elab_as_elim]
theorem decimal_induction {motive : Nat → Prop} (single : ∀ n < 10, motive n)
    (more : ∀ n, 10 ≤ n → motive (n / 10) → motive n) (n : Nat) : motive n := by
  induction n using Nat.strongRecOn with
  | ind n ih =>
      rcases Nat.lt_or_ge n 10 with h | h
      · exact single n h
      · exact more n h (ih (n / 10) (by omega))

/-- A numeral consists of digits of its base. -/
theorem exists_digit_of_mem_write {base n : Nat} (hbase : 2 ≤ base) {c : Char}
    (h : c ∈ write base n) : ∃ d < base, c = digit d := by
  induction n using Nat.strongRecOn with
  | ind n ih =>
      rw [write] at h
      split at h
      · next hmore =>
          have hsmaller : n / base < n := Nat.div_lt_self (by omega) hbase
          rcases List.mem_append.1 h with h | h
          · exact ih (n / base) hsmaller h
          · exact ⟨n % base, Nat.mod_lt n (by omega), List.mem_singleton.1 h⟩
      · exact ⟨n, by omega, List.mem_singleton.1 h⟩

theorem isDigit_of_mem_decimal (n : Nat) : ∀ c ∈ decimal n, c.isDigit = true := by
  intro c hc
  obtain ⟨d, hd, rfl⟩ := exists_digit_of_mem_write (by decide) hc
  exact isDigit_digit hd

theorem exists_decimal_eq_cons (n : Nat) :
    ∃ c ds, decimal n = c :: ds ∧ c.isDigit = true ∧ (n ≠ 0 → c ≠ '0') := by
  induction n using decimal_induction with
  | single n h =>
      rw [decimal_of_lt h]
      exact ⟨_, _, rfl, isDigit_digit h, digit_ne_zero h⟩
  | more n h ih =>
      obtain ⟨c, ds, hds, hc, hne⟩ := ih
      rw [decimal_of_le h, hds]
      exact ⟨c, _, rfl, hc, fun _ => hne (by omega)⟩

/-- A number with one more figure. -/
def push (n : Nat) (c : Char) : Nat := 10 * n + (c.toNat - 48)

/-- A number with more figures. -/
def pushAll (n : Nat) (ds : List Char) : Nat := ds.foldl push n

theorem pushAll_cons (n : Nat) (c : Char) (ds : List Char) :
    pushAll n (c :: ds) = pushAll (push n c) ds := by
  rw [pushAll, List.foldl_cons, pushAll]

theorem le_pushAll (n : Nat) (ds : List Char) : n ≤ pushAll n ds := by
  induction ds generalizing n with
  | nil => exact Nat.le_refl n
  | cons c ds ih =>
      have hpush : n ≤ push n c := by
        unfold push
        omega
      rw [pushAll_cons]
      exact Nat.le_trans hpush (ih (push n c))

theorem pushAll_decimal (n : Nat) : pushAll 0 (decimal n) = n := by
  induction n using decimal_induction with
  | single n h =>
      rw [decimal_of_lt h]
      exact (Nat.zero_add _).trans (toNat_digit h)
  | more n h ih =>
      have hdigit := toNat_digit (Nat.mod_lt n (by decide : 0 < 10))
      rw [pushAll] at ih
      rw [decimal_of_le h, pushAll, List.foldl_append, ih, List.foldl_cons, List.foldl_nil, push,
        hdigit]
      exact Nat.div_add_mod n 10

end TernaryRules.Numeral
