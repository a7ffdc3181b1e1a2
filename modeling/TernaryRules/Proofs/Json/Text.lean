import TernaryRules.Json.Writer
import TernaryRules.Proofs.Json.Parsing
import TernaryRules.Proofs.Numeral

/-!
# Strings are read back

Each character of a string is written in a way of its own and read back in one step
(`readChars_writeChar`): behind a backslash, by the number of its unit if it is a control
character, or as it is.  So a string in quotes is read back as a whole (`readText_flatMap`).
-/

namespace TernaryRules.Json

/-- The four digits of a control character are read back as that character. -/
theorem readUnits_control {c : Char} (h : c.toNat < 32) (cs : List Char) :
    readUnits ('0' :: '0' :: Numeral.digit (c.toNat / 16) :: Numeral.digit (c.toNat % 16) :: cs) =
      .ok (c, cs) := by
  have hunit : readUnit
      ('0' :: '0' :: Numeral.digit (c.toNat / 16) :: Numeral.digit (c.toNat % 16) :: cs) =
        .ok (c.toNat, cs) := by
    have hzero : Numeral.digit? '0' = some 0 := rfl
    have hsum : ((0 * 16 + 0) * 16 + c.toNat / 16) * 16 + c.toNat % 16 = c.toNat := by omega
    rw [readUnit, hzero, Numeral.digit?_digit (by omega), Numeral.digit?_digit (by omega)]
    exact congrArg (fun n => Except.ok (n, cs)) hsum
  have htrailing : isTrailing c.toNat = false := decide_eq_false (by omega)
  have hleading : isLeading c.toNat = false := decide_eq_false (by omega)
  rw [readUnits, hunit]
  simp [htrailing, hleading]

/-- **A written character is read back in one step.** -/
theorem readChars_writeChar (c step : Char) (steps cs : List Char) (seen : Array Char) :
    readChars (step :: steps) (writeChar c ++ cs) seen = readChars steps cs (seen.push c) := by
  unfold writeChar
  split
  · rfl
  · rfl
  · rfl
  · rfl
  · rfl
  · rfl
  · rfl
  · next hquote hbackslash _ _ _ _ _ =>
      by_cases hcontrol : c.toNat < 32
      · simp only [if_pos hcontrol, List.cons_append, List.nil_append]
        rw [readChars, readEscape, readUnits_control hcontrol]
      · rw [if_neg hcontrol, List.singleton_append, readChars, if_neg hcontrol]
        · exact hquote
        · exact hbackslash

theorem readChars_flatMap (cs rest : List Char) {steps : List Char} (seen : Array Char)
    (h : cs.length < steps.length) :
    readChars steps (cs.flatMap writeChar ++ '"' :: rest) seen =
      .ok (String.ofList (seen.toList ++ cs), rest) := by
  induction cs generalizing steps seen with
  | nil =>
      cases steps with
      | nil => cases h
      | cons step steps => simp [readChars]
  | cons c cs ih =>
      cases steps with
      | nil => cases h
      | cons step steps =>
          rw [List.flatMap_cons, List.append_assoc, readChars_writeChar,
            ih _ (Nat.lt_of_succ_lt_succ h), Array.toList_push, List.append_assoc]
          rfl

theorem writeChar_ne_nil (c : Char) : writeChar c ≠ [] := by
  fun_cases writeChar c <;> nofun

theorem length_le_flatMap_writeChar (cs : List Char) :
    cs.length ≤ (cs.flatMap writeChar).length := by
  induction cs with
  | nil => exact Nat.le_refl 0
  | cons c cs ih =>
      have hpos := List.length_pos_iff.2 (writeChar_ne_nil c)
      rw [List.flatMap_cons, List.length_append, List.length_cons]
      omega

theorem readText_flatMap (s : String) (rest : List Char) :
    readText (s.toList.flatMap writeChar ++ '"' :: rest) = .ok (s, rest) := by
  have hsteps : s.toList.length < (s.toList.flatMap writeChar ++ '"' :: rest).length := by
    have hle := length_le_flatMap_writeChar s.toList
    rw [List.length_append, List.length_cons]
    omega
  rw [readText, readChars_flatMap _ _ _ hsteps]
  simp

namespace Reader

theorem parse?_textFor (expected : String) (s : String) (rest : List Char) :
    parse? (textFor expected) (writeText s ++ rest) = some (s, rest) := by
  show parse? (textFor expected) ('"' :: (s.toList.flatMap writeChar ++ ['"'] ++ rest)) = _
  rw [textFor, parse?_bind, parse?_start_cons rfl]
  show parse? (skip >>= fun _ => take readText) _ = _
  rw [parse?_bind, parse?_skip]
  show parse? (take readText) _ = _
  rw [parse?_take, List.append_assoc, List.singleton_append, readText_flatMap]
  rfl

theorem reads_textFor (expected : String) (s : String) :
    Reads (textFor expected) (writeText s) (some s) :=
  ⟨⟨'"', _, rfl, rfl, by decide⟩, fun rest _ => parse?_textFor expected s rest⟩

end Reader

end TernaryRules.Json
