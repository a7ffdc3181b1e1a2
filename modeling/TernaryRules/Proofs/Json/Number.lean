import TernaryRules.Json.Writer
import TernaryRules.Proofs.Json.Parsing
import TernaryRules.Proofs.Numeral
import TernaryRules.Proofs.Outcome

/-!
# Whole numbers are read back

The figures of a numeral before a delimiter are all that is read of it.  Their significand is the
number itself as long as it is a word (`gather_of_le`); a larger number leaves figures out and comes
back as a double or not at all.  So a reader of natural numbers accepts a numeral exactly when its
number is within the bound (`reads_natural`).
-/

namespace TernaryRules.Json

open Numeral

/-! ### Significands -/

theorem appendDigit?_of_le {n : Nat} {c : Char} (h : push n c ≤ maxKey) :
    appendDigit? n c = some (push n c) := by
  unfold appendDigit?
  exact if_pos h

theorem appendDigit?_of_lt {n : Nat} {c : Char} (h : maxKey < push n c) :
    appendDigit? n c = none := by
  unfold appendDigit?
  exact if_neg (Nat.not_le.2 h)

theorem gather_of_le {ds : List Char} {n : Nat} (h : pushAll n ds ≤ maxKey) :
    gather ds n = (pushAll n ds, 0) := by
  induction ds generalizing n with
  | nil => rfl
  | cons c ds ih =>
      rw [pushAll_cons] at h ⊢
      rw [gather, appendDigit?_of_le (Nat.le_trans (le_pushAll (push n c) ds) h)]
      exact ih h

theorem gather_of_lt {ds : List Char} {n : Nat} (hn : n ≤ maxKey) (h : maxKey < pushAll n ds) :
    (gather ds n).2 ≠ 0 := by
  induction ds generalizing n with
  | nil => exact absurd hn (Nat.not_le.2 h)
  | cons c ds ih =>
      rw [pushAll_cons] at h
      rw [gather]
      rcases Nat.lt_or_ge maxKey (push n c) with hstep | hstep
      · rw [appendDigit?_of_lt hstep]
        exact Nat.succ_ne_zero _
      · rw [appendDigit?_of_le hstep]
        exact ih hstep h

/-! ### Numerals before a delimiter -/

open Reader (Delimited)

/-- No figure follows. -/
theorem Reader.Delimited.isDigit {rest : List Char} (h : Delimited rest) :
    ∀ c ∈ rest.head?, c.isDigit = false := by
  intro c hc
  rcases h c hc with rfl | rfl | rfl <;> rfl

theorem takeWhile_isDigit {ds rest : List Char} (hds : ∀ c ∈ ds, c.isDigit = true)
    (h : Delimited rest) : (ds ++ rest).takeWhile Char.isDigit = ds := by
  rw [List.takeWhile_append_of_pos hds]
  cases rest with
  | nil => simp
  | cons c cs => simp [h.isDigit c rfl]

theorem dropWhile_isDigit {ds rest : List Char} (hds : ∀ c ∈ ds, c.isDigit = true)
    (h : Delimited rest) : (ds ++ rest).dropWhile Char.isDigit = rest := by
  rw [List.dropWhile_append_of_pos hds]
  cases rest with
  | nil => rfl
  | cons c cs => simp [h.isDigit c rfl]

/-- Before a delimiter, the figures in front are the whole number. -/
theorem readTail_of_delimited (digits : List Char) {rest : List Char} (h : Delimited rest) :
    readTail false digits rest =
      if (gather digits 0).2 = 0 then .ok (whole false (gather digits 0).1, rest)
      else
        (scaled false (gather digits 0).1 (gather digits 0).2 false 0).map fun n => (n, rest) := by
  cases rest with
  | nil => rfl
  | cons c cs => rcases h c rfl with rfl | rfl | rfl <;> rfl

theorem readNumber_decimal (n : Nat) {rest : List Char} (h : Delimited rest) :
    readNumber false (decimal n ++ rest) = readTail false (decimal n) rest := by
  obtain ⟨c, ds, hds, hc, hne⟩ := exists_decimal_eq_cons n
  have hdigits : ∀ c ∈ decimal n, c.isDigit = true := isDigit_of_mem_decimal n
  rcases Nat.eq_zero_or_pos n with rfl | hpos
  · have hany : rest.head?.any Char.isDigit = false := by
      cases rest with
      | nil => rfl
      | cons c cs => exact h.isDigit c rfl
    rw [decimal_zero]
    show (if rest.head?.any Char.isDigit = true then _ else _) = _
    rw [if_neg (by simp [hany])]
    rfl
  · have hzero : c ≠ '0' := hne (Nat.ne_of_gt hpos)
    have htake := takeWhile_isDigit hdigits h
    have hdrop := dropWhile_isDigit hdigits h
    rw [hds, List.cons_append] at htake hdrop
    rw [hds, List.cons_append]
    unfold readNumber
    split
    · next e => cases e
    · next e =>
        cases e
        exact absurd rfl hzero
    · next e =>
        cases e
        rw [if_pos hc, htake, hdrop]

theorem scaled_ne_natural (significand : Nat) (power : Int) (m : Nat) :
    scaled false significand power false 0 ≠ .ok (.natural m) := by
  unfold scaled
  split
  · split <;> nofun
  · dsimp only
    split <;> nofun

/-- A numeral is read as its number, when that is a word, and else not as a whole number. -/
theorem readNumber_decimal_eq_natural (n m : Nat) (rest' : List Char) {rest : List Char}
    (h : Delimited rest) :
    readNumber false (decimal n ++ rest) = .ok (.natural m, rest') ↔
      n ≤ maxKey ∧ m = n ∧ rest' = rest := by
  rw [readNumber_decimal n h, readTail_of_delimited _ h]
  rcases Nat.lt_or_ge maxKey n with hn | hn
  · rw [if_neg (gather_of_lt (Nat.zero_le _) (by rwa [pushAll_decimal]))]
    refine iff_of_false (fun hok => ?_) (fun hle => Nat.not_le.2 hn hle.1)
    obtain ⟨_, hscaled, ⟨⟩⟩ := map_eq_ok.1 hok
    exact scaled_ne_natural _ _ _ hscaled
  · have hgather : gather (decimal n) 0 = (n, 0) := by
      rw [gather_of_le (by rwa [pushAll_decimal]), pushAll_decimal]
    rw [hgather, if_pos rfl]
    constructor
    · rintro ⟨⟩
      exact ⟨hn, rfl, rfl⟩
    · rintro ⟨-, rfl, rfl⟩
      rfl

/-! ### Readers of natural numbers -/

theorem isBlank_of_isDigit {c : Char} (h : c.isDigit = true) : isBlank c = false := by
  unfold isBlank
  by_contra hblank
  simp only [Bool.not_eq_false, Bool.or_eq_true, beq_iff_eq] at hblank
  rcases hblank with ((rfl | rfl) | rfl) | rfl <;> cases h

namespace Reader

variable {c : Char} {cs : List Char}

theorem parse?_number (h : c.isDigit = true) :
    parse? number (c :: cs) = (readNumber false (c :: cs)).toOption := by
  unfold number
  rw [parse?_bind, parse?_get, Option.bind_some]
  dsimp only
  split
  · next e =>
      cases e
      cases h
  · exact parse?_take _ _

theorem parse?_numberFor (expected : String) (h : c.isDigit = true) :
    parse? (numberFor expected) (c :: cs) = (readNumber false (c :: cs)).toOption := by
  unfold numberFor
  rw [parse?_bind, parse?_start_cons (isBlank_of_isDigit h)]
  show parse? (if c = '-' ∨ c.isDigit = true then number else mismatch expected) (c :: cs) = _
  rw [if_pos (.inr h), parse?_number h]

/-- **A numeral is read exactly when its number is within the bound.** -/
theorem reads_natural (expected : String) {bound : Nat} (hbound : bound ≤ maxKey) (n : Nat) :
    Reads (natural expected bound) (writeNat n) (if n ≤ bound then some n else none) := by
  obtain ⟨c, cs, hcs, hc, -⟩ := exists_decimal_eq_cons n
  have hclose : c ≠ ']' := by
    rintro rfl
    cases hc
  refine ⟨⟨c, cs, hcs, isBlank_of_isDigit hc, hclose⟩, fun rest hrest => ?_⟩
  have hnumber : parse? (numberFor expected) (writeNat n ++ rest) =
      (readNumber false (decimal n ++ rest)).toOption := by
    rw [writeNat, hcs]
    exact parse?_numberFor expected hc
  have hnatural (m : Nat) (rest' : List Char) :=
    readNumber_decimal_eq_natural n m rest' hrest
  rw [natural, parse?_bind, hnumber]
  rcases Nat.lt_or_ge maxKey n with hn | hn
  · -- the number is no word, so what is read is no whole number
    rw [if_neg (by omega)]
    cases hr : readNumber false (decimal n ++ rest) with
    | error e => rfl
    | ok p =>
        obtain ⟨m | m | d, rest'⟩ := p
        · exact absurd ((hnatural m rest').1 hr).1 (Nat.not_le.2 hn)
        · rfl
        · rfl
  · rw [(hnatural n rest).2 ⟨hn, rfl, rfl⟩]
    show parse? (if n ≤ bound then pure n else throw _) rest = _
    split <;> rfl

/-- A numeral is not `null`. -/
theorem reads_option_natural (expected : String) {bound : Nat} (hbound : bound ≤ maxKey) (n : Nat) :
    Reads (option (natural expected bound)) (writeNat n)
      (if n ≤ bound then some (some n) else none) := by
  have hnull : (writeNat n).head? ≠ some 'n' := by
    obtain ⟨c, cs, hcs, hc, -⟩ := exists_decimal_eq_cons n
    rw [writeNat, hcs]
    rintro ⟨⟩
    cases hc
  have hreads := (reads_natural expected hbound n).option hnull
  rwa [apply_ite (Option.map some)] at hreads

end Reader

end TernaryRules.Json
