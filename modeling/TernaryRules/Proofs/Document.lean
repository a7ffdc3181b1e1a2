import TernaryRules.Proofs.Numeral
import TernaryRules.Rule.Line

/-!
# Documents

A document has one line for each rule.  The words of a line are numerals and signs, and the free
words of its format; when these have no end of line in them, neither has a line
(`newline_notMem_line`).  So the document falls apart at the ends of its lines into the lines of the
rules, in order, with nothing behind the last one (`splitOn_document`).
-/

namespace TernaryRules.LineFormat

/-- The free words of a format. -/
def freeWords : LineFormat → List String
  | tableAdd table action => [table, action]
  | matchEntry action param => [action, param]

/-- No free word has an end of line in it. -/
def SingleLine (f : LineFormat) : Prop := ∀ word ∈ f.freeWords, '\n' ∉ word.toList

instance (f : LineFormat) : Decidable f.SingleLine :=
  inferInstanceAs (Decidable (∀ word ∈ f.freeWords, '\n' ∉ word.toList))

theorem newline_notMem_write {base : Nat} (hbase : 2 ≤ base) (hle : base ≤ 16) (n : Nat) :
    '\n' ∉ Numeral.write base n := by
  intro h
  obtain ⟨d, hd, heq⟩ := Numeral.exists_digit_of_mem_write hbase h
  exact (by decide : ∀ d < 16, '\n' ≠ Numeral.digit d) d (Nat.lt_of_lt_of_le hd hle) heq

theorem newline_notMem_decimal (n : Nat) : '\n' ∉ Numeral.decimal n :=
  newline_notMem_write (by decide) (by decide) n

theorem newline_notMem_chars (b : Block) : '\n' ∉ b.chars := by
  have hfirst := newline_notMem_write (by decide) (by decide : 16 ≤ 16) b.first
  have hmask := newline_notMem_write (by decide) (by decide : 16 ≤ 16) b.mask
  simp [Block.chars, Numeral.hex, hfirst, hmask]

theorem newline_notMem_words {f : LineFormat} (hf : f.SingleLine) (r : Rule) :
    ∀ word ∈ f.words r, '\n' ∉ word := by
  cases f with
  | tableAdd table action =>
      have htable : '\n' ∉ table.toList := hf table (by simp [freeWords])
      have haction : '\n' ∉ action.toList := hf action (by simp [freeWords])
      simp [words, or_imp, forall_and, htable, haction, newline_notMem_decimal]
  | matchEntry action param =>
      have haction : '\n' ∉ action.toList := hf action (by simp [freeWords])
      have hparam : '\n' ∉ param.toList := hf param (by simp [freeWords])
      simp [words, or_imp, forall_and, haction, hparam, newline_notMem_decimal,
        newline_notMem_chars]

theorem notMem_intercalate {c blank : Char} (hblank : c ≠ blank) :
    ∀ {words : List (List Char)}, (∀ word ∈ words, c ∉ word) → c ∉ [blank].intercalate words
  | [], _ => by simp
  | [word], h => by simpa using h
  | word :: next :: rest, h => by
      obtain ⟨hword, hrest⟩ := List.forall_mem_cons.1 h
      rw [List.intercalate_cons_cons, List.mem_append, List.mem_append, List.mem_singleton]
      rintro ((hc | hc) | hc)
      · exact hword hc
      · exact hblank hc
      · exact notMem_intercalate hblank hrest hc

theorem newline_notMem_line {f : LineFormat} (hf : f.SingleLine) (r : Rule) :
    '\n' ∉ f.line r :=
  notMem_intercalate (by decide) (newline_notMem_words hf r)

theorem toList_document (f : LineFormat) (rules : List Rule) :
    (f.document rules).toList = ['\n'].intercalate (rules.map f.line ++ [[]]) := by
  rw [document, String.toList_join]
  induction rules with
  | nil => rfl
  | cons r rules ih =>
      rw [List.map_cons, List.flatMap_cons, ih, List.map_cons, List.cons_append,
        List.intercalate_cons_of_ne_nil (by simp), String.toList_ofList, List.append_assoc]

/-- **A document has one line for each rule, in order.** -/
theorem splitOn_document {f : LineFormat} (hf : f.SingleLine) (rules : List Rule) :
    (f.document rules).toList.splitOn '\n' = rules.map f.line ++ [[]] := by
  rw [toList_document]
  refine List.splitOn_intercalate _ ?_ (by simp)
  simpa [or_imp, forall_and] using fun r _ => newline_notMem_line hf r

end TernaryRules.LineFormat
