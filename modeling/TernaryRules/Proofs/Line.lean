import TernaryRules.Proofs.Document
import TernaryRules.Proofs.Outcome
import TernaryRules.Proofs.Sink

/-!
# Rule lines are read back

A reader that knows the free words of a format finds the values and masks, the class and the
priority of a rule in its line (`LineFormat.decode_line`).  The free words may have blanks in them
and may look like other parts of a line, so the reader skips those in front by their length; what is
behind them falls apart at the blanks, and the values and masks end at a word that none of them can
be (`LineFormat.splitOn_drop_line`).

A buffer to which all rules were written is read back line by line (`LineFormat.readback`).
-/

namespace TernaryRules

/-! ### Numerals of any base -/

namespace Numeral

/-- A number with one more digit. -/
def push? (base n : Nat) (c : Char) : Option Nat :=
  (digit? c).bind fun d => if d < base then some (base * n + d) else none

/-- The number a numeral stands for, if it is one. -/
def read? (base : Nat) : List Char → Option Nat
  | [] => none
  | ds => ds.foldlM (push? base) 0

theorem foldlM_digit {base d : Nat} (hle : base ≤ 16) (hd : d < base) (n : Nat) :
    [digit d].foldlM (push? base) n = some (base * n + d) := by
  rw [List.foldlM_cons, push?, digit?_digit (Nat.lt_of_lt_of_le hd hle), Option.bind_some,
    if_pos hd]
  rfl

theorem foldlM_write {base : Nat} (hbase : 2 ≤ base) (hle : base ≤ 16) (n : Nat) :
    (write base n).foldlM (push? base) 0 = some n := by
  induction n using Nat.strongRecOn with
  | ind n ih =>
      rw [write]
      split
      · have hsmaller : n / base < n := Nat.div_lt_self (by omega) hbase
        have hdigit : n % base < base := Nat.mod_lt n (by omega)
        rw [List.foldlM_append, ih _ hsmaller, Option.bind_eq_bind, Option.bind_some,
          foldlM_digit hle hdigit, Nat.div_add_mod]
      · have hdigit : n < base := by omega
        rw [foldlM_digit hle hdigit, Nat.mul_zero, Nat.zero_add]

theorem write_ne_nil (base n : Nat) : write base n ≠ [] := by
  rw [write]
  split <;> simp

theorem read?_write {base : Nat} (hbase : 2 ≤ base) (hle : base ≤ 16) (n : Nat) :
    read? base (write base n) = some n := by
  obtain ⟨c, ds, hds⟩ := List.exists_cons_of_ne_nil (write_ne_nil base n)
  have hfold := foldlM_write hbase hle n
  rw [hds] at hfold ⊢
  exact hfold

theorem read?_decimal (n : Nat) : read? 10 (decimal n) = some n :=
  read?_write (by decide) (by decide) n

theorem notMem_write {base : Nat} (hbase : 2 ≤ base) (hle : base ≤ 16) {c : Char}
    (hc : digit? c = none) (n : Nat) : c ∉ write base n := by
  intro h
  obtain ⟨d, hd, rfl⟩ := exists_digit_of_mem_write hbase h
  rw [digit?_digit (Nat.lt_of_lt_of_le hd hle)] at hc
  cases hc

end Numeral

/-- What a table has to know of a rule. -/
structure Entry where
  valueMasks : List (Nat × Nat)
  label : Label
  priority : Nat
deriving DecidableEq

def Rule.entry (r : Rule) : Entry := ⟨r.valueMasks, r.label, r.priority⟩

namespace LineFormat

/-! ### A reader for lines -/

/-- The words in front of the values and masks. -/
def opening : LineFormat → List (List Char)
  | tableAdd table action => ["table_add".toList, table.toList, action.toList]
  | matchEntry _ _ => ["match".toList]

/-- The word behind the values and masks. -/
def stop : LineFormat → List Char
  | tableAdd _ _ => ['=', '>']
  | matchEntry _ _ => "priority".toList

/-- Reads a value and a mask. -/
def valueMask? : LineFormat → List Char → Option (Nat × Nat)
  | tableAdd _ _, word =>
      match word.splitOn '-' with
      | [value, '>' :: mask] => do return (← Numeral.read? 10 value, ← Numeral.read? 10 mask)
      | _ => none
  | matchEntry _ _, word =>
      match word.splitOn '/' with
      | ['0' :: 'x' :: value, '0' :: 'x' :: mask] => do
          return (← Numeral.read? 16 value, ← Numeral.read? 16 mask)
      | _ => none

/-- The numerals of the class and the priority, out of the words behind the one that ends the values
and masks. -/
def numerals? : LineFormat → List (List Char) → Option (List Char × List Char)
  | tableAdd _ _, [label, priority] => some (label, priority)
  | matchEntry _ _, priority :: rest => rest.getLast?.map (·, priority)
  | _, _ => none

/-- Reads the words of a line that tell something of the rule. -/
def entryOf? (f : LineFormat) (keys : List (List Char)) (label priority : List Char) :
    Option Entry := do
  let valueMasks ← keys.mapM f.valueMask?
  let label ← Numeral.read? 10 label
  let priority ← Numeral.read? 10 priority
  return ⟨valueMasks, label.toUInt32, priority⟩

/-- Reads the line of a rule. -/
def decode (f : LineFormat) (line : List Char) : Option Entry :=
  let words := (line.drop ([' '].intercalate f.opening ++ [' ']).length).splitOn ' '
  (f.numerals? (words.dropWhile (· != f.stop)).tail).bind fun (label, priority) =>
    f.entryOf? (words.takeWhile (· != f.stop)) label priority

/-- Reads a document line by line. -/
def decodeDocument (f : LineFormat) (text : List Char) : Option (List Entry) :=
  (text.splitOn '\n').dropLast.mapM f.decode

/-- Reads a buffer as a document. -/
def decodeBytes (f : LineFormat) (bytes : Array UInt8) : Option (List Entry) :=
  (String.fromUTF8? ⟨bytes⟩).bind fun text => f.decodeDocument text.toList

/-! ### The words of a line -/

/-- The word of a value and a mask. -/
def key : LineFormat → Nat × Nat → List Char
  | tableAdd _ _, (value, mask) => Numeral.decimal value ++ '-' :: '>' :: Numeral.decimal mask
  | matchEntry _ _, (value, mask) => Numeral.hex value ++ '/' :: Numeral.hex mask

/-- The words behind the one that ends the values and masks. -/
def closing : LineFormat → Entry → List (List Char)
  | tableAdd _ _, e => [Numeral.decimal e.label.toNat, Numeral.decimal e.priority]
  | matchEntry action param, e =>
      [Numeral.decimal e.priority, "action".toList, action.toList, param.toList,
        Numeral.decimal e.label.toNat]

theorem words_eq (f : LineFormat) (r : Rule) :
    f.words r = f.opening ++ (r.valueMasks.map f.key ++ f.stop :: f.closing r.entry) := by
  rw [Rule.valueMasks, List.map_map]
  cases f with
  | tableAdd table action => exact List.append_assoc _ _ _
  | matchEntry action param => exact List.append_assoc _ _ _

/-- A line tells nothing else of its rule. -/
theorem line_congr {f : LineFormat} {r r' : Rule} (h : r.entry = r'.entry) :
    f.line r = f.line r' := by
  have hpairs : r.valueMasks = r'.valueMasks := congrArg Entry.valueMasks h
  rw [line, line, words_eq, words_eq, hpairs, h]

theorem intercalate_append (blank : Char) {words : List (List Char)} (hne : words ≠ []) :
    ∀ {front : List (List Char)}, front ≠ [] →
      [blank].intercalate (front ++ words) =
        [blank].intercalate front ++ [blank] ++ [blank].intercalate words
  | [word], _ => by
      rw [List.singleton_append, List.intercalate_cons_of_ne_nil hne, List.intercalate_singleton]
  | word :: next :: rest, _ => by
      rw [List.cons_append, List.intercalate_cons_of_ne_nil (by simp),
        intercalate_append blank hne (List.cons_ne_nil next rest), List.intercalate_cons_cons]
      simp only [List.append_assoc]

/-! ### Cutting a line at its blanks -/

theorem splitOn_pair {c : Char} {a b : List Char} (ha : c ∉ a) (hb : c ∉ b) :
    (a ++ c :: b).splitOn c = [a, b] := by
  rw [List.splitOn_append_cons_self, List.splitOn_eq_singleton ha, List.splitOn_eq_singleton hb]
  rfl

theorem flatMap_splitOn {c : Char} {words : List (List Char)} (h : ∀ word ∈ words, c ∉ word) :
    words.flatMap (·.splitOn c) = words := by
  induction words with
  | nil => rfl
  | cons word words ih =>
      obtain ⟨hword, hwords⟩ := List.forall_mem_cons.1 h
      rw [List.flatMap_cons, List.splitOn_eq_singleton hword, ih hwords]
      rfl

theorem splitOn_intercalate_eq (blank : Char) : ∀ {words : List (List Char)}, words ≠ [] →
    ([blank].intercalate words).splitOn blank = words.flatMap (·.splitOn blank)
  | [word], _ => by simp
  | word :: next :: rest, _ => by
      rw [List.intercalate_cons_cons, List.append_assoc, List.singleton_append,
        List.splitOn_append_cons_self, splitOn_intercalate_eq blank (List.cons_ne_nil _ _)]
      rfl

theorem opening_ne_nil (f : LineFormat) : f.opening ≠ [] := by
  cases f <;> exact List.cons_ne_nil _ _

/-- The signs that separate a value from its mask, and blanks, are no digits. -/
theorem notMem_decimal {c : Char} (hc : Numeral.digit? c = none) (n : Nat) :
    c ∉ Numeral.decimal n :=
  Numeral.notMem_write (by decide) (by decide) hc n

theorem notMem_hex {c : Char} (hc : Numeral.digit? c = none) (hx : c ≠ 'x') (n : Nat) :
    c ∉ Numeral.hex n := by
  have hzero : c ≠ '0' := by
    rintro rfl
    exact absurd hc (by decide)
  exact List.not_mem_cons_of_ne_of_not_mem hzero (List.not_mem_cons_of_ne_of_not_mem hx
    (Numeral.notMem_write (by decide) (by decide) hc n))

theorem blank_notMem_key (f : LineFormat) (pair : Nat × Nat) : ' ' ∉ f.key pair := by
  have hten := fun n => notMem_decimal (by decide : Numeral.digit? ' ' = none) n
  have hsixteen := fun n => notMem_hex (by decide : Numeral.digit? ' ' = none) (by decide) n
  cases f with
  | tableAdd table action => simp [key, hten]
  | matchEntry action param => simp [key, hsixteen]

/-- The word that ends the values and masks has no blank in it, and no sign that separates a value
from its mask. -/
theorem notMem_stop (f : LineFormat) : ' ' ∉ f.stop ∧ '-' ∉ f.stop ∧ '/' ∉ f.stop := by
  cases f with
  | tableAdd table action =>
      exact (by decide : ' ' ∉ ['=', '>'] ∧ '-' ∉ ['=', '>'] ∧ '/' ∉ ['=', '>'])
  | matchEntry action param =>
      exact (by decide : ' ' ∉ "priority".toList ∧ '-' ∉ "priority".toList ∧
        '/' ∉ "priority".toList)

theorem key_ne_stop (f : LineFormat) (pair : Nat × Nat) : f.key pair ≠ f.stop := by
  obtain ⟨-, hdash, hslash⟩ := f.notMem_stop
  cases f with
  | tableAdd table action =>
      have hmem : '-' ∈ (tableAdd table action).key pair := by simp [key]
      exact fun h => hdash (h ▸ hmem)
  | matchEntry action param =>
      have hmem : '/' ∈ (matchEntry action param).key pair := by simp [key]
      exact fun h => hslash (h ▸ hmem)

/-- The words of a line behind its opening, with the free words cut at their blanks. -/
theorem splitOn_drop_line (f : LineFormat) (r : Rule) :
    ((f.line r).drop ([' '].intercalate f.opening ++ [' ']).length).splitOn ' ' =
      r.valueMasks.map f.key ++ f.stop :: (f.closing r.entry).flatMap (·.splitOn ' ') := by
  have hne : r.valueMasks.map f.key ++ f.stop :: f.closing r.entry ≠ [] := by simp
  have hkeys : ∀ word ∈ r.valueMasks.map f.key, ' ' ∉ word := by
    intro word hword
    obtain ⟨pair, -, rfl⟩ := List.mem_map.1 hword
    exact f.blank_notMem_key pair
  rw [line, words_eq, intercalate_append ' ' hne f.opening_ne_nil, List.drop_left,
    splitOn_intercalate_eq ' ' hne, List.flatMap_append, flatMap_splitOn hkeys, List.flatMap_cons,
    List.splitOn_eq_singleton f.notMem_stop.1, List.singleton_append]

/-! ### The reader and the line -/

theorem valueMask?_key (f : LineFormat) (value mask : Nat) :
    f.valueMask? (f.key (value, mask)) = some (value, mask) := by
  cases f with
  | tableAdd table action =>
      have hdash : ∀ n, '-' ∉ Numeral.decimal n := notMem_decimal (by decide)
      have hsplit : (Numeral.decimal value ++ '-' :: '>' :: Numeral.decimal mask).splitOn '-' =
          [Numeral.decimal value, '>' :: Numeral.decimal mask] :=
        splitOn_pair (hdash _) (List.not_mem_cons_of_ne_of_not_mem (by decide) (hdash _))
      rw [valueMask?, key, hsplit]
      simp only [Numeral.read?_decimal]
      rfl
  | matchEntry action param =>
      have hslash : ∀ n, '/' ∉ Numeral.hex n := notMem_hex (by decide) (by decide)
      have hsplit : (Numeral.hex value ++ '/' :: Numeral.hex mask).splitOn '/' =
          [Numeral.hex value, Numeral.hex mask] := splitOn_pair (hslash _) (hslash _)
      rw [valueMask?, key, hsplit]
      simp only [Numeral.hex, Numeral.read?_write (by decide : 2 ≤ 16) (by decide : 16 ≤ 16)]
      rfl

theorem entryOf?_keys (f : LineFormat) (e : Entry) :
    f.entryOf? (e.valueMasks.map f.key) (Numeral.decimal e.label.toNat)
      (Numeral.decimal e.priority) = some e := by
  have hkeys : ∀ pair ∈ e.valueMasks, (f.valueMask? ∘ f.key) pair = some (id pair) :=
    fun (value, mask) _ => f.valueMask?_key value mask
  rw [entryOf?, List.mapM_map, mapM_eq_some_map hkeys, List.map_id, Numeral.read?_decimal,
    Numeral.read?_decimal]
  simp

theorem numerals?_closing (f : LineFormat) (e : Entry) :
    f.numerals? ((f.closing e).flatMap (·.splitOn ' ')) =
      some (Numeral.decimal e.label.toNat, Numeral.decimal e.priority) := by
  have hblank : ∀ n, (Numeral.decimal n).splitOn ' ' = [Numeral.decimal n] := fun n =>
    List.splitOn_eq_singleton (notMem_decimal (by decide) n)
  cases f with
  | tableAdd table action =>
      simp only [closing, List.flatMap_cons, List.flatMap_nil, hblank]
      rfl
  | matchEntry action param =>
      simp only [closing, List.flatMap_cons, List.flatMap_nil, hblank, List.append_nil,
        List.singleton_append, numerals?]
      simp only [← List.append_assoc, List.getLast?_concat, Option.map_some]

/-- **The line of a rule is read back.** -/
theorem decode_line (f : LineFormat) (r : Rule) : f.decode (f.line r) = some r.entry := by
  have hkeys : ∀ word ∈ r.valueMasks.map f.key, (word != f.stop) = true := by
    intro word hword
    obtain ⟨pair, -, rfl⟩ := List.mem_map.1 hword
    exact bne_iff_ne.2 (f.key_ne_stop pair)
  rw [decode, splitOn_drop_line]
  dsimp only
  rw [List.takeWhile_append_of_pos hkeys, List.dropWhile_append_of_pos hkeys,
    List.takeWhile_cons_of_neg (by simp), List.dropWhile_cons_of_neg (by simp), List.append_nil,
    List.tail_cons, numerals?_closing, Option.bind_some]
  exact f.entryOf?_keys r.entry

/-- Free words that look like a value, a mask and the end of the keys. -/
example :
    (tableAdd "t 1->2 => 3" "a").decode "table_add t 1->2 => 3 a 4->12 => 1 7".toList =
      some ⟨[(4, 12)], 1, 7⟩ := by
  decide

/-! ### Documents and buffers -/

/-- **The document of rules is read back**, a rule from each line. -/
theorem decodeDocument_document {f : LineFormat} (hf : f.SingleLine) (rules : List Rule) :
    f.decodeDocument (f.document rules).toList = some (rules.map Rule.entry) := by
  rw [decodeDocument, splitOn_document hf, List.dropLast_concat, List.mapM_map]
  exact mapM_eq_some_map fun r _ => f.decode_line r

theorem utf8_document (f : LineFormat) (rules : List Rule) :
    LineSink.utf8 (f.document rules).toList = rules.flatMap (LineSink.lineBytes f) := by
  rw [document, String.toList_join, LineSink.utf8, List.flatMap_map, List.flatMap_assoc]
  simp only [String.toList_ofList]
  rfl

theorem fromUTF8?_utf8 (text : String) :
    String.fromUTF8? ⟨(LineSink.utf8 text.toList).toArray⟩ = some text := by
  have hbytes : (⟨(LineSink.utf8 text.toList).toArray⟩ : ByteArray) = text.toByteArray := by
    rw [← String.utf8Encode_toList, List.utf8Encode, ← List.data_toByteArray]
    rfl
  rw [hbytes, String.fromUTF8?, dif_pos text.isValidUTF8]
  rfl

/-- **Nothing is lost in a line or in a document.**  The values and masks, the class and the
priority of a rule are read back from its line, so two rules have the same line only if they agree
in these.  If the free words have no end of line in them, a buffer to which rules were written is
read back to all of them, in order, and a buffer without a capacity takes any rules. -/
theorem readback (f : LineFormat) :
    (∀ r, f.decode (f.line r) = some r.entry) ∧
    (∀ r r' : Rule, f.line r = f.line r' ↔
      r.valueMasks = r'.valueMasks ∧ r.label = r'.label ∧ r.priority = r'.priority) ∧
    (f.SingleLine → ∀ capacity rules s n,
      (LineSink.ofFormat f capacity).emitAll rules = (s, .ok n) →
        f.decodeBytes s.bytes = some (rules.map Rule.entry)) ∧
    ∀ rules, ∃ s, (LineSink.ofFormat f none).emitAll rules = (s, .ok rules.length) := by
  refine ⟨f.decode_line, fun r r' => ?_, fun hf capacity rules s n h => ?_, fun rules => ?_⟩
  · rw [← Entry.mk.injEq]
    constructor
    · intro hline
      have hentry := f.decode_line r
      rw [hline, f.decode_line r'] at hentry
      exact (Option.some.inj hentry).symm
    · exact line_congr
  · have hbytes := LineSink.toList_emitAll h
    have harray : s.bytes = (LineSink.utf8 (f.document rules).toList).toArray := by
      rw [utf8_document]
      exact Array.toList_inj.1 hbytes
    rw [decodeBytes, harray, fromUTF8?_utf8, Option.bind_some]
    exact decodeDocument_document hf rules
  · exact LineSink.emitAll_of_unbounded rfl rules

/-- A table whose name looks like the keys and the end of a line. -/
def decoy : LineFormat := tableAdd "t 1->2 => 3" "act"

/-- A rule for the four values from 4 of a feature of six bits. -/
def quartet : Rule :=
  ⟨[⟨⟨6, by decide, by decide⟩, 4, 2, by decide, by decide, by decide⟩], 1, 7⟩

theorem readback_decoy :
    ∃ s, (LineSink.ofFormat decoy none).emitAll [quartet] = (s, .ok 1) ∧
      decoy.decodeBytes s.bytes = some [⟨[(4, 60)], 1, 7⟩] := by
  obtain ⟨-, -, hbytes, htakes⟩ := readback decoy
  obtain ⟨s, hs⟩ := htakes [quartet]
  have hline : decoy.SingleLine := by
    unfold SingleLine
    decide
  exact ⟨s, hs, hbytes hline none [quartet] s 1 hs⟩

end LineFormat

end TernaryRules
