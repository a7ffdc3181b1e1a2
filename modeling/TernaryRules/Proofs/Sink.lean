import Mathlib.Data.List.Basic
import TernaryRules.Proofs.Outcome
import TernaryRules.Rule.Sink

/-!
# Sinks with a capacity

A chunk of bytes is written by one write of what there is room for and, if that is not all of it, a
second one that keeps nothing (`LineSink.writeAll_eq`).  So it does not matter where a text is cut
into chunks (`LineSink.writeAll_append`), and a rule is written whole exactly when there is room for
its line and the end of it (`LineSink.emit_eq`).

A sink is called to write rules, one or several, and to finish, in any order.  After any calls the
buffer has the whole lines of the rules that were tried up to the first that failed, and then the
part of that one which filled it (`LineSink.Account`); each call keeps this up (`Account.perform`).
A buffer that is full stays as it is (`LineSink.Full.emit`), for no line is empty.
-/

namespace TernaryRules.LineSink

/-! ### Writes -/

/-- The sink with more bytes in its buffer. -/
def push (s : LineSink) (chunk : List UInt8) : LineSink :=
  { s with bytes := s.bytes ++ chunk.toArray }

/-- The part of a chunk there is room for. -/
def kept (s : LineSink) (chunk : List UInt8) : List UInt8 := chunk.take (s.room chunk.length)

/-- There is room for all of a chunk. -/
def Fits (s : LineSink) (chunk : List UInt8) : Prop := s.room chunk.length = chunk.length

instance (s : LineSink) (chunk : List UInt8) : Decidable (s.Fits chunk) :=
  inferInstanceAs (Decidable (_ = _))

theorem push_nil (s : LineSink) : s.push [] = s := by
  simp [push]

theorem push_push (s : LineSink) (a b : List UInt8) : (s.push a).push b = s.push (a ++ b) := by
  simp [push]

theorem toList_push (s : LineSink) (chunk : List UInt8) :
    (s.push chunk).bytes.toList = s.bytes.toList ++ chunk := by
  simp [push]

theorem size_push (s : LineSink) (chunk : List UInt8) :
    (s.push chunk).bytes.size = s.bytes.size + chunk.length := by
  simp [push]

theorem room_push (s : LineSink) (chunk : List UInt8) (n : Nat) :
    (s.push chunk).room n =
      match s.capacity with
      | none => n
      | some capacity => min n (capacity - (s.bytes.size + chunk.length)) := by
  rw [room, size_push]
  rfl

theorem room_le (s : LineSink) (n : Nat) : s.room n ≤ n := by
  unfold room
  split <;> omega

theorem fits_iff {s : LineSink} {capacity : Nat} (hc : s.capacity = some capacity)
    (hs : s.bytes.size ≤ capacity) {chunk : List UInt8} :
    s.Fits chunk ↔ s.bytes.size + chunk.length ≤ capacity := by
  rw [Fits, room, hc]
  dsimp only
  omega

theorem kept_of_fits {s : LineSink} {chunk : List UInt8} (h : s.Fits chunk) :
    s.kept chunk = chunk := by
  rw [kept, h, List.take_length]

theorem length_kept (s : LineSink) (chunk : List UInt8) :
    (s.kept chunk).length = s.room chunk.length := by
  rw [kept, List.length_take, Nat.min_eq_left (s.room_le _)]

/-- A sink that has kept less than all of a chunk has no room for anything else. -/
theorem room_push_kept {s : LineSink} {chunk : List UInt8} (h : ¬ s.Fits chunk) (n : Nat) :
    (s.push (s.kept chunk)).room n = 0 := by
  rw [room_push, length_kept]
  unfold Fits room at *
  cases hc : s.capacity with
  | none => exact absurd (by rw [hc]) h
  | some capacity =>
      rw [hc] at h
      dsimp only at h ⊢
      omega

theorem writeAll_nil (s : LineSink) : s.writeAll [] = (s, .ok ()) := by
  rw [writeAll]

theorem writeAll_of_room_eq_zero {s : LineSink} {chunk : List UInt8} (hne : chunk ≠ [])
    (h : s.room chunk.length = 0) : s.writeAll chunk = (s, .error .bufferFull) := by
  obtain ⟨byte, rest, rfl⟩ := List.exists_cons_of_ne_nil hne
  rw [writeAll, write, h]
  exact congrArg (·, _) s.push_nil

/-- **A chunk is kept as far as there is room for it**, and written if that is all of it. -/
theorem writeAll_eq (s : LineSink) (chunk : List UInt8) :
    s.writeAll chunk =
      (s.push (s.kept chunk), if s.Fits chunk then .ok () else .error .bufferFull) := by
  cases chunk with
  | nil =>
      have hfits : s.Fits [] := Nat.le_zero.1 (s.room_le 0)
      rw [writeAll_nil, kept_of_fits hfits, push_nil, if_pos hfits]
  | cons byte chunk =>
      cases hroom : s.room (byte :: chunk).length with
      | zero =>
          have hfits : ¬ s.Fits (byte :: chunk) := by
            rw [Fits, hroom]
            exact nofun
          rw [writeAll_of_room_eq_zero (by simp) hroom, kept, hroom, List.take_zero, push_nil,
            if_neg hfits]
      | succ n =>
          have hwrite : s.writeAll (byte :: chunk) =
              (s.push (s.kept (byte :: chunk))).writeAll (chunk.drop n) := by
            rw [writeAll, write, kept, hroom]
            rfl
          rw [hwrite]
          by_cases hfits : s.Fits (byte :: chunk)
          · have hlength : n = chunk.length := Nat.succ.inj (hroom.symm.trans hfits)
            rw [hlength, List.drop_length, writeAll_nil, if_pos hfits]
          · -- the rest of the chunk finds the buffer full
            have hrest : chunk.drop n ≠ [] := by
              have hle := s.room_le (byte :: chunk).length
              unfold Fits at hfits
              rw [hroom, List.length_cons] at hle hfits
              rw [ne_eq, List.drop_eq_nil_iff]
              omega
            rw [if_neg hfits, writeAll_of_room_eq_zero hrest (room_push_kept hfits _)]

/-- What there is room for can be found in two steps. -/
theorem room_add {s : LineSink} {chunk : List UInt8} (h : s.Fits chunk) (n : Nat) :
    s.room (chunk.length + n) = chunk.length + (s.push chunk).room n := by
  rw [room_push]
  unfold Fits room at *
  cases hc : s.capacity with
  | none => rfl
  | some capacity =>
      rw [hc] at h
      dsimp only at h ⊢
      omega

theorem room_add_of_not_fits {s : LineSink} {chunk : List UInt8} (h : ¬ s.Fits chunk) (n : Nat) :
    s.room (chunk.length + n) = s.room chunk.length := by
  unfold Fits room at *
  cases hc : s.capacity with
  | none => exact absurd (by rw [hc]) h
  | some capacity =>
      rw [hc] at h
      dsimp only at h ⊢
      omega

/-- **A chunk may be cut anywhere**: its parts are written one after the other. -/
theorem writeAll_append (s : LineSink) (a b : List UInt8) :
    s.writeAll (a ++ b) =
      match s.writeAll a with
      | (s, .ok ()) => s.writeAll b
      | (s, .error e) => (s, .error e) := by
  rw [writeAll_eq s a]
  by_cases ha : s.Fits a
  · have hroom := room_add ha b.length
    have hfits : s.Fits (a ++ b) ↔ (s.push a).Fits b := by
      rw [Fits, List.length_append, hroom, Nat.add_left_cancel_iff, Fits]
    rw [if_pos ha, kept_of_fits ha]
    dsimp only
    rw [writeAll_eq, writeAll_eq, push_push, kept, List.length_append, hroom,
      List.take_length_add_append, kept]
    simp only [hfits]
  · have hroom := room_add_of_not_fits ha b.length
    have hle := s.room_le a.length
    have hfits : ¬ s.Fits (a ++ b) := by
      unfold Fits at *
      rw [List.length_append, hroom]
      omega
    rw [if_neg ha, writeAll_eq, if_neg hfits, kept, List.length_append, hroom,
      List.take_append_of_le_length hle, kept]

/-- The bytes of the line of a rule with its end. -/
def lineBytes (f : LineFormat) (r : Rule) : List UInt8 := utf8 (f.line r ++ ['\n'])

theorem lineBytes_eq (f : LineFormat) (r : Rule) :
    lineBytes f r = utf8 (f.line r) ++ utf8 ['\n'] :=
  List.flatMap_append

theorem lineBytes_ne_nil (f : LineFormat) (r : Rule) : lineBytes f r ≠ [] := by
  rw [lineBytes_eq]
  exact List.append_ne_nil_of_right_ne_nil _ (by decide)

/-- The sink with one more rule counted as written. -/
def count (s : LineSink) : LineSink := { s with written := s.written + 1 }

/-- **A rule is written whole exactly when there is room for its line and the end of it.** -/
theorem emit_eq (s : LineSink) (r : Rule) :
    s.emit r =
      if s.Fits (lineBytes s.format r) then ((s.push (lineBytes s.format r)).count, .ok ())
      else (s.push (s.kept (lineBytes s.format r)), .error .bufferFull) := by
  have hemit : s.emit r =
      match s.writeAll (lineBytes s.format r) with
      | (s, .ok ()) => (s.count, .ok ())
      | (s, .error e) => (s, .error e) := by
    rw [lineBytes_eq, writeAll_append, emit]
    rcases s.writeAll (utf8 (s.format.line r)) with ⟨s', ⟨e⟩ | ⟨⟨⟩⟩⟩
    · rfl
    · dsimp only
      rcases s'.writeAll (utf8 ['\n']) with ⟨s'', ⟨e⟩ | ⟨⟨⟩⟩⟩
      · rfl
      · rfl
  rw [hemit, writeAll_eq]
  by_cases h : s.Fits (lineBytes s.format r)
  · rw [if_pos h, if_pos h, kept_of_fits h]
  · rw [if_neg h, if_neg h]

theorem count_push_bytes (s : LineSink) (chunk : List UInt8) :
    (s.push chunk).count.bytes = (s.push chunk).bytes := rfl

/-! ### Calls -/

/-- What a sink can be called to do. -/
inductive Call where
  | emit (r : Rule)
  | emitAll (rules : List Rule)
  | finish

/-- A rule that a sink was to write, and what came of it. -/
structure Attempt where
  rule : Rule
  outcome : Except SinkError Unit

/-- The rules of a list that are tried: those before the first that fails, and that one. -/
def tries (s : LineSink) : List Rule → List Attempt
  | [] => []
  | r :: rest =>
      match s.emit r with
      | (s, .ok ()) => ⟨r, .ok ()⟩ :: s.tries rest
      | (_, .error e) => [⟨r, .error e⟩]

/-- The sink after a call, and the rules that were tried in it. -/
def perform (s : LineSink) : Call → LineSink × List Attempt
  | .emit r => ((s.emit r).1, [⟨r, (s.emit r).2⟩])
  | .emitAll rules => ((s.emitAll rules).1, s.tries rules)
  | .finish => (s.finish.1, [])

/-- The sink after several calls. -/
def after (s : LineSink) : List Call → LineSink
  | [] => s
  | c :: calls => (s.perform c).1.after calls

/-- The rules that were tried in several calls. -/
def attempts (s : LineSink) : List Call → List Attempt
  | [] => []
  | c :: calls => (s.perform c).2 ++ (s.perform c).1.attempts calls

theorem emitAll_cons (s : LineSink) (r : Rule) (rules : List Rule) :
    s.emitAll (r :: rules) =
      match s.emit r with
      | (s, .ok ()) => ((s.emitAll rules).1, (s.emitAll rules).2.map (· + 1))
      | (s, .error e) => (s, .error e) := by
  rw [emitAll, emitEach]
  rcases s.emit r with ⟨s', ⟨e⟩ | ⟨⟨⟩⟩⟩
  · rfl
  · dsimp only
    rw [emitAll]
    rcases s'.emitEach rules with ⟨s'', ⟨e⟩ | ⟨⟨⟩⟩⟩
    · rfl
    · rfl

/-- Behind what was in the buffer stand the lines of the rules, if all of them were written. -/
theorem toList_emitAll {s s' : LineSink} {rules : List Rule} {n : Nat}
    (h : s.emitAll rules = (s', .ok n)) :
    s'.bytes.toList = s.bytes.toList ++ rules.flatMap (lineBytes s.format) := by
  induction rules generalizing s s' n with
  | nil =>
      obtain rfl : s.finish.1 = s' := congrArg Prod.fst h
      exact (List.append_nil _).symm
  | cons r rules ih =>
      rw [emitAll_cons, emit_eq] at h
      by_cases hfits : s.Fits (lineBytes s.format r)
      · rw [if_pos hfits] at h
        obtain ⟨hsink, hresult⟩ := Prod.ext_iff.1 h
        obtain ⟨m, hm, -⟩ := map_eq_ok.1 hresult
        have hafter : (s.push (lineBytes s.format r)).count.emitAll rules = (s', .ok m) :=
          Prod.ext hsink hm
        have hrest := ih hafter
        rw [count_push_bytes, toList_push, List.append_assoc] at hrest
        exact hrest
      · rw [if_neg hfits] at h
        cases h

/-- A buffer without a capacity takes all rules. -/
theorem emitAll_of_unbounded {s : LineSink} (hs : s.capacity = none) (rules : List Rule) :
    ∃ s', s.emitAll rules = (s', .ok rules.length) := by
  induction rules generalizing s with
  | nil => exact ⟨_, rfl⟩
  | cons r rules ih =>
      have hfits : s.Fits (lineBytes s.format r) := by
        rw [Fits, room, hs]
      obtain ⟨s', hs'⟩ := @ih ((s.push (lineBytes s.format r)).count) hs
      refine ⟨s', ?_⟩
      rw [emitAll_cons, emit_eq, if_pos hfits]
      dsimp only
      rw [hs']
      rfl

/-- There is no room for anything. -/
def Full (s : LineSink) : Prop := s.capacity = some s.bytes.size

namespace Full

variable {s : LineSink}

theorem room_eq_zero (h : s.Full) (n : Nat) : s.room n = 0 := by
  rw [room, h]
  simp

/-- **A full buffer stays as it is**, for a line has at least its end. -/
theorem emit (h : s.Full) (r : Rule) : s.emit r = (s, .error .bufferFull) := by
  have hfits : ¬ s.Fits (lineBytes s.format r) := by
    rw [Fits, h.room_eq_zero]
    exact fun hlength => lineBytes_ne_nil _ _ (List.length_eq_zero_iff.1 hlength.symm)
  rw [emit_eq, if_neg hfits, kept, h.room_eq_zero, List.take_zero, push_nil]

theorem finish (h : s.Full) : s.finish.1.Full := h

theorem perform (h : s.Full) (c : Call) :
    (s.perform c).1 ∈ [s, s.finish.1] ∧ ∀ a ∈ (s.perform c).2, a.outcome = .error .bufferFull := by
  cases c with
  | emit r =>
      rw [LineSink.perform, h.emit]
      simp
  | emitAll rules =>
      cases rules with
      | nil => exact ⟨by simp [LineSink.perform, LineSink.emitAll, emitEach], nofun⟩
      | cons r rules =>
          rw [LineSink.perform, emitAll_cons, tries, h.emit]
          simp
  | finish => exact ⟨by simp [LineSink.perform], nofun⟩

/-- Nothing that a sink is called to do changes a full buffer. -/
theorem after (h : s.Full) (calls : List Call) :
    (s.after calls).bytes = s.bytes ∧ (s.after calls).written = s.written ∧
      ∀ a ∈ s.attempts calls, a.outcome = .error .bufferFull := by
  induction calls generalizing s with
  | nil => exact ⟨rfl, rfl, nofun⟩
  | cons c calls ih =>
      obtain ⟨hsink, hfail⟩ := h.perform c
      have hnext : (s.perform c).1.Full ∧ (s.perform c).1.bytes = s.bytes ∧
          (s.perform c).1.written = s.written := by
        rcases List.mem_pair.1 hsink with hs | hs
        · rw [hs]
          exact ⟨h, rfl, rfl⟩
        · rw [hs]
          exact ⟨h.finish, rfl, rfl⟩
      obtain ⟨hfull, hbytes, hwritten⟩ := hnext
      obtain ⟨hbytes', hwritten', hfail'⟩ := ih hfull
      refine ⟨hbytes'.trans hbytes, hwritten'.trans hwritten, fun a ha => ?_⟩
      rcases List.mem_append.1 ha with ha | ha
      · exact hfail a ha
      · exact hfail' a ha

end Full

/-! ### What is in the buffer -/

/-- The lines of the rules that were tried, each with its end. -/
def linesOf (f : LineFormat) (tried : List Attempt) : List UInt8 :=
  tried.flatMap fun a => lineBytes f a.rule

/-- The rules that were tried at a buffer of some capacity, and how it stands. -/
inductive Account (f : LineFormat) (capacity : Nat) : List Attempt → LineSink → Prop
  | whole {done : List Attempt} {s : LineSink} :
      s.format = f → s.capacity = some capacity → s.bytes.size ≤ capacity →
      (∀ a ∈ done, a.outcome = .ok ()) → s.written = done.length →
      s.bytes.toList = linesOf f done → Account f capacity done s
  | cut {done later : List Attempt} {r : Rule} {part : List UInt8} {s : LineSink} :
      s.format = f → s.Full → s.bytes.size = capacity →
      (∀ a ∈ done, a.outcome = .ok ()) → s.written = done.length →
      (∀ a ∈ later, a.outcome = .error .bufferFull) →
      part <+: lineBytes f r → part ≠ lineBytes f r →
      s.bytes.toList = linesOf f done ++ part →
      Account f capacity (done ++ ⟨r, .error .bufferFull⟩ :: later) s

namespace Account

variable {f : LineFormat} {capacity : Nat} {tried : List Attempt} {s : LineSink}

theorem start (f : LineFormat) (capacity : Nat) :
    Account f capacity [] (ofFormat f (some capacity)) :=
  .whole rfl rfl (Nat.zero_le _) nofun rfl rfl

/-- **One rule more.** -/
theorem emit (h : Account f capacity tried s) (r : Rule) :
    Account f capacity (tried ++ [⟨r, (s.emit r).2⟩]) (s.emit r).1 := by
  cases h with
  | whole hf hc hsize hok hwritten hbytes =>
      rw [emit_eq, hf]
      by_cases hfits : s.Fits (lineBytes f r)
      · rw [if_pos hfits]
        refine .whole hf hc ?_ ?_ ?_ ?_
        · rw [fits_iff hc hsize, ← size_push] at hfits
          exact hfits
        · simpa [or_imp, forall_and] using hok
        · simp [count, push, hwritten]
        · rw [count_push_bytes, toList_push, hbytes, linesOf, linesOf, List.flatMap_append,
            List.flatMap_singleton]
      · have hlength := length_kept s (lineBytes f r)
        have hroom : s.bytes.size + s.room (lineBytes f r).length = capacity := by
          rw [fits_iff hc hsize] at hfits
          rw [room, hc]
          dsimp only
          omega
        have hfull : (s.push (s.kept (lineBytes f r))).bytes.size = capacity := by
          rw [size_push, hlength, hroom]
        rw [if_neg hfits]
        have hpre : s.kept (lineBytes f r) <+: lineBytes f r := List.take_prefix _ _
        refine .cut hf ?_ hfull hok hwritten nofun hpre ?_ ?_
        · rw [Full, hfull]
          exact hc
        · intro hkept
          rw [hkept] at hlength
          exact hfits hlength.symm
        · rw [toList_push, hbytes]
  | cut hf hfull hsize hok hwritten hlater hpre hne hbytes =>
      rw [hfull.emit, List.append_assoc, List.cons_append]
      refine .cut hf hfull hsize hok hwritten ?_ hpre hne hbytes
      simpa [or_imp, forall_and] using hlater

theorem finish (h : Account f capacity tried s) : Account f capacity tried s.finish.1 := by
  cases h with
  | whole hf hc hsize hok hwritten hbytes => exact .whole hf hc hsize hok hwritten hbytes
  | cut hf hfull hsize hok hwritten hlater hpre hne hbytes =>
      exact .cut hf hfull hsize hok hwritten hlater hpre hne hbytes

theorem emitAll (h : Account f capacity tried s) (rules : List Rule) :
    Account f capacity (tried ++ s.tries rules) (s.emitAll rules).1 := by
  induction rules generalizing tried s with
  | nil => exact (List.append_nil tried).symm ▸ h.finish
  | cons r rules ih =>
      have hstep := h.emit r
      rw [emitAll_cons, tries]
      generalize s.emit r = step at hstep ⊢
      rcases step with ⟨s', ⟨e⟩ | ⟨⟨⟩⟩⟩
      · exact hstep
      · have hrest := ih hstep
        rw [List.append_assoc] at hrest
        exact hrest

/-- **One call more.** -/
theorem perform (h : Account f capacity tried s) (c : Call) :
    Account f capacity (tried ++ (s.perform c).2) (s.perform c).1 := by
  cases c with
  | emit r => exact h.emit r
  | emitAll rules => exact h.emitAll rules
  | finish => exact (List.append_nil tried).symm ▸ h.finish

/-- **Any calls more.** -/
theorem after (h : Account f capacity tried s) (calls : List Call) :
    Account f capacity (tried ++ s.attempts calls) (s.after calls) := by
  induction calls generalizing tried s with
  | nil => exact (List.append_nil tried).symm ▸ h
  | cons c calls ih =>
      rw [attempts, ← List.append_assoc]
      exact ih (h.perform c)

/-- The rules that were written are the first ones that were tried. -/
theorem ok_iff (h : Account f capacity tried s) {k : Nat} {a : Attempt} (ha : tried[k]? = some a) :
    a.outcome = .ok () ↔ k < s.written := by
  cases h with
  | whole _ _ _ hok hwritten =>
      obtain ⟨hk, -⟩ := List.getElem?_eq_some_iff.1 ha
      exact iff_of_true (hok a (List.mem_of_getElem? ha)) (hwritten ▸ hk)
  | @cut done later r _ _ _ _ _ hok hwritten hlater =>
      rw [hwritten]
      by_cases hk : k < done.length
      · rw [List.getElem?_append_left hk] at ha
        exact iff_of_true (hok a (List.mem_of_getElem? ha)) hk
      · rw [List.getElem?_append_right (Nat.le_of_not_lt hk)] at ha
        have hfail : ∀ a ∈ (⟨r, .error .bufferFull⟩ : Attempt) :: later,
            a.outcome = .error .bufferFull := List.forall_mem_cons.2 ⟨rfl, hlater⟩
        rw [hfail a (List.mem_of_getElem? ha)]
        exact iff_of_false nofun hk

theorem full (h : Account f capacity tried s) (hfail : ∃ a ∈ tried, a.outcome ≠ .ok ()) :
    s.Full := by
  cases h with
  | whole _ _ _ hok =>
      obtain ⟨a, ha, hne⟩ := hfail
      exact absurd (hok a ha) hne
  | cut _ hfull => exact hfull

end Account

end TernaryRules.LineSink
