import TernaryRules.Json.Reader

/-!
# What readers accept

`parse?` runs a reader on a text and forgets which fault it stops at: what is left is a value and
the rest of the text, or nothing.  It turns each step of a reader into a step on options
(`parse?_bind`), also the step that handles the fault of an item of a list, since a handled fault
stays one.

`Reads r text value` says what a reader makes of a text wherever that text stands: whatever follows
it, as long as it is one of the characters that close a value or part it from the next one, the
reader takes exactly the text off and gives the value, or accepts nothing if there is no value.
-/

namespace TernaryRules.Json.Reader

variable {α β : Type}

/-- The value that a reader takes off a text and the rest behind it, if there is no fault. -/
def parse? (r : Reader α) (cs : List Char) : Option (α × List Char) :=
  match ExceptT.run r cs with
  | (.ok a, rest) => some (a, rest)
  | (.error _, _) => none

theorem parse?_eq_some {r : Reader α} {cs rest : List Char} {a : α} :
    r.parse? cs = some (a, rest) ↔ ExceptT.run r cs = (.ok a, rest) := by
  unfold parse?
  rcases ExceptT.run r cs with ⟨e | b, rest'⟩
  · exact ⟨nofun, nofun⟩
  · constructor
    · rintro ⟨⟩
      rfl
    · rintro ⟨⟩
      rfl

theorem run_eq_ok_iff {r : Reader α} {s : String} {a : α} :
    r.run s = .ok a ↔ ∃ rest, parse? (whole r) s.toList = some (a, rest) := by
  simp only [parse?_eq_some]
  constructor
  · intro h
    exact ⟨_, Prod.ext h rfl⟩
  · rintro ⟨rest, h⟩
    rw [run, h]

/-! ### Steps -/

@[simp] theorem parse?_pure (a : α) (cs : List Char) : parse? (pure a) cs = some (a, cs) := rfl

@[simp] theorem parse?_throw (e : Fault) (cs : List Char) :
    parse? (throw e : Reader α) cs = none := rfl

/-- A step that is taken after another one, from the text left there. -/
theorem run_bind_eq (r : Reader α) (f : α → Reader β) (cs : List Char) :
    ExceptT.run (r >>= f) cs = ExceptT.bindCont f (ExceptT.run r cs).1 (ExceptT.run r cs).2 := rfl

@[simp] theorem parse?_bind (r : Reader α) (f : α → Reader β) (cs : List Char) :
    parse? (r >>= f) cs = (parse? r cs).bind fun p => parse? (f p.1) p.2 := by
  unfold parse?
  rw [run_bind_eq]
  rcases ExceptT.run r cs with ⟨e | a, rest⟩ <;> rfl

@[simp] theorem parse?_map (r : Reader α) (f : α → β) (cs : List Char) :
    parse? (f <$> r) cs = (parse? r cs).map fun p => (f p.1, p.2) := by
  rw [← bind_pure_comp, parse?_bind]
  cases parse? r cs <;> rfl

theorem parse?_ite (p : Prop) [Decidable p] (r r' : Reader α) (cs : List Char) :
    parse? (if p then r else r') cs = if p then parse? r cs else parse? r' cs := by
  split <;> rfl

@[simp] theorem parse?_get (cs : List Char) : parse? get cs = some (cs, cs) := rfl

@[simp] theorem parse?_set (cs cs' : List Char) : parse? (set cs') cs = some ((), cs') := rfl

@[simp] theorem parse?_monadLift (x : Except Fault α) (cs : List Char) :
    parse? (monadLift x : Reader α) cs = x.toOption.map (·, cs) := by
  cases x <;> rfl

@[simp] theorem parse?_skip (c : Char) (cs : List Char) :
    parse? skip (c :: cs) = some ((), cs) := rfl

@[simp] theorem parse?_take (f : List Char → Except Fault (α × List Char)) (cs : List Char) :
    parse? (take f) cs = (f cs).toOption := by
  cases h : f cs with
  | error e =>
      simp [take, h]
      rfl
  | ok p => simp [take, h, Except.toOption]

/-- A fault that is handled by another fault stays one. -/
theorem parse?_tryCatch {r : Reader α} {handle : Fault → Reader α}
    (h : ∀ e cs, parse? (handle e) cs = none) (cs : List Char) :
    parse? (tryCatch r handle) cs = parse? r cs := by
  have hrun : ExceptT.run (tryCatch r handle) cs =
      ExceptT.run (tryCatch (ExceptT.mk fun _ => ExceptT.run r cs : Reader α) handle) cs := rfl
  unfold parse?
  rw [hrun]
  rcases ExceptT.run r cs with ⟨e | a, rest⟩
  · exact h e rest
  · rfl

/-! ### The next character -/

variable {c : Char} {cs : List Char}

theorem parse?_look_cons (h : isBlank c = false) :
    parse? look (c :: cs) = some (some c, c :: cs) := by
  have hdrop : (c :: cs).dropWhile isBlank = c :: cs := List.dropWhile_cons_of_neg (by simp [h])
  show some (((c :: cs).dropWhile isBlank).head?, (c :: cs).dropWhile isBlank) = _
  rw [hdrop]
  rfl

theorem parse?_start_cons (h : isBlank c = false) : parse? start (c :: cs) = some (c, c :: cs) := by
  simp [start, parse?_look_cons h]

theorem parse?_afterItem (e : Fault) (cs : List Char) :
    parse? (afterItem e : Reader α) cs = none := by
  unfold afterItem
  split
  · rw [parse?_bind]
    refine Option.bind_eq_none_iff.2 fun p _ => ?_
    dsimp only
    rw [parse?_ite]
    split
    · rw [parse?_bind]
      refine Option.bind_eq_none_iff.2 fun _ _ => ?_
      rw [parse?_bind]
      exact Option.bind_eq_none_iff.2 fun _ _ => parse?_throw _ _
    · rfl
  · rfl

/-! ### Values within a text -/

/-- The text ends here, or goes on with a character that closes a value or parts it from the
next. -/
def Delimited (rest : List Char) : Prop :=
  ∀ c ∈ rest.head?, c = ',' ∨ c = ']' ∨ c = '\x7d'

theorem delimited_nil : Delimited [] := nofun

theorem delimited_cons (h : c = ',' ∨ c = ']' ∨ c = '\x7d') : Delimited (c :: cs) := by
  rintro _ ⟨⟩
  exact h

/-- What a reader makes of a text before a delimiter.  A value starts with a character that is
neither blank nor the end of a list. -/
structure Reads (r : Reader α) (text : List Char) (value : Option α) : Prop where
  opens : ∃ c cs, text = c :: cs ∧ isBlank c = false ∧ c ≠ ']'
  parse : ∀ rest, Delimited rest → r.parse? (text ++ rest) = value.map (·, rest)

/-- A step after a value, such as a check or a conversion. -/
theorem Reads.bind {r : Reader α} {text : List Char} {value : Option α} {f : α → Reader β}
    {g : α → Option β} (h : Reads r text value)
    (hf : ∀ a cs, parse? (f a) cs = (g a).map (·, cs)) :
    Reads (r >>= f) text (value.bind g) := by
  refine ⟨h.opens, fun rest hrest => ?_⟩
  rw [parse?_bind, h.parse rest hrest]
  cases value with
  | none => rfl
  | some a => exact hf a rest

theorem Reads.map {r : Reader α} {text : List Char} {value : Option α} (h : Reads r text value)
    (f : α → β) : Reads (r >>= fun a => pure (f a)) text (value.map f) := by
  rw [Option.map_eq_bind]
  exact h.bind fun a cs => parse?_pure (f a) cs

/-- A value that may be `null` but is not. -/
theorem Reads.option {r : Reader α} {text : List Char} {value : Option α} (h : Reads r text value)
    (hnull : text.head? ≠ some 'n') : Reads (option r) text (value.map some) := by
  obtain ⟨c, cs, rfl, hblank, hclose⟩ := h.opens
  have hn : some c ≠ some 'n' := hnull
  refine ⟨⟨c, cs, rfl, hblank, hclose⟩, fun rest hrest => ?_⟩
  rw [Reader.option, parse?_bind, List.cons_append, parse?_look_cons hblank]
  show parse? (if some c = some 'n' then _ else r >>= fun a => pure (some a)) _ = _
  rw [if_neg hn]
  exact (h.map some).parse rest hrest

/-- A text that is read as a whole. -/
theorem Reads.run_eq_ok {r : Reader α} {text : List Char} {value : Option α}
    (h : Reads r text value) {a : α} : r.run (String.ofList text) = .ok a ↔ value = some a := by
  have hwhole : parse? (whole r) text = value.map (·, []) := by
    have hparse := h.parse [] delimited_nil
    rw [List.append_nil] at hparse
    rw [whole, parse?_bind, hparse]
    cases value <;> rfl
  rw [run_eq_ok_iff, String.toList_ofList, hwhole]
  cases value <;> simp

/-- A text that is read as a whole before a last step, which may refuse what has been read: its
outcome is that of the reading. -/
theorem Reads.run_bind {r : Reader α} {text : List Char} {a : α} (h : Reads r text (some a))
    {f : α → Reader β} {outcome : Except Fault β}
    (hf : ∀ cs, ExceptT.run (f a) cs = (outcome, cs)) :
    (r >>= f).run (String.ofList text) = outcome := by
  have hread := h.parse [] delimited_nil
  rw [List.append_nil, Option.map_some, parse?_eq_some] at hread
  have hstep : ExceptT.run (r >>= f) text = (outcome, []) := by
    rw [run_bind_eq, hread]
    exact hf []
  rw [run, String.toList_ofList, whole, run_bind_eq, hstep]
  cases outcome <;> rfl

end TernaryRules.Json.Reader
