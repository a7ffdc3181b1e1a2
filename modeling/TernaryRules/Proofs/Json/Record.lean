import Mathlib.Data.List.Basic
import TernaryRules.Json.Record
import TernaryRules.Proofs.Json.Text

/-!
# Lists and records are read back

A written list is read item by item and a written record field by field.  `Fills` follows the
fields of a record: each one takes the state of the reading to the next state, or is not accepted.
The lists and records themselves add nothing: a list is accepted exactly when all of its items are
(`reads_list`), a record when its fields are and the state they leave is finished (`Fills.reads`).

The loops of the readers count down a text that is no shorter than the number of steps they take.
-/

namespace TernaryRules.Json

/-- The first of several parts, then each other part behind its comma. -/
theorem intercalate_cons (part : List Char) (parts : List (List Char)) :
    [','].intercalate (part :: parts) = part ++ parts.flatMap (',' :: ·) := by
  induction parts generalizing part with
  | nil => simp
  | cons part' parts ih =>
      rw [List.intercalate_cons_cons, ih, List.flatMap_cons]
      simp

theorem length_le_flatMap_comma (parts : List (List Char)) :
    parts.length ≤ (parts.flatMap (',' :: ·)).length := by
  induction parts with
  | nil => exact Nat.le_refl 0
  | cons part parts ih =>
      rw [List.flatMap_cons, List.length_append, List.length_cons, List.length_cons]
      omega

namespace Reader

variable {α β : Type} {c : Char} {cs : List Char}

/-! ### Lists -/

theorem parse?_moreItems_end (first : Bool) :
    parse? (moreItems first) (']' :: cs) = some (false, ']' :: cs) := by
  rw [moreItems, parse?_bind, parse?_look_cons rfl]
  rfl

theorem parse?_moreItems_first (hc : isBlank c = false) (hclose : c ≠ ']') :
    parse? (moreItems true) (c :: cs) = some (true, c :: cs) := by
  rw [moreItems, parse?_bind, parse?_look_cons hc]
  simp [hclose]

theorem parse?_moreItems_comma (hc : isBlank c = false) (hclose : c ≠ ']') :
    parse? (moreItems false) (',' :: c :: cs) = some (true, c :: cs) := by
  rw [moreItems, parse?_bind, parse?_look_cons rfl]
  simp [parse?_look_cons hc]

/-- A comma or the end of the whole follows each part. -/
theorem delimited_flatMap (parts : List (List Char)) (rest : List Char)
    (hc : c = ']' ∨ c = '\x7d') : Delimited (parts.flatMap (',' :: ·) ++ c :: rest) := by
  cases parts with
  | nil => exact delimited_cons (.inr hc)
  | cons part parts => exact delimited_cons (.inl rfl)

/-- One item more. -/
theorem parse?_items_cons {item : Reader α} {text rest : List Char} {value : Option α}
    (h : Reads item text value) (hrest : Delimited rest) {first : Bool}
    (hmore : parse? (moreItems first) cs = some (true, text ++ rest)) (step : Char)
    (steps : List Char) (seen : Array α) :
    parse? (items item (step :: steps) first seen) cs =
      value.bind fun y => parse? (items item steps false (seen.push y)) rest := by
  rw [items, parse?_bind, hmore]
  show parse? (item >>= fun y => items item steps false (seen.push y)) (text ++ rest) = _
  rw [parse?_bind, h.parse rest hrest]
  cases value <;> rfl

theorem parse?_items_end (item : Reader α) (first : Bool) (step : Char) (steps : List Char)
    (seen : Array α) (rest : List Char) :
    parse? (items item (step :: steps) first seen) (']' :: rest) =
      some (seen.toList, ']' :: rest) := by
  rw [items, parse?_bind, parse?_moreItems_end]
  rfl

variable {item : Reader α} {write : β → List Char} {value : β → Option α} {xs : List β}

/-- The items behind the first. -/
theorem parse?_items (h : ∀ x ∈ xs, Reads item (write x) (value x)) {steps : List Char}
    (hsteps : xs.length < steps.length) (seen : Array α) (rest : List Char) :
    parse? (items item steps false seen) ((xs.map write).flatMap (',' :: ·) ++ ']' :: rest) =
      (xs.mapM value).map fun ys => (seen.toList ++ ys, ']' :: rest) := by
  induction xs generalizing steps seen with
  | nil =>
      cases steps with
      | nil => cases hsteps
      | cons step steps =>
          show parse? (items item (step :: steps) false seen) (']' :: rest) = _
          rw [parse?_items_end]
          simp
  | cons x xs ih =>
      cases steps with
      | nil => cases hsteps
      | cons step steps =>
          have hx := h x List.mem_cons_self
          have hxs : ∀ x ∈ xs, Reads item (write x) (value x) :=
            fun x hx => h x (List.mem_cons_of_mem _ hx)
          obtain ⟨c, cs, hcs, hblank, hclose⟩ := hx.opens
          rw [List.map_cons, List.flatMap_cons, List.append_assoc, List.cons_append,
            parse?_items_cons hx (delimited_flatMap (xs.map write) rest (.inl rfl))
              (by rw [hcs]; exact parse?_moreItems_comma hblank hclose), List.mapM_cons]
          cases value x with
          | none => rfl
          | some y =>
              show parse? (items item steps false (seen.push y)) _ = _
              rw [ih hxs (Nat.lt_of_succ_lt_succ hsteps)]
              cases xs.mapM value with
              | none => rfl
              | some ys => simp

theorem parse?_items_first (h : ∀ x ∈ xs, Reads item (write x) (value x)) {text : List Char}
    (rest : List Char) (htext : text = [','].intercalate (xs.map write) ++ ']' :: rest) :
    parse? (items item text true #[]) text = (xs.mapM value).map (·, ']' :: rest) := by
  cases xs with
  | nil =>
      rw [htext]
      exact parse?_items_end item true _ _ _ rest
  | cons x xs =>
      have hx := h x List.mem_cons_self
      have hxs : ∀ x ∈ xs, Reads item (write x) (value x) :=
        fun x hx => h x (List.mem_cons_of_mem _ hx)
      obtain ⟨c, cs, hcs, hblank, hclose⟩ := hx.opens
      have hrest := delimited_flatMap (xs.map write) rest (.inl rfl)
      have hsteps :
          xs.length < (cs ++ ((xs.map write).flatMap (',' :: ·) ++ ']' :: rest)).length := by
        have hle := length_le_flatMap_comma (xs.map write)
        rw [List.length_map] at hle
        simp only [List.length_append, List.length_cons]
        omega
      rw [List.map_cons, intercalate_cons, List.append_assoc, hcs, List.cons_append] at htext
      rw [htext, parse?_items_cons hx hrest
          (by rw [hcs]; exact parse?_moreItems_first hblank hclose), List.mapM_cons]
      cases value x with
      | none => rfl
      | some y =>
          show parse? (items item _ false #[y]) _ = _
          rw [parse?_items hxs hsteps]
          cases xs.mapM value <;> rfl

theorem parse?_closeList : parse? closeList (']' :: cs) = some ((), cs) := by
  rw [closeList, parse?_bind, parse?_look_cons rfl]
  rfl

/-- **A written list is read item by item.** -/
theorem reads_list (h : ∀ x ∈ xs, Reads item (write x) (value x)) :
    Reads (list item) (writeList (xs.map write)) (xs.mapM value) := by
  refine ⟨⟨'[', _, rfl, rfl, by decide⟩, fun rest _ => ?_⟩
  show parse? (list item) ('[' :: ([','].intercalate (xs.map write) ++ [']'] ++ rest)) = _
  rw [List.append_assoc, List.singleton_append, list, parse?_bind, parse?_start_cons rfl]
  show parse? (skip >>= fun _ => get >>= fun cs =>
    tryCatch (items item cs true #[]) afterItem >>= fun xs => closeList >>= fun _ => pure xs) _ = _
  simp only [parse?_bind, parse?_skip, parse?_get, Option.bind_some]
  rw [parse?_tryCatch parse?_afterItem, parse?_items_first h rest rfl]
  cases xs.mapM value with
  | none => rfl
  | some ys =>
      rw [Option.map_some, Option.bind_some, parse?_closeList]
      rfl

/-! ### Keys -/

theorem parse?_moreKeys_end (first : Bool) :
    parse? (moreKeys first) ('\x7d' :: cs) = some (false, '\x7d' :: cs) := by
  rw [moreKeys, parse?_bind, parse?_look_cons rfl]
  rfl

theorem parse?_moreKeys_first (name : String) (value rest : List Char) :
    parse? (moreKeys true) (writeField name value ++ rest) =
      some (true, writeField name value ++ rest) := by
  show parse? (moreKeys true) ('"' :: _) = _
  rw [moreKeys, parse?_bind, parse?_look_cons rfl]
  rfl

theorem parse?_moreKeys_comma (name : String) (value rest : List Char) :
    parse? (moreKeys false) (',' :: (writeField name value ++ rest)) =
      some (true, writeField name value ++ rest) := by
  have hlook : parse? look (writeField name value ++ rest) =
      some (some '"', writeField name value ++ rest) := parse?_look_cons rfl
  rw [moreKeys, parse?_bind, parse?_look_cons rfl]
  simp [hlook]

theorem parse?_colon : parse? colon (':' :: cs) = some ((), cs) := by
  rw [colon, parse?_bind, parse?_look_cons rfl]
  rfl

end Reader

namespace Record

open Reader

variable {σ α : Type} {r : Record σ}

/-- Reading written fields in order, from a state on.  Each names a field of the record that has not
been read, and its value takes the state to the next one.  There is no last state when a value is
not accepted. -/
inductive Fills (r : Record σ) : σ → List (List Char) → Option σ → Prop where
  | done (state : σ) : Fills r state [] (some state)
  | field {state : σ} {slot : Slot σ} {name : String} {value : List Char} {next : Option σ}
      {fields : List (List Char)} {last : σ → Option σ} :
      r.slots.find? (fun slot => slot.name == name) = some slot → slot.filled state = false →
        Reads (slot.read state) value next →
          (∀ state', next = some state' → Fills r state' fields (last state')) →
            Fills r state (writeField name value :: fields) (next.bind last)

theorem Fills.single {slot : Slot σ} {name : String} {value : List Char} {state : σ}
    {next : Option σ} (hslot : r.slots.find? (fun slot => slot.name == name) = some slot)
    (hfresh : slot.filled state = false) (hvalue : Reads (slot.read state) value next) :
    r.Fills state [writeField name value] next := by
  have hfield : r.Fills state [writeField name value] (next.bind some) :=
    .field hslot hfresh hvalue fun state' _ => .done state'
  rwa [Option.bind_fun_some] at hfield

/-- A field that is accepted. -/
theorem Fills.cons {slot : Slot σ} {name : String} {value : List Char} {state state' : σ}
    {fields : List (List Char)} {last : Option σ}
    (hslot : r.slots.find? (fun slot => slot.name == name) = some slot)
    (hfresh : slot.filled state = false) (hvalue : Reads (slot.read state) value (some state'))
    (h : r.Fills state' fields last) : r.Fills state (writeField name value :: fields) last :=
  @field _ _ _ _ _ _ _ _ (fun _ => last) hslot hfresh hvalue fun _ hnext =>
    Option.some.inj hnext ▸ h

/-- More fields behind those already read. -/
theorem Fills.append {state : σ} {fields fields' : List (List Char)} {last : Option σ}
    {last' : σ → Option σ} (h : r.Fills state fields last)
    (h' : ∀ state', last = some state' → r.Fills state' fields' (last' state')) :
    r.Fills state (fields ++ fields') (last.bind last') := by
  induction h with
  | done state => exact h' state rfl
  | @field state slot name value next fields last hslot hfresh hvalue _ ih =>
      rw [List.cons_append, Option.bind_assoc]
      refine .field hslot hfresh hvalue fun state' hnext => ih state' hnext fun state'' hlast => ?_
      exact h' state'' (by rw [hnext, Option.bind_some, hlast])

/-- Fields that are accepted on a condition each. -/
theorem Fills.trans {a b : Prop} [Decidable a] [Decidable b] {state state' state'' : σ}
    {fields fields' : List (List Char)}
    (h : r.Fills state fields (if a then some state' else none))
    (h' : r.Fills state' fields' (if b then some state'' else none)) :
    r.Fills state (fields ++ fields') (if a ∧ b then some state'' else none) := by
  have happend := @append _ _ _ _ fields' _ (fun _ => if b then some state'' else none) h
  by_cases ha : a
  · simp only [ha, if_true, true_and, Option.bind_some] at happend ⊢
    exact happend fun _ hstate => Option.some.inj hstate ▸ h'
  · simp only [ha, if_false, false_and, Option.bind_none] at happend ⊢
    exact happend nofun

/-- One field more. -/
theorem parse?_readKeys_cons {slot : Slot σ} {state : σ} {name : String} {value rest : List Char}
    {next : Option σ} (hslot : r.slots.find? (fun slot => slot.name == name) = some slot)
    (hfresh : slot.filled state = false) (hvalue : Reads (slot.read state) value next)
    (hrest : Delimited rest) {first : Bool} {cs : List Char}
    (hmore : parse? (moreKeys first) cs = some (true, writeField name value ++ rest)) (step : Char)
    (steps : List Char) :
    parse? (r.readKeys (step :: steps) first state) cs =
      next.bind fun state' => parse? (r.readKeys steps false state') rest := by
  have hkey : readText (name.toList.flatMap writeChar ++ '"' :: ':' :: (value ++ rest)) =
      .ok (name, ':' :: (value ++ rest)) := readText_flatMap name _
  have htext : writeField name value ++ rest =
      '"' :: (name.toList.flatMap writeChar ++ '"' :: ':' :: (value ++ rest)) := by
    simp [writeField, writeText]
  rw [readKeys, parse?_bind, hmore, htext]
  simp only [Option.bind_some, if_true, parse?_bind, parse?_skip, parse?_take, hkey,
    Except.toOption, hslot, hfresh, Bool.false_eq_true, if_false, parse?_colon,
    hvalue.parse rest hrest]
  cases next <;> rfl

theorem parse?_readKeys_end (r : Record σ) (first : Bool) (state : σ) (step : Char)
    (steps rest : List Char) :
    parse? (r.readKeys (step :: steps) first state) ('\x7d' :: rest) =
      some (state, '\x7d' :: rest) := by
  rw [readKeys, parse?_bind, parse?_moreKeys_end]
  rfl

/-- The fields behind the first. -/
theorem Fills.parse?_readKeys {state : σ} {fields : List (List Char)} {last : Option σ}
    (h : r.Fills state fields last) {steps : List Char} (hsteps : fields.length < steps.length)
    (rest : List Char) :
    parse? (r.readKeys steps false state) (fields.flatMap (',' :: ·) ++ '\x7d' :: rest) =
      last.map (·, '\x7d' :: rest) := by
  induction h generalizing steps with
  | done state =>
      cases steps with
      | nil => cases hsteps
      | cons step steps => exact parse?_readKeys_end r false state step steps rest
  | @field state slot name value next fields last hslot hfresh hvalue hfields ih =>
      cases steps with
      | nil => cases hsteps
      | cons step steps =>
          rw [List.flatMap_cons, List.append_assoc, List.cons_append,
            parse?_readKeys_cons hslot hfresh hvalue (delimited_flatMap fields rest (.inr rfl))
              (parse?_moreKeys_comma name value _)]
          cases next with
          | none => rfl
          | some state' => exact ih state' rfl (Nat.lt_of_succ_lt_succ hsteps)

theorem Fills.parse?_readKeys_first {state : σ} {fields : List (List Char)} {last : Option σ}
    (h : r.Fills state fields last) {text : List Char} (rest : List Char)
    (htext : text = [','].intercalate fields ++ '\x7d' :: rest) :
    parse? (r.readKeys text true state) text = last.map (·, '\x7d' :: rest) := by
  cases h with
  | done =>
      rw [htext]
      exact parse?_readKeys_end r true state _ _ rest
  | @field _ slot name value next fields last hslot hfresh hvalue hfields =>
      have hrest := delimited_flatMap fields rest (.inr rfl)
      have hmore := parse?_moreKeys_first name value (fields.flatMap (',' :: ·) ++ '\x7d' :: rest)
      rw [intercalate_cons, List.append_assoc] at htext
      cases text with
      | nil => cases htext
      | cons step steps =>
          have hsteps : fields.length < steps.length := by
            have hlength := congrArg List.length htext
            have hle := length_le_flatMap_comma fields
            simp only [writeField, writeText, List.length_append, List.length_cons] at hlength
            omega
          rw [parse?_readKeys_cons hslot hfresh hvalue hrest (htext ▸ hmore)]
          cases next with
          | none => rfl
          | some state' => exact (hfields state' rfl).parse?_readKeys hsteps rest

/-- **A written record is read field by field**, and its last state is finished. -/
theorem Fills.reads {fields : List (List Char)} {last : Option σ}
    (h : r.Fills r.blank fields last) (finish : σ → Except Fault α) :
    Reads (r.read finish) (writeRecord fields)
      (last.bind fun state => (finish state).toOption) := by
  refine ⟨⟨'\x7b', _, rfl, rfl, by decide⟩, fun rest _ => ?_⟩
  show parse? (r.read finish) ('\x7b' :: ([','].intercalate fields ++ ['\x7d'] ++ rest)) = _
  rw [List.append_assoc, List.singleton_append, Record.read, parse?_bind, parse?_start_cons rfl]
  show parse? (skip >>= fun _ => get >>= fun cs => r.readKeys cs true r.blank >>= fun state =>
    liftM (finish state) >>= fun a => skip >>= fun _ => pure a) _ = _
  simp only [parse?_bind, parse?_skip, parse?_get, Option.bind_some]
  rw [h.parse?_readKeys_first rest rfl]
  cases last with
  | none => rfl
  | some state =>
      simp only [Option.map_some, Option.bind_some, parse?_monadLift]
      cases finish state <;> rfl

end Record

end TernaryRules.Json
