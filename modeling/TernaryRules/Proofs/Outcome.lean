import Mathlib.Data.List.Forall2

/-!
# Outcomes

When a chain of steps that can fail has come to a result: a step after another one (`bind_eq_ok`),
a step that translates the failure of another one (`mapError_eq_ok`), and a step for each item of a
list (`mapM_eq_ok`), which fails as the first of these steps that fails (`mapM_eq_error`).
-/

namespace TernaryRules

variable {ε ε' α β : Type}

theorem bind_eq_ok {x : Except ε α} {f : α → Except ε β} {b : β} :
    (x >>= f) = .ok b ↔ ∃ a, x = .ok a ∧ f a = .ok b := by
  cases x with
  | error e => exact ⟨nofun, nofun⟩
  | ok a =>
      constructor
      · intro h
        exact ⟨a, rfl, h⟩
      · rintro ⟨_, ⟨⟩, h⟩
        exact h

/-- A chain fails with the first failure of its steps. -/
theorem bind_eq_error {x : Except ε α} {f : α → Except ε β} {e : ε} :
    (x >>= f) = .error e ↔ x = .error e ∨ ∃ a, x = .ok a ∧ f a = .error e := by
  cases x with
  | error e' =>
      constructor
      · rintro ⟨⟩
        exact .inl rfl
      · rintro (⟨⟨⟩⟩ | ⟨_, ⟨⟩, _⟩)
        rfl
  | ok a =>
      constructor
      · intro h
        exact .inr ⟨a, rfl, h⟩
      · rintro (⟨⟨⟩⟩ | ⟨_, ⟨⟩, h⟩)
        exact h

/-- A check fails when its condition does not hold. -/
theorem ite_eq_error {P : Prop} [Decidable P] {a : α} {e e' : ε} :
    (if P then Except.ok a else .error e') = .error e ↔ ¬ P ∧ e = e' := by
  by_cases h : P
  · simp [h]
  · simp [h, eq_comm]

/-- A step that fails unless a condition holds succeeds when it does. -/
theorem exists_eq_ok_iff {x : Except ε α} {P : Prop} {e₀ : ε}
    (h : ∀ {e}, x = .error e ↔ ¬ P ∧ e = e₀) : (∃ a, x = .ok a) ↔ P := by
  cases x with
  | error e =>
      have hP := (h.1 rfl).1
      simp [hP]
  | ok a =>
      have hP : P := by
        by_contra hP
        cases h.2 ⟨hP, rfl⟩
      simp [hP]

theorem map_eq_ok {x : Except ε α} {f : α → β} {b : β} :
    x.map f = .ok b ↔ ∃ a, x = .ok a ∧ f a = b := by
  cases x with
  | error e => exact ⟨nofun, nofun⟩
  | ok a =>
      constructor
      · intro h
        exact ⟨a, rfl, Except.ok.inj h⟩
      · rintro ⟨_, ⟨⟩, rfl⟩
        rfl

theorem map_eq_error {x : Except ε α} {f : α → β} {e : ε} :
    x.map f = .error e ↔ x = .error e := by
  cases x with
  | error e =>
      constructor
      · rintro ⟨⟩
        rfl
      · rintro ⟨⟩
        rfl
  | ok a => exact ⟨nofun, nofun⟩

theorem map_bind (x : Except ε α) (f : α → Except ε β) {γ : Type} (g : β → γ) :
    (x >>= f).map g = x >>= fun a => (f a).map g := by
  cases x with
  | error e => rfl
  | ok a => rfl

theorem mapError_eq_ok {x : Except ε α} {f : ε → ε'} {a : α} :
    x.mapError f = .ok a ↔ x = .ok a := by
  cases x with
  | error e => exact ⟨nofun, nofun⟩
  | ok a =>
      constructor
      · rintro ⟨⟩
        rfl
      · rintro ⟨⟩
        rfl

theorem mapError_eq_error {x : Except ε α} {f : ε → ε'} {e : ε'} :
    x.mapError f = .error e ↔ ∃ e₀, x = .error e₀ ∧ f e₀ = e := by
  cases x with
  | error e₀ =>
      constructor
      · intro h
        exact ⟨e₀, rfl, Except.error.inj h⟩
      · rintro ⟨_, ⟨⟩, rfl⟩
        rfl
  | ok a => exact ⟨nofun, nofun⟩

/-- A step for each item succeeds when each step does, with the list of their results. -/
theorem mapM_eq_ok {f : α → Except ε β} {items : List α} {results : List β} :
    items.mapM f = .ok results ↔ List.Forall₂ (fun a b => f a = .ok b) items results := by
  induction items generalizing results with
  | nil =>
      rw [List.forall₂_nil_left_iff]
      exact ⟨fun h => (Except.ok.inj h).symm, fun h => h ▸ rfl⟩
  | cons a items ih =>
      rw [List.mapM_cons, bind_eq_ok]
      constructor
      · rintro ⟨b, hb, h⟩
        obtain ⟨bs, hbs, h⟩ := bind_eq_ok.1 h
        cases h
        exact .cons hb (ih.1 hbs)
      · intro h
        cases h with
        | cons hb hbs => exact ⟨_, hb, bind_eq_ok.2 ⟨_, ih.2 hbs, rfl⟩⟩

theorem exists_forall₂_iff {R : α → β → Prop} {items : List α} :
    (∃ results, List.Forall₂ R items results) ↔ ∀ a ∈ items, ∃ b, R a b := by
  induction items with
  | nil => simp
  | cons a items ih =>
      rw [List.forall_mem_cons, ← ih]
      constructor
      · rintro ⟨_, _ | ⟨hb, hbs⟩⟩
        exact ⟨⟨_, hb⟩, _, hbs⟩
      · rintro ⟨⟨b, hb⟩, bs, hbs⟩
        exact ⟨b :: bs, .cons hb hbs⟩

theorem exists_getElem?_of_forall₂ {R : α → β → Prop} {items : List α} {results : List β}
    (h : List.Forall₂ R items results) {i : Nat} {b : β} (hb : results[i]? = some b) :
    ∃ a, items[i]? = some a ∧ R a b := by
  induction h generalizing i with
  | nil => cases hb
  | cons hab _ ih =>
      cases i with
      | zero =>
          cases hb
          exact ⟨_, rfl, hab⟩
      | succ i => exact ih hb

/-- A step for each item fails with the failure of the first step that fails. -/
theorem mapM_eq_error {f : α → Except ε β} {items : List α} {e : ε} :
    items.mapM f = .error e ↔ ∃ (k : Nat) (a : α), items[k]? = some a ∧ f a = .error e ∧
      ∀ j < k, ∀ a', items[j]? = some a' → ∃ b, f a' = .ok b := by
  induction items with
  | nil =>
      constructor
      · exact nofun
      · rintro ⟨k, a, ⟨⟩, -⟩
  | cons a items ih =>
      rw [List.mapM_cons, bind_eq_error]
      constructor
      · rintro (ha | ⟨b, hb, h⟩)
        · exact ⟨0, a, rfl, ha, fun j hj => absurd hj (Nat.not_lt_zero j)⟩
        · rcases bind_eq_error.1 h with hitems | ⟨bs, -, ⟨⟩⟩
          obtain ⟨k, a', hk, ha', hbefore⟩ := ih.1 hitems
          refine ⟨k + 1, a', hk, ha', fun j hj c hc => ?_⟩
          cases j with
          | zero => exact Option.some.inj hc ▸ ⟨b, hb⟩
          | succ j => exact hbefore j (Nat.lt_of_succ_lt_succ hj) c hc
      · rintro ⟨k, a', hk, ha', hbefore⟩
        cases k with
        | zero => exact .inl (Option.some.inj hk ▸ ha')
        | succ k =>
            obtain ⟨b, hb⟩ := hbefore 0 (Nat.succ_pos k) a rfl
            refine .inr ⟨b, hb, bind_eq_error.2 (.inl (ih.2 ⟨k, a', hk, ha', fun j hj => ?_⟩))⟩
            exact hbefore (j + 1) (Nat.succ_lt_succ hj)

/-- A failure of a step for each item is the failure of one of the steps. -/
theorem exists_of_mapM_eq_error {f : α → Except ε β} {items : List α} {e : ε}
    (h : items.mapM f = .error e) : ∃ a ∈ items, f a = .error e := by
  obtain ⟨k, a, hk, ha, -⟩ := mapM_eq_error.1 h
  exact ⟨a, List.mem_of_getElem? hk, ha⟩

/-- What is done with the result of each step can be done with all of them. -/
theorem mapM_map {γ : Type} (f : α → Except ε β) (g : β → γ) (items : List α) :
    items.mapM (fun a => (f a).map g) = (items.mapM f).map (List.map g) := by
  induction items with
  | nil => rfl
  | cons a items ih =>
      rw [List.mapM_cons, List.mapM_cons, ih]
      cases f a with
      | error e => rfl
      | ok b => cases items.mapM f <;> rfl

theorem mapM_congr {f g : α → Except ε β} {items : List α} (h : ∀ a ∈ items, f a = g a) :
    items.mapM f = items.mapM g := by
  induction items with
  | nil => rfl
  | cons a items ih =>
      obtain ⟨ha, hitems⟩ := List.forall_mem_cons.1 h
      rw [List.mapM_cons, List.mapM_cons, ha, ih hitems]

/-- A translation of the failure of each step is one of the failure of all of them. -/
theorem mapM_mapError (f : α → Except ε β) (g : ε → ε') (items : List α) :
    items.mapM (fun a => (f a).mapError g) = (items.mapM f).mapError g := by
  induction items with
  | nil => rfl
  | cons a items ih =>
      rw [List.mapM_cons, List.mapM_cons, ih]
      cases f a with
      | error e => rfl
      | ok b => cases items.mapM f <;> rfl

theorem mapM_option_cons (f : α → Option β) (a : α) (items : List α) :
    (a :: items).mapM f = (f a).bind fun b => (items.mapM f).map (b :: ·) := by
  rw [List.mapM_cons]
  cases f a with
  | none => rfl
  | some b => cases items.mapM f <;> rfl

theorem mapM_eq_some_map {f : α → Option β} {g : α → β} {items : List α}
    (h : ∀ a ∈ items, f a = some (g a)) : items.mapM f = some (items.map g) := by
  induction items with
  | nil => rfl
  | cons a items ih =>
      obtain ⟨ha, hitems⟩ := List.forall_mem_cons.1 h
      rw [mapM_option_cons, ha, ih hitems]
      rfl

theorem toOption_eq_some {x : Except ε α} {a : α} : x.toOption = some a ↔ x = .ok a := by
  cases x with
  | error e => exact ⟨nofun, nofun⟩
  | ok b =>
      constructor
      · rintro ⟨⟩
        rfl
      · rintro ⟨⟩
        rfl

theorem toOption_map (x : Except ε α) (f : α → β) : (x.map f).toOption = x.toOption.map f := by
  cases x with
  | error e => rfl
  | ok a => rfl

/-- Which step failed does not matter where failures are forgotten. -/
theorem mapM_toOption (f : α → Except ε β) (items : List α) :
    items.mapM (fun a => (f a).toOption) = (items.mapM f).toOption := by
  induction items with
  | nil => rfl
  | cons a items ih =>
      rw [List.mapM_cons, List.mapM_cons, ih]
      cases f a with
      | error e => rfl
      | ok b => cases items.mapM f <;> rfl

end TernaryRules
