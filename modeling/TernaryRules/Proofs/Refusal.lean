import TernaryRules.Proofs.Plan

/-!
# Refusals

Three things stand in the way of a compilation, and the first of them is reported: a split that
tests a feature the table does not declare, more rules than the settings allow, and priorities that
run past the largest word (`Refused`).  As long as the number of rules is a word itself, nothing
else does: the tree, the counts, the covers and the numbers of rules that are checked again on the
way are always right (`compile_refused_iff`).  A tree is never found malformed, whatever the number
of its rules (`compile_ne_malformed`).
-/

namespace TernaryRules

variable {s : Settings} {tree : Tree} {table : FeatureTable}

/-- The number of rules is within the limit, where the settings refuse more. -/
def Settings.Allows (s : Settings) (rules : Nat) : Prop :=
  ∀ limit, s.ruleLimit = some limit → s.limitAction = .reject → rules ≤ limit

/-- What a tree is refused for. -/
inductive Refused (s : Settings) (tree : Tree) (table : FeatureTable) : CompileError → Prop
  | undeclared {e : UndeclaredFeature} :
      FirstUndeclared tree table e → Refused s tree table (.undeclared e)
  | overLimit {limit : Nat} :
      tree.Declared table → s.ruleLimit = some limit → s.limitAction = .reject →
        limit < tree.ruleCount table →
          Refused s tree table (.overLimit (tree.ruleCount table) limit)
  | priorities :
      tree.Declared table → s.Allows (tree.ruleCount table) →
        maxKey < s.priorityBase + (tree.ruleCount table - 1) →
          Refused s tree table (.priorityOverflow (tree.ruleCount table) s.priorityBase)

/-- A split that is not declared is reported, whatever the settings are. -/
theorem compile_of_undeclared {e : UndeclaredFeature} (h : FirstUndeclared tree table e) :
    compile s tree table = .error (.undeclared e) := by
  rw [compile, plan, tree.recheck, extract_eq_error_iff.2 h]
  rfl

/-- Expansion complains of blocks and of miscounts, and of nothing else. -/
theorem expandPlanned_eq_error {r : Region} {count : Nat} {e : CompileError}
    (h : expandPlanned table r count = .error e) :
    (∃ x, e = .expansion x) ∨ ∃ leaf rules expected, e = .miscount leaf rules expected := by
  unfold expandPlanned at h
  split at h
  · cases h
    exact .inl ⟨_, rfl⟩
  · split at h
    · cases h
    · cases h
      exact .inr ⟨_, _, _, rfl⟩

/-- An error that expansion does not complain of comes from a check of the planned number. -/
theorem compile_eq_error_iff_planned (hd : tree.Declared table) (e : CompileError)
    (hx : ∀ x, e ≠ .expansion x)
    (hm : ∀ leaf rules expected, e ≠ .miscount leaf rules expected) :
    compile s tree table = .error e ↔
      s.checkLimit (clamp (tree.ruleCount table)) = .error e ∨
        s.checkLimit (clamp (tree.ruleCount table)) = .ok () ∧
          s.checkPriorities (clamp (tree.ruleCount table)) = .error e := by
  obtain ⟨extraction, he⟩ := exists_extraction hd
  rw [compile_eq_error_of_extract he]
  constructor
  · rintro (hlimit | ⟨hok, hpriorities | ⟨-, hexpand⟩⟩)
    · exact .inl hlimit
    · exact .inr ⟨hok, hpriorities⟩
    · obtain ⟨⟨r, count⟩, -, hr⟩ := exists_of_mapM_eq_error hexpand
      rcases expandPlanned_eq_error hr with ⟨x, rfl⟩ | ⟨leaf, rules, expected, rfl⟩
      · exact absurd rfl (hx x)
      · exact absurd rfl (hm leaf rules expected)
  · rintro (hlimit | ⟨hok, hpriorities⟩)
    · exact .inl hlimit
    · exact .inr ⟨hok, .inl hpriorities⟩

/-- With all splits declared, only the two checks of the number of rules can fail. -/
theorem compile_eq_error_iff_checks (hd : tree.Declared table)
    (hn : tree.ruleCount table ≤ maxKey) {e : CompileError} :
    compile s tree table = .error e ↔
      s.checkLimit (tree.ruleCount table) = .error e ∨
        s.checkLimit (tree.ruleCount table) = .ok () ∧
          s.checkPriorities (tree.ruleCount table) = .error e := by
  obtain ⟨extraction, he⟩ := exists_extraction hd
  obtain ⟨bodies, hbodies⟩ := exists_expansion (s := s) he hn
  rw [compile_eq_error_of_extract he, clamp_of_le hn, hbodies]
  simp

/-- No tree is found malformed, however many rules it has. -/
theorem compile_ne_malformed (s : Settings) (tree : Tree) (table : FeatureTable) (e : TreeError) :
    compile s tree table ≠ .error (.malformed e) := by
  intro h
  cases he : extract tree table with
  | error e' =>
      rw [compile_of_undeclared (extract_eq_error_iff.1 he)] at h
      cases h
  | ok extraction =>
      have hchecks := (compile_eq_error_iff_planned (declared_of_extract he) (.malformed e)
        (fun _ => nofun) (fun _ _ _ => nofun)).1 h
      rcases hchecks with hlimit | ⟨-, hpriorities⟩
      · obtain ⟨limit, -, -, -, ⟨⟩⟩ := checkLimit_eq_error.1 hlimit
      · obtain ⟨-, -, ⟨⟩⟩ := checkPriorities_eq_error.1 hpriorities

theorem FirstUndeclared.not_declared {e : UndeclaredFeature} (h : FirstUndeclared tree table e) :
    ¬ tree.Declared table := by
  obtain ⟨threshold, left, right, hn⟩ := h.split
  intro hd
  exact Nat.not_lt.2 h.outside (hd _ _ _ _ hn)

/-- The error of a compilation is the first thing that stands in its way. -/
theorem compile_eq_error_iff (hn : tree.ruleCount table ≤ maxKey) {e : CompileError} :
    compile s tree table = .error e ↔ Refused s tree table e := by
  cases he : extract tree table with
  | error e' =>
      have hfirst := extract_eq_error_iff.1 he
      rw [compile_of_undeclared hfirst]
      constructor
      · rintro ⟨⟩
        exact .undeclared hfirst
      · intro h
        cases h with
        | undeclared h => rw [Except.error.inj (he.symm.trans (extract_eq_error_iff.2 h))]
        | overLimit hd => exact absurd hd hfirst.not_declared
        | priorities hd => exact absurd hd hfirst.not_declared
  | ok extraction =>
      have hd := declared_of_extract he
      have hpos := Tree.one_le_ruleCount he
      rw [compile_eq_error_iff_checks hd hn, checkLimit_eq_error, checkLimit_eq_ok,
        checkPriorities_eq_error]
      constructor
      · rintro (⟨limit, hl, ha, hlt, rfl⟩ | ⟨hallows, -, hlt, rfl⟩)
        · exact .overLimit hd hl ha hlt
        · exact .priorities hd hallows hlt
      · intro h
        cases h with
        | undeclared h => exact absurd hd h.not_declared
        | overLimit _ hl ha hlt => exact .inl ⟨_, hl, ha, hlt, rfl⟩
        | priorities _ hallows hlt => exact .inr ⟨hallows, hpos, hlt, rfl⟩

theorem one_le_length_rules {output : Output} (hn : tree.ruleCount table ≤ maxKey)
    (h : compile s tree table = .ok output) : 1 ≤ output.rules.length := by
  obtain ⟨extraction, bodies, he, -, hlengths, -, rfl⟩ := compile_planned h
  rw [length_number, length_flatten_eq he hn hlengths]
  exact Tree.one_le_ruleCount he

/-- **A tree is refused for one of three reasons.**  A tree whose number of rules is a word is
compiled to at least one rule unless one of them is there, and the error is the first one. -/
theorem compile_refused_iff (hn : tree.ruleCount table ≤ maxKey) :
    (∀ e, compile s tree table = .error e ↔ Refused s tree table e) ∧
    ((∀ e, ¬ Refused s tree table e) →
      ∃ output, compile s tree table = .ok output ∧ 1 ≤ output.rules.length) ∧
    (tree.Declared table → 1 ≤ tree.ruleCount table) := by
  refine ⟨fun e => compile_eq_error_iff hn, fun hnone => ?_, fun hd => ?_⟩
  · cases hc : compile s tree table with
    | error e => exact absurd ((compile_eq_error_iff hn).1 hc) (hnone e)
    | ok output => exact ⟨output, rfl, one_le_length_rules hn hc⟩
  · obtain ⟨extraction, he⟩ := exists_extraction hd
    exact Tree.one_le_ruleCount he

/-- Settings that refuse more rules than a limit. -/
def Settings.refusing (limit : Nat) : Settings :=
  { Settings.default with ruleLimit := some limit, limitAction := .reject }

/-- The four rules of the stump have room from `maxKey - 3` on, but not from `maxKey - 2` on, and are
more than a limit of no rules at all. -/
theorem compile_refused_iff_stump :
    (∃ output, compile { Settings.default with priorityBase := maxKey - 3 } (Tree.stump 7 4 9)
        .nibble = .ok output ∧ 1 ≤ output.rules.length) ∧
      compile { Settings.default with priorityBase := maxKey - 2 } (Tree.stump 7 4 9) .nibble =
        .error (.priorityOverflow 4 (maxKey - 2)) ∧
      compile (.refusing 0) (Tree.stump 7 4 9) .nibble = .error (.overLimit 4 0) := by
  have hfour := Tree.ruleCount_stump
  have hn : (Tree.stump 7 4 9).ruleCount .nibble ≤ maxKey := by
    rw [hfour]
    decide
  have hextract : extract (Tree.stump 7 4 9) .nibble = .ok .halves := rfl
  have hd := declared_of_extract hextract
  refine ⟨?_, ?_, ?_⟩
  · refine (compile_refused_iff hn).2.1 fun e he => ?_
    cases he with
    | undeclared h => exact h.not_declared hd
    | overLimit _ hl => cases hl
    | priorities _ _ hlt =>
        rw [hfour] at hlt
        exact absurd hlt (by decide)
  · have hallows (n : Nat) :
        { Settings.default with priorityBase := maxKey - 2 }.Allows n := by
      intro limit hl
      cases hl
    refine ((compile_refused_iff hn).1 _).2 ?_
    rw [← hfour]
    exact .priorities hd (hallows _) (by rw [hfour]; decide)
  · refine ((compile_refused_iff hn).1 _).2 ?_
    rw [← hfour]
    exact .overLimit hd rfl rfl (by rw [hfour]; decide)

end TernaryRules
