import TernaryRules.Proofs.Refusal

/-!
# Priorities past the largest word

Whether the priorities run past `maxKey` is checked on the planned number of rules, which is
clamped.  The check is right while the number of rules is a word.  When it is not, the check takes
it for `maxKey`, and that many rules have room from the bases 0 and 1 on and from no other
(`overflow_clamp`, `checkPriorities_clamp`).  So from the base 2 on an overflow is reported before
any region is expanded, and at the bases 0 and 1 one that comes of a clamped number is not reported
at all (`overflow_reported`).
-/

namespace TernaryRules

variable {s : Settings} {tree : Tree} {table : FeatureTable}

/-! ### What the check of the planned number sees -/

/-- The check of a clamped number sees an overflow when the number is a word, and when the base is
at least 2. -/
theorem overflow_clamp {base rules : Nat} (h : maxKey < base + (rules - 1))
    (hseen : rules ≤ maxKey ∨ 2 ≤ base) : maxKey < base + (clamp rules - 1) := by
  rcases Nat.lt_or_ge maxKey rules with hbig | hword
  · have hone : 1 ≤ maxKey := by decide
    rw [clamp_of_lt hbig]
    omega
  · rwa [clamp_of_le hword]

/-- It is passed when the number is no word and the base is 0 or 1. -/
theorem checkPriorities_clamp {rules : Nat} (hbig : maxKey < rules) (hbase : s.priorityBase < 2) :
    s.checkPriorities (clamp rules) = .ok () := by
  rw [clamp_of_lt hbig]
  refine if_neg fun h => ?_
  have := h.2
  omega

/-- With all splits declared and the limit kept, priorities are complained of in the check of the
planned number, or not at all. -/
theorem compile_eq_priorityOverflow_iff (hd : tree.Declared table)
    (hl : s.Allows (clamp (tree.ruleCount table))) {rules base : Nat} :
    compile s tree table = .error (.priorityOverflow rules base) ↔
      s.checkPriorities (clamp (tree.ruleCount table)) = .error (.priorityOverflow rules base) := by
  rw [compile_eq_error_iff_planned hd (.priorityOverflow rules base) nofun nofun,
    checkLimit_eq_ok.2 hl]
  simp

/-! ### Reported and hidden overflows -/

/-- **Priorities that run past the largest word are reported from the plan**, before any region is
expanded, unless the number of rules was clamped and the base is 0 or 1.  Then the plan passes the
check, and nothing after it reports them. -/
theorem overflow_reported (hd : tree.Declared table)
    (hl : s.Allows (clamp (tree.ruleCount table)))
    (hover : maxKey < s.priorityBase + (tree.ruleCount table - 1)) :
    ∃ p, plan s tree table = .ok p ∧ s.checkLimit p.stats.rules = .ok () ∧
      (tree.ruleCount table ≤ maxKey ∨ 2 ≤ s.priorityBase →
        s.checkPriorities p.stats.rules =
          .error (.priorityOverflow p.stats.rules s.priorityBase) ∧
        compile s tree table = .error (.priorityOverflow p.stats.rules s.priorityBase)) ∧
      (maxKey < tree.ruleCount table ∧ s.priorityBase < 2 →
        s.checkPriorities p.stats.rules = .ok () ∧
        ∀ rules base, compile s tree table ≠ .error (.priorityOverflow rules base)) := by
  obtain ⟨extraction, he⟩ := exists_extraction hd
  have hpos := one_le_clamp (Tree.one_le_ruleCount he)
  refine ⟨_, plan_of_extract he, checkLimit_eq_ok.2 hl, fun hseen => ?_, fun ⟨hbig, hbase⟩ => ?_⟩
  · have hcheck := checkPriorities_eq_error.2 ⟨hpos, overflow_clamp hover hseen, rfl⟩
    exact ⟨hcheck, (compile_eq_priorityOverflow_iff hd hl).2 hcheck⟩
  · have hcheck := checkPriorities_clamp hbig hbase
    refine ⟨hcheck, fun rules base h => ?_⟩
    rw [compile_eq_priorityOverflow_iff hd hl, hcheck] at h
    cases h

/-- The tree of one leaf. -/
def Tree.single (label : Label) : Tree where
  nodes := #[.leaf label]
  valid := by cbv

/-- A feature of two bits that takes the values 1 and 2, which no block holds together. -/
def Feature.inner : Feature :=
  ⟨"inner", ⟨2, by decide, by decide⟩, ⟨1, 2, by decide⟩, by decide⟩

/-- So many features that one leaf has more rules than a word counts. -/
def FeatureTable.inner : FeatureTable := ⟨List.replicate 65 .inner⟩

theorem Feature.fewest_inner : Feature.inner.range.fewest Feature.inner.field = 2 := by
  have hcount : blockCount Feature.inner.field 1 2 = .ok 2 := by cbv
  exact Except.ok.inj ((blockCount_eq_ok Feature.inner.hi_le).symm.trans hcount)

theorem extract_single :
    extract (Tree.single 5) .inner =
      .ok ⟨[⟨0, 5, List.replicate 65 Feature.inner.range⟩], []⟩ := rfl

theorem ruleCount_single : (Tree.single 5).ruleCount .inner = 2 ^ 65 := by
  rw [Tree.ruleCount_eq extract_single, List.map_singleton, List.sum_singleton, Region.ruleCount,
    Region.blockCounts, FeatureTable.inner, List.zipWith_replicate', Feature.fewest_inner,
    List.prod_replicate]

/-- From the base 2 on the overflow of the priorities of the clamped rules is reported. -/
theorem overflow_reported_single :
    ∃ p, plan { Settings.default with priorityBase := 2 } (Tree.single 5) .inner = .ok p ∧
      compile { Settings.default with priorityBase := 2 } (Tree.single 5) .inner =
        .error (.priorityOverflow p.stats.rules 2) := by
  have hover : maxKey < 2 + ((Tree.single 5).ruleCount .inner - 1) := by
    rw [ruleCount_single]
    decide
  obtain ⟨p, hp, -, hreported, -⟩ := overflow_reported
    (s := { Settings.default with priorityBase := 2 }) (declared_of_extract extract_single)
    nofun hover
  exact ⟨p, hp, (hreported (.inr (Nat.le_refl 2))).2⟩

/-- From the base 1 on it is not, though the priorities run past the largest word and no limit is
set. -/
theorem overflow_hidden_single :
    (Tree.single 5).Declared .inner ∧
      Settings.default.checkLimit (clamp ((Tree.single 5).ruleCount .inner)) = .ok () ∧
      maxKey < Settings.default.priorityBase + ((Tree.single 5).ruleCount .inner - 1) ∧
      ¬ ∃ rules base, compile .default (Tree.single 5) .inner =
        .error (.priorityOverflow rules base) := by
  have hd := declared_of_extract extract_single
  have hbig : maxKey < (Tree.single 5).ruleCount .inner := by
    rw [ruleCount_single]
    decide
  have hl : Settings.default.Allows (clamp ((Tree.single 5).ruleCount .inner)) := nofun
  refine ⟨hd, checkLimit_eq_ok.2 hl, ?_, fun ⟨rules, base, h⟩ => ?_⟩
  · rw [ruleCount_single]
    decide
  · rw [compile_eq_priorityOverflow_iff hd hl, checkPriorities_clamp hbig (by decide)] at h
    cases h

end TernaryRules
