import TernaryRules.Proofs.Saturation

/-!
# Clamped totals

A plan multiplies the numbers of blocks of a region and adds up the numbers of rules of the regions,
and clamps after each step.  No factor is zero, so what comes out are the exact products, sums and
maxima, clamped once (`Plan.Clamps`, `plan_clamps`).  A limit below `maxKey` is therefore compared
as it would be with the exact number (`lt_clamp_iff`), and a compilation that is to keep the limit
is refused if and only if the exact number is above it.
-/

namespace TernaryRules

variable {s : Settings} {tree : Tree} {table : FeatureTable}

/-! ### Comparing and maximising clamped numbers -/

/-- Below `maxKey` a bound does not see whether a number is clamped. -/
theorem lt_clamp_iff {limit n : Nat} (h : limit < maxKey) : limit < clamp n ↔ limit < n := by
  rw [clamp, Nat.lt_min, and_iff_left h]

theorem clamp_max (m n : Nat) : clamp (max m n) = max (clamp m) (clamp n) := by
  simp only [clamp]
  omega

theorem foldl_max_map_clamp (counts : List Nat) :
    (counts.map clamp).foldl max 0 = clamp (counts.foldl max 0) := by
  have hfold : ∀ most, (counts.map clamp).foldl max (clamp most) =
      clamp (counts.foldl max most) := by
    induction counts with
    | nil => exact fun most => rfl
    | cons n counts ih =>
        intro most
        rw [List.map_cons, List.foldl_cons, List.foldl_cons, ← clamp_max, ih]
  exact hfold 0

/-! ### The numbers of a plan -/

/-- The number of rules of a region, however large: the product of the numbers of blocks that the
intervals are covered by. -/
def Region.Yields (r : Region) (table : FeatureTable) (rules : Nat) : Prop :=
  ∃ counts, List.Forall₂ (fun (i, f) n => blockCount f.field i.lo i.hi = .ok n)
      (r.intervals.zip table.features) counts ∧ rules = counts.prod

theorem Region.Fits.yields {r : Region} (h : r.Fits table) :
    r.Yields table (r.ruleCount table) :=
  ⟨r.blockCounts table, mapM_eq_ok.1 h.mapM_blockCount, rfl⟩

/-- The numbers of a plan are those of its regions, each clamped once. -/
structure Plan.Clamps (p : Plan) (table : FeatureTable) (totals : List Nat) : Prop where
  yields : List.Forall₂ (fun r rules => r.Yields table rules) p.regions totals
  counts_eq : p.counts = totals.map clamp
  rules_eq : p.stats.rules = clamp totals.sum
  max_eq : ∃ most, totals.max? = some most ∧ p.stats.maxRulesPerLeaf = clamp most

theorem Extraction.clamps_plan {extraction : Extraction}
    (h : extract tree table = .ok extraction) :
    (extraction.plan s tree table).Clamps table
      (extraction.regions.map fun r => r.ruleCount table) where
  yields := by
    rw [List.forall₂_map_right_iff]
    exact List.forall₂_same.2 fun r hr => (fits_of_mem_regions h hr).yields
  counts_eq := by
    rw [List.map_map]
    rfl
  rules_eq := congrArg clamp (Tree.ruleCount_eq h)
  max_eq := by
    have hne : (extraction.regions.map fun r => r.ruleCount table) ≠ [] := fun hnil =>
      regions_ne_nil h (List.map_eq_nil_iff.1 hnil)
    refine ⟨_, List.max?_eq_some_iff.2 (foldl_max_mem hne), ?_⟩
    rw [← foldl_max_map_clamp, List.map_map]
    rfl

/-- A compilation is refused for its limit when the planned number is above it. -/
theorem compile_eq_overLimit_iff (hd : tree.Declared table) {rules limit : Nat} :
    compile s tree table = .error (.overLimit rules limit) ↔
      s.ruleLimit = some limit ∧ s.limitAction = .reject ∧
        limit < clamp (tree.ruleCount table) ∧ rules = clamp (tree.ruleCount table) := by
  rw [compile_eq_error_iff_planned hd (.overLimit rules limit) nofun nofun, checkLimit_eq_error,
    checkPriorities_eq_error]
  constructor
  · rintro (⟨limit, hl, ha, hlt, ⟨⟩⟩ | ⟨-, -, -, ⟨⟩⟩)
    exact ⟨hl, ha, hlt, rfl⟩
  · rintro ⟨hl, ha, hlt, rfl⟩
    exact .inl ⟨limit, hl, ha, hlt, rfl⟩

/-- **Saturating totals are exact clamps.**  With all splits declared there is a plan, its numbers
are the exact ones clamped once, and a limit below `maxKey` is exceeded, and refused where the
settings ask for it, if and only if the exact number of rules is above it. -/
theorem plan_clamps (hd : tree.Declared table) :
    ∃ p totals, plan s tree table = .ok p ∧
      extract tree table = .ok ⟨p.regions, p.unreachable⟩ ∧ p.Clamps table totals ∧
      (s.ruleLimit = none → p.stats.overLimit = false) ∧
      ∀ limit < maxKey,
        (s.ruleLimit = some limit → (p.stats.overLimit = true ↔ limit < totals.sum)) ∧
        ∀ rules, compile s tree table = .error (.overLimit rules limit) ↔
          s.ruleLimit = some limit ∧ s.limitAction = .reject ∧ limit < totals.sum ∧
            rules = clamp totals.sum := by
  obtain ⟨extraction, he⟩ := exists_extraction hd
  refine ⟨_, _, plan_of_extract he, he, extraction.clamps_plan he, fun hnone => ?_,
    fun limit hlimit => ⟨fun hsome => ?_, fun rules => ?_⟩⟩
  · simp only [Extraction.plan, Settings.exceeds, hnone]
  · simp only [Extraction.plan, Settings.exceeds, hsome, decide_eq_true_eq, lt_clamp_iff hlimit,
      Tree.ruleCount_eq he]
  · rw [compile_eq_overLimit_iff hd, lt_clamp_iff hlimit, Tree.ruleCount_eq he]

/-- One leaf with more rules than a word counts is refused for each limit that is below the largest
word, from no rules at all up to the last one. -/
theorem plan_clamps_single :
    compile (.refusing (maxKey - 1)) (Tree.single 5) .inner =
        .error (.overLimit maxKey (maxKey - 1)) ∧
      compile (.refusing 0) (Tree.single 5) .inner = .error (.overLimit maxKey 0) := by
  have hrefused (limit : Nat) (hlt : limit < maxKey) :
      compile (.refusing limit) (Tree.single 5) .inner = .error (.overLimit maxKey limit) := by
    obtain ⟨p, totals, hp, -, hclamps, -, hlimit⟩ :=
      plan_clamps (s := .refusing limit) (declared_of_extract extract_single)
    have hrules : clamp totals.sum = maxKey := by
      rw [← hclamps.rules_eq, Except.ok.inj (hp.symm.trans (plan_of_extract extract_single))]
      exact clamp_of_lt (ruleCount_single ▸ by decide)
    have hsum : maxKey ≤ totals.sum := hrules ▸ Nat.min_le_left _ _
    exact ((hlimit limit hlt).2 maxKey).2 ⟨rfl, rfl, Nat.lt_of_lt_of_le hlt hsum, hrules.symm⟩
  exact ⟨hrefused _ (by decide), hrefused _ (by decide)⟩

end TernaryRules
