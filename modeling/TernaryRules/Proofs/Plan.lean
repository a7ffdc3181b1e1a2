import Mathlib.Algebra.Order.BigOperators.Group.List
import Mathlib.Data.List.SplitLengths
import TernaryRules.Proofs.Census
import TernaryRules.Proofs.Classification
import TernaryRules.Proofs.Count

/-!
# Plans

A tree whose splits are all declared has a plan, and the plan holds the numbers of rules of the
regions and of the tree, clamped (`plan_of_extract`).  When the number of rules of the tree is a
word (`Tree.ruleCount` is at most `maxKey`) nothing is clamped, so the plan knows how the
compilation goes on: each region is expanded to as many rules as planned (`exists_expansion`), and
the rules come region by region in lists of the planned lengths (`compile_planned`).
-/

namespace TernaryRules

variable {s : Settings} {tree : Tree} {table : FeatureTable} {extraction : Extraction}

/-! ### The number of rules of a tree -/

/-- The number of rules of a tree: the sum over the regions of its leaves, which is not clamped. -/
noncomputable def Tree.ruleCount (tree : Tree) (table : FeatureTable) : Nat :=
  match extract tree table with
  | .ok extraction => (extraction.regions.map fun r => r.ruleCount table).sum
  | .error _ => 0

theorem Tree.ruleCount_eq (h : extract tree table = .ok extraction) :
    tree.ruleCount table = (extraction.regions.map fun r => r.ruleCount table).sum := by
  rw [ruleCount, h]

theorem Region.ruleCount_le (h : extract tree table = .ok extraction) {r : Region}
    (hr : r ∈ extraction.regions) : r.ruleCount table ≤ tree.ruleCount table := by
  rw [Tree.ruleCount_eq h]
  exact List.le_sum_of_mem (List.mem_map_of_mem hr)

theorem Tree.one_le_ruleCount (h : extract tree table = .ok extraction) :
    1 ≤ tree.ruleCount table := by
  obtain ⟨r, hr⟩ := List.exists_mem_of_ne_nil _ (regions_ne_nil h)
  exact (fits_of_mem_regions h hr).one_le_ruleCount.trans (Region.ruleCount_le h hr)

/-! ### The plan -/

/-- The plan of the regions: the numbers of rules, clamped. -/
noncomputable def Extraction.plan (extraction : Extraction) (s : Settings) (tree : Tree)
    (table : FeatureTable) : Plan :=
  let counts := extraction.regions.map fun r => clamp (r.ruleCount table)
  { regions := extraction.regions
    counts
    unreachable := extraction.unreachable
    stats := {
      leaves := tree.leafCount
      regions := extraction.regions.length
      unreachable := extraction.unreachable.length
      rules := clamp (tree.ruleCount table)
      maxRulesPerLeaf := counts.foldl max 0
      overLimit := s.exceeds (clamp (tree.ruleCount table)) } }

theorem plan_of_extract (h : extract tree table = .ok extraction) :
    plan s tree table = .ok (extraction.plan s tree table) := by
  have hcounts : List.Forall₂ (fun (r : Region) n => r.countRules table = .ok n)
      extraction.regions (extraction.regions.map fun r => clamp (r.ruleCount table)) := by
    rw [List.forall₂_map_right_iff, List.forall₂_same]
    intro r hr
    exact (fits_of_mem_regions h hr).countRules_eq_ok
  have hsum : clampedSum (extraction.regions.map fun r => clamp (r.ruleCount table)) =
      clamp (tree.ruleCount table) := by
    rw [Tree.ruleCount_eq h, ← clampedSum_map_clamp, List.map_map]
    rfl
  refine plan_eq_ok.2 ⟨extraction, _, h, hcounts, ?_⟩
  rw [hsum]
  rfl

/-- Below the largest word the planned number of rules is the number of rules. -/
theorem Tree.ruleCount_eq_of_plan {p : Plan} (h : plan s tree table = .ok p)
    (hlt : p.stats.rules < maxKey) : tree.ruleCount table = p.stats.rules := by
  obtain ⟨extraction, -, he, -, -⟩ := plan_eq_ok.1 h
  obtain rfl := Except.ok.inj ((plan_of_extract he).symm.trans h)
  have hclamp : clamp (tree.ruleCount table) < maxKey := hlt
  by_contra hne
  rcases Nat.lt_or_ge maxKey (tree.ruleCount table) with hbig | hword
  · rw [clamp_of_lt hbig] at hclamp
    exact lt_irrefl _ hclamp
  · exact hne (clamp_of_le hword).symm

theorem Tree.ruleCount_stump : (Tree.stump 7 4 9).ruleCount .nibble = 4 := by
  have hrules : (plan .default (Tree.stump 7 4 9) .nibble).toOption.map (fun p => p.stats.rules) =
      some 4 := by decide +kernel
  cases h : plan .default (Tree.stump 7 4 9) .nibble with
  | error e =>
      rw [h] at hrules
      cases hrules
  | ok p =>
      rw [h] at hrules
      have hp : p.stats.rules = 4 := Option.some.inj hrules
      rw [Tree.ruleCount_eq_of_plan h (hp ▸ by decide), hp]

/-! ### The checks of the planned number -/

theorem checkLimit_eq_error {n : Nat} {e : CompileError} :
    s.checkLimit n = .error e ↔ ∃ limit, s.ruleLimit = some limit ∧ s.limitAction = .reject ∧
      limit < n ∧ e = .overLimit n limit := by
  unfold Settings.checkLimit
  cases s.ruleLimit with
  | none => simp
  | some limit =>
      cases s.limitAction with
      | warn => simp
      | reject => by_cases h : limit < n <;> simp [h, eq_comm]

theorem checkLimit_eq_ok {n : Nat} :
    s.checkLimit n = .ok () ↔
      ∀ limit, s.ruleLimit = some limit → s.limitAction = .reject → n ≤ limit := by
  constructor
  · intro h limit hl ha
    by_contra hlt
    rw [checkLimit_eq_error.2 ⟨limit, hl, ha, Nat.lt_of_not_le hlt, rfl⟩] at h
    cases h
  · intro h
    cases hc : s.checkLimit n with
    | ok => rfl
    | error e =>
        obtain ⟨limit, hl, ha, hlt, -⟩ := checkLimit_eq_error.1 hc
        exact absurd (h limit hl ha) (Nat.not_le.2 hlt)

theorem checkPriorities_eq_error {n : Nat} {e : CompileError} :
    s.checkPriorities n = .error e ↔
      0 < n ∧ maxKey < s.priorityBase + (n - 1) ∧ e = .priorityOverflow n s.priorityBase := by
  unfold Settings.checkPriorities
  by_cases h : 0 < n ∧ maxKey < s.priorityBase + (n - 1)
  · simp [h, eq_comm]
  · rw [if_neg h, ← and_assoc]
    exact ⟨nofun, fun he => absurd he.1 h⟩

theorem le_of_checkPriorities {n : Nat} (hpos : 0 < n) (h : s.checkPriorities n = .ok ()) :
    s.priorityBase + (n - 1) ≤ maxKey := by
  by_contra hlt
  rw [checkPriorities_eq_error.2 ⟨hpos, Nat.lt_of_not_le hlt, rfl⟩] at h
  cases h

/-! ### What follows from the plan -/

/-- A compilation with a plan fails in the first step that fails: one of the two checks of the
planned number, or the expansion of a region. -/
theorem compile_eq_error_of_extract (h : extract tree table = .ok extraction) {e : CompileError} :
    compile s tree table = .error e ↔
      s.checkLimit (clamp (tree.ruleCount table)) = .error e ∨
        s.checkLimit (clamp (tree.ruleCount table)) = .ok () ∧
          (s.checkPriorities (clamp (tree.ruleCount table)) = .error e ∨
            s.checkPriorities (clamp (tree.ruleCount table)) = .ok () ∧
              (extraction.regions.zip (extraction.plan s tree table).counts).mapM
                (fun (region, count) => expandPlanned table region count) = .error e) := by
  simp only [compile, plan_of_extract h, bind_eq_error]
  constructor
  · rintro (⟨⟨⟩⟩ | ⟨p, ⟨⟩, hlimit | ⟨⟨⟩, hlimit, hpriorities | ⟨⟨⟩, hpriorities, hexpand⟩⟩⟩)
    · exact .inl hlimit
    · exact .inr ⟨hlimit, .inl hpriorities⟩
    · obtain hexpand | ⟨_, _, ⟨⟩⟩ := hexpand
      exact .inr ⟨hlimit, .inr ⟨hpriorities, hexpand⟩⟩
  · rintro (hlimit | ⟨hlimit, hpriorities | ⟨hpriorities, hexpand⟩⟩)
    · exact .inr ⟨_, rfl, .inl hlimit⟩
    · exact .inr ⟨_, rfl, .inr ⟨(), hlimit, .inl hpriorities⟩⟩
    · exact .inr ⟨_, rfl, .inr ⟨(), hlimit, .inr ⟨(), hpriorities, .inl hexpand⟩⟩⟩

/-- **The regions are expanded as planned**, when no number was clamped: the expansion does not
fail, and the numbers of rules compare equal. -/
theorem exists_expansion (h : extract tree table = .ok extraction)
    (hn : tree.ruleCount table ≤ maxKey) :
    ∃ bodies, (extraction.regions.zip (extraction.plan s tree table).counts).mapM
      (fun (region, count) => expandPlanned table region count) = .ok bodies := by
  have hregion : ∀ r ∈ extraction.regions,
      ∃ bodies, expandPlanned table r (clamp (r.ruleCount table)) = .ok bodies := by
    intro r hr
    have hfits := fits_of_mem_regions h hr
    obtain ⟨lists, -, hexpand⟩ := hfits.expand_eq_ok
    -- the number planned for the region is not clamped, as it is at most that of the tree
    refine ⟨_, expandPlanned_eq_ok.2 ⟨hexpand, ?_⟩⟩
    rw [hfits.length_bodies hexpand, clamp_of_le ((Region.ruleCount_le h hr).trans hn)]
  obtain ⟨bodies, hbodies⟩ := exists_forall₂_iff.2 hregion
  refine ⟨bodies, mapM_eq_ok.2 ?_⟩
  rwa [Extraction.plan, ← List.map_prod_left_eq_zip, List.forall₂_map_left_iff]

/-! ### The rules of a compilation, region by region -/

theorem splitLengths_flatten {α : Type} : ∀ lists : List (List α),
    (lists.map List.length).splitLengths lists.flatten = lists
  | [] => rfl
  | items :: lists => by
      rw [List.map_cons, List.flatten_cons, List.splitLengths_cons, List.take_left,
        List.drop_left, splitLengths_flatten lists]

theorem map_splitLengths {α β : Type} (f : α → β) : ∀ (lengths : List Nat) (items : List α),
    (lengths.splitLengths items).map (List.map f) = lengths.splitLengths (items.map f)
  | [], _ => rfl
  | n :: lengths, items => by
      rw [List.splitLengths_cons, List.map_cons, map_splitLengths f lengths, List.map_take,
        List.map_drop, List.splitLengths_cons]

/-- What a plan says about the output of the compilation. -/
structure Plan.Predicts (p : Plan) (table : FeatureTable) (output : Output) : Prop where
  stats_eq : p.stats = output.stats
  unreachable_eq : p.unreachable = output.unreachable
  length_counts : p.counts.length = p.regions.length
  one_le_counts : ∀ n ∈ p.counts, 1 ≤ n
  sum_counts : p.counts.sum = output.rules.length
  length_rules : output.rules.length = output.stats.rules
  max_mem_counts : output.stats.maxRulesPerLeaf ∈ p.counts
  counts_le_max : ∀ n ∈ p.counts, n ≤ output.stats.maxRulesPerLeaf
  chunks : List.Forall₂ (fun region rules => ∃ bodies, region.expand table = .ok bodies ∧
      rules.map Rule.blocks = bodies.map RuleBody.blocks ∧
      ∀ rule ∈ rules, rule.label = region.label)
    p.regions (p.counts.splitLengths output.rules)
  regions_eq : output.stats.regions = p.regions.length
  unreachable_length : output.stats.unreachable = p.unreachable.length
  leaves_eq : output.stats.regions + output.stats.unreachable = output.stats.leaves
  one_le_regions : 1 ≤ output.stats.regions

/-- The rules of a compilation are the bodies of the regions, in lists of the planned lengths. -/
theorem compile_planned {output : Output} (h : compile s tree table = .ok output) :
    ∃ extraction bodies, extract tree table = .ok extraction ∧
      List.Forall₂ (fun (r : Region) bs => r.expand table = .ok bs) extraction.regions bodies ∧
      bodies.map List.length = (extraction.plan s tree table).counts ∧
      s.checkPriorities (clamp (tree.ruleCount table)) = .ok () ∧
      output = {
        rules := number s (clamp (tree.ruleCount table)) bodies.flatten
        stats := (extraction.plan s tree table).stats
        unreachable := extraction.unreachable } := by
  obtain ⟨p, bodies, hp, -, hcheck, hb, rfl⟩ := compile_eq_ok.1 h
  obtain ⟨extraction, -, he, -, -⟩ := plan_eq_ok.1 hp
  obtain rfl := Except.ok.inj ((plan_of_extract he).symm.trans hp)
  rw [Extraction.plan, ← List.map_prod_left_eq_zip, List.forall₂_map_left_iff] at hb
  refine ⟨extraction, bodies, he, hb.imp fun r bs hbs => (expandPlanned_eq_ok.1 hbs).1, ?_,
    hcheck, rfl⟩
  rw [← List.forall₂_eq_eq_eq, Extraction.plan, List.forall₂_map_left_iff,
    List.forall₂_map_right_iff]
  exact hb.flip.imp fun bs r hbs => (expandPlanned_eq_ok.1 hbs).2

/-- Lists of the planned lengths have as many items as the tree has rules, when no number was
clamped. -/
theorem length_flatten_eq {α : Type} {lists : List (List α)}
    (h : extract tree table = .ok extraction) (hn : tree.ruleCount table ≤ maxKey)
    (hlengths : lists.map List.length = (extraction.plan s tree table).counts) :
    lists.flatten.length = tree.ruleCount table := by
  rw [List.length_flatten, hlengths, Tree.ruleCount_eq h]
  refine congrArg List.sum (List.map_congr_left fun r hr => ?_)
  exact clamp_of_le ((Region.ruleCount_le h hr).trans hn)

theorem length_number (rules : Nat) (bodies : List RuleBody) :
    (number s rules bodies).length = bodies.length := by
  rw [number, List.length_map, List.length_zipIdx]

theorem foldl_max_mem {counts : List Nat} (h : counts ≠ []) :
    counts.foldl max 0 ∈ counts ∧ ∀ n ∈ counts, n ≤ counts.foldl max 0 := by
  obtain ⟨m, hm⟩ := Option.isSome_iff_exists.1 (List.isSome_max?_of_ne_nil h)
  rw [List.foldl_max, hm, Option.getD_some, Nat.zero_max]
  exact List.max?_eq_some_iff.1 hm

/-- Each planned number is at least 1: a region has a rule. -/
theorem Extraction.one_le_counts (h : extract tree table = .ok extraction) {n : Nat}
    (hn : n ∈ (extraction.plan s tree table).counts) : 1 ≤ n := by
  obtain ⟨r, hr, rfl⟩ := List.mem_map.1 hn
  exact one_le_clamp (fits_of_mem_regions h hr).one_le_ruleCount

theorem Extraction.counts_ne_nil (h : extract tree table = .ok extraction) :
    (extraction.plan s tree table).counts ≠ [] := by
  intro hnil
  exact regions_ne_nil h (List.map_eq_nil_iff.1 hnil)

/-- Rules that are cut into lists of the lengths of the expanded regions are those regions' rules:
the same blocks in the same order, with the label of the region. -/
theorem chunks_number (h : extract tree table = .ok extraction) {bodies : List (List RuleBody)}
    (hb : List.Forall₂ (fun (r : Region) bs => r.expand table = .ok bs) extraction.regions bodies)
    (rules : Nat) :
    List.Forall₂ (fun region chunk => ∃ bs, region.expand table = .ok bs ∧
        chunk.map Rule.blocks = bs.map RuleBody.blocks ∧
        ∀ rule ∈ chunk, rule.label = region.label)
      extraction.regions
      ((bodies.map List.length).splitLengths (number s rules bodies.flatten)) := by
  -- numbering leaves the bodies alone, so it does not matter whether it comes before the cut
  have hcut : ((bodies.map List.length).splitLengths (number s rules bodies.flatten)).map
      (List.map Rule.body) = bodies := by
    rw [map_splitLengths, map_body_number, splitLengths_flatten]
  rw [← hcut, List.forall₂_map_right_iff] at hb
  have hmem := (List.forall₂_and_left _ _).2 ⟨fun r hr => hr, hb⟩
  refine hmem.imp fun r chunk ⟨hr, hexpand⟩ => ⟨_, hexpand, ?_, ?_⟩
  · rw [List.map_map]
    rfl
  · intro rule hrule
    exact ((fits_of_mem_regions h hr).bodies hexpand).2.2 _ (List.mem_map_of_mem hrule)

/-- **The plan predicts the compilation.** -/
theorem plan_predicts {output : Output} (hn : tree.ruleCount table ≤ maxKey)
    (h : compile s tree table = .ok output) :
    ∃ p, plan s tree table = .ok p ∧ p.Predicts table output := by
  obtain ⟨extraction, bodies, he, hb, hlengths, -, rfl⟩ := compile_planned h
  have hmax := foldl_max_mem (extraction.counts_ne_nil (s := s) he)
  refine ⟨_, plan_of_extract he, {
    stats_eq := rfl
    unreachable_eq := rfl
    length_counts := List.length_map _
    one_le_counts := fun n hn => extraction.one_le_counts he hn
    sum_counts := ?_
    length_rules := ?_
    max_mem_counts := hmax.1
    counts_le_max := hmax.2
    chunks := hlengths ▸ chunks_number he hb _
    regions_eq := rfl
    unreachable_length := rfl
    leaves_eq := length_regions_add he
    one_le_regions := List.length_pos_of_ne_nil (regions_ne_nil he) }⟩
  · rw [length_number, List.length_flatten, hlengths]
  · rw [length_number, length_flatten_eq he hn hlengths]
    exact (clamp_of_le hn).symm

theorem plan_predicts_stump :
    ∃ output, compile .default (Tree.stump 7 4 9) .nibble = .ok output ∧
      ∃ p, plan .default (Tree.stump 7 4 9) .nibble = .ok p ∧ p.Predicts .nibble output := by
  have hn : (Tree.stump 7 4 9).ruleCount .nibble ≤ maxKey := by
    rw [Tree.ruleCount_stump]
    decide
  have hok : (compile .default (Tree.stump 7 4 9) .nibble).toBool = true := by decide +kernel
  cases h : compile .default (Tree.stump 7 4 9) .nibble with
  | error e =>
      rw [h] at hok
      cases hok
  | ok output => exact ⟨output, rfl, plan_predicts hn h⟩

end TernaryRules
