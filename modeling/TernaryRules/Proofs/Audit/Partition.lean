import Mathlib.Data.List.Count
import TernaryRules.Proofs.Classification
import TernaryRules.Proofs.Odometer.Check
import TernaryRules.Rule.Audit

/-!
# Audits of partitions

An audit of rules goes through the points of the declared domain with an odometer and stops at the
first that does not meet exactly one rule (`Audit.partitions_eq_ok_iff`,
`Audit.partitions_eq_error_iff`).

A point meets exactly one rule when one rule is counted that accepts it (`meetsOne_iff`).  When the
rules are chosen by position from those of a compilation, that is how often the position of the one
rule for the point was chosen (`countP_accepts_chosen`).  Each position has a point, so the audit
passes when each was chosen once (`meetsOne_chosen_iff`).
-/

namespace TernaryRules

/-! ### Points that meet one rule -/

/-- The rule at exactly one position accepts the point. -/
def MeetsOne (rules : List Rule) (point : List Nat) : Prop :=
  ∃! k : Nat, ∃ r, rules[k]? = some r ∧ r.accepts point = true

/-- How a point fails to meet exactly one rule. -/
inductive Mismatch (rules : List Rule) (point : List Nat) : AuditFault → Prop
  | none : (∀ r ∈ rules, r.accepts point = false) → Mismatch rules point (.noMatch point)
  | many : 2 ≤ rules.countP (·.accepts point) →
      Mismatch rules point
        (.manyMatches point ((rules.filter (·.accepts point)).map Rule.priority))

section Points

variable {rules : List Rule} {point : List Nat}

theorem meetsOne_iff : MeetsOne rules point ↔ rules.countP (·.accepts point) = 1 :=
  existsUnique_position_iff

theorem countP_accepts_eq_zero_iff :
    rules.countP (·.accepts point) = 0 ↔ ∀ r ∈ rules, r.accepts point = false := by
  simp only [List.countP_eq_zero, Bool.not_eq_true]

theorem Mismatch.not_meetsOne {e : AuditFault} (h : Mismatch rules point e) :
    ¬ MeetsOne rules point := by
  rw [meetsOne_iff]
  cases h with
  | none hnone =>
      rw [countP_accepts_eq_zero_iff.2 hnone]
      exact Nat.zero_ne_one
  | many hmany => exact fun hone => absurd (hone ▸ hmany) (by decide)

theorem Mismatch.unique {e e' : AuditFault} (h : Mismatch rules point e)
    (h' : Mismatch rules point e') : e = e' := by
  cases h with
  | none hnone =>
      cases h' with
      | none => rfl
      | many hmany => exact absurd (countP_accepts_eq_zero_iff.2 hnone ▸ hmany) (by decide)
  | many hmany =>
      cases h' with
      | none hnone => exact absurd (countP_accepts_eq_zero_iff.2 hnone ▸ hmany) (by decide)
      | many => rfl

namespace Audit

/-- Whether a point meets exactly one rule. -/
def meets (rules : List Rule) (point : List Nat) : Except AuditFault Unit :=
  (singleMatch rules point).map fun _ => ()

/-- A point meets exactly one rule, or it is reported how it does not. -/
theorem meets_spec (rules : List Rule) (point : List Nat) :
    match meets rules point with
    | .ok () => MeetsOne rules point
    | .error e => Mismatch rules point e := by
  have hcount : rules.countP (·.accepts point) = (accepting rules point).length :=
    List.countP_eq_length_filter
  rw [meets, singleMatch]
  cases haccepting : accepting rules point with
  | nil =>
      refine .none (countP_accepts_eq_zero_iff.1 ?_)
      rw [hcount, haccepting, List.length_nil]
  | cons r rest =>
      cases rest with
      | nil =>
          refine meetsOne_iff.2 ?_
          rw [hcount, haccepting, List.length_singleton]
      | cons r' rest =>
          have hmany : Mismatch rules point
              (.manyMatches point ((accepting rules point).map Rule.priority)) := by
            refine .many ?_
            rw [hcount, haccepting, List.length_cons, List.length_cons]
            exact Nat.le_add_left _ _
          rw [haccepting] at hmany
          exact hmany

theorem meets_eq_ok_iff : meets rules point = .ok () ↔ MeetsOne rules point := by
  have h := meets_spec rules point
  cases hmeets : meets rules point with
  | ok _ =>
      rw [hmeets] at h
      exact iff_of_true rfl h
  | error e =>
      rw [hmeets] at h
      exact iff_of_false nofun h.not_meetsOne

theorem mismatch_of_meets {e : AuditFault} (h : meets rules point = .error e) :
    Mismatch rules point e := by
  have hspec := meets_spec rules point
  rw [h] at hspec
  exact hspec

end Audit

end Points

/-! ### The points that an audit looks at -/

/-- The declared ranges. -/
abbrev FeatureTable.ranges (table : FeatureTable) : List Interval :=
  table.features.map Feature.range

/-- The points of the declared domain, the last coordinate changing fastest. -/
def FeatureTable.points (table : FeatureTable) : List (List Nat) :=
  Odometer.settings table.ranges

/-- In a list in increasing order, what is less than an item stands before it. -/
theorem mem_of_lt_of_isPrefix {items before : List (List Nat)} {p q : List Nat}
    (h : items.Pairwise (· < ·)) (hp : before ++ [p] <+: items) (hq : q ∈ items) (hlt : q < p) :
    q ∈ before := by
  obtain ⟨after, rfl⟩ := hp
  rw [List.append_assoc, List.singleton_append] at h hq
  obtain ⟨-, hafter, -⟩ := List.pairwise_append.1 h
  rcases List.mem_append.1 hq with hq | hq
  · exact hq
  · rcases List.mem_cons.1 hq with rfl | hq
    · exact absurd hlt (List.lt_irrefl q)
    · exact absurd hlt (List.lt_asymm ((List.pairwise_cons.1 hafter).1 q hq))

section Surveys

variable {rules : List Rule} {table : FeatureTable} {seen : List (List Nat)}

theorem FeatureTable.mem_points {point : List Nat} :
    point ∈ table.points ↔ table.containsPoint point = true := by
  rw [points, Odometer.mem_settings, containsPoint_eq_true]

theorem FeatureTable.points_eq_onward (table : FeatureTable) :
    table.points = Odometer.onward table.ranges (Odometer.start table.ranges) := by
  rw [points, Odometer.settings_eq_tuples, Odometer.onward_start]

/-- The first point of the domain that does not meet exactly one rule. -/
structure FirstMismatch (rules : List Rule) (table : FeatureTable) (point : List Nat)
    (e : AuditFault) : Prop where
  inside : table.containsPoint point = true
  mismatch : Mismatch rules point e
  meetsOne : ∀ q, table.containsPoint q = true → q < point → MeetsOne rules q

theorem FirstMismatch.unique {p p' : List Nat} {e e' : AuditFault}
    (h : FirstMismatch rules table p e) (h' : FirstMismatch rules table p' e') : e = e' := by
  rcases lt_trichotomy p p' with hlt | rfl | hlt
  · exact absurd (h'.meetsOne p h.inside hlt) h.mismatch.not_meetsOne
  · exact h.mismatch.unique h'.mismatch
  · exact absurd (h.meetsOne p' h'.inside hlt) h'.mismatch.not_meetsOne

namespace Audit

/-- The points that an audit has looked at. -/
def Looks (rules : List Rule) (table : FeatureTable) (seen : List (List Nat)) : Prop :=
  Odometer.Checks (meets rules) table.ranges (Odometer.start table.ranges) seen
    (partitions rules table)

theorem exists_looks (rules : List Rule) (table : FeatureTable) : ∃ seen, Looks rules table seen :=
  Odometer.exists_checks (meets rules) table.ranges (Odometer.start table.ranges)

namespace Looks

theorem isPrefix (h : Looks rules table seen) : seen <+: table.points :=
  table.points_eq_onward ▸ h.seen_isPrefix

theorem containsPoint (h : Looks rules table seen) :
    ∀ p ∈ seen, table.containsPoint p = true := fun _ hp =>
  FeatureTable.mem_points.1 (h.isPrefix.mem hp)

theorem of_ok (h : Looks rules table seen) (hok : partitions rules table = .ok ()) :
    seen = table.points ∧ ∀ p, table.containsPoint p = true → MeetsOne rules p := by
  obtain ⟨hseen, hpassed⟩ := h.all_passed hok
  rw [← FeatureTable.points_eq_onward] at hseen
  refine ⟨hseen, fun p hp => meets_eq_ok_iff.1 (hpassed p ?_)⟩
  rw [hseen]
  exact FeatureTable.mem_points.2 hp

/-- An audit that fails has looked at the points before the first mismatch, and at that one. -/
theorem exists_firstMismatch (h : Looks rules table seen) {e : AuditFault}
    (herror : partitions rules table = .error e) :
    ∃ p, FirstMismatch rules table p e ∧
      ∃ before, seen = before ++ [p] ∧ ∀ q ∈ before, MeetsOne rules q := by
  obtain ⟨before, p, rfl, hpassed, hfailed⟩ := h.first_failed herror
  have hbefore : ∀ q ∈ before, MeetsOne rules q := fun q hq => meets_eq_ok_iff.1 (hpassed q hq)
  refine ⟨p, ⟨h.containsPoint p (by simp), mismatch_of_meets hfailed, fun q hq hlt => ?_⟩,
    before, rfl, hbefore⟩
  exact hbefore q (mem_of_lt_of_isPrefix (Odometer.settings_increasing _) h.isPrefix
    (FeatureTable.mem_points.2 hq) hlt)

end Looks

/-- **An audit passes when each point of the domain meets exactly one rule.** -/
theorem partitions_eq_ok_iff :
    partitions rules table = .ok () ↔
      ∀ p, table.containsPoint p = true → MeetsOne rules p := by
  obtain ⟨seen, h⟩ := exists_looks rules table
  constructor
  · exact fun hok => (h.of_ok hok).2
  · intro hone
    cases hresult : partitions rules table with
    | ok _ => rfl
    | error e =>
        obtain ⟨p, hp, -⟩ := h.exists_firstMismatch hresult
        exact absurd (hone p hp.inside) hp.mismatch.not_meetsOne

/-- **An audit fails at the first point that does not.** -/
theorem partitions_eq_error_iff {e : AuditFault} :
    partitions rules table = .error e ↔ ∃ p, FirstMismatch rules table p e := by
  obtain ⟨seen, h⟩ := exists_looks rules table
  constructor
  · intro herror
    obtain ⟨p, hfirst, -⟩ := h.exists_firstMismatch herror
    exact ⟨p, hfirst⟩
  · rintro ⟨p, hp⟩
    cases hresult : partitions rules table with
    | ok _ => exact absurd (partitions_eq_ok_iff.1 hresult p hp.inside) hp.mismatch.not_meetsOne
    | error e' =>
        obtain ⟨p', hp', -⟩ := h.exists_firstMismatch hresult
        rw [hp.unique hp']

/-- What an audit of rules comes to, with the points that it has looked at. -/
structure Survey (rules : List Rule) (table : FeatureTable) (seen : List (List Nat)) : Prop where
  looks : Looks rules table seen
  mem_points : ∀ p, p ∈ table.points ↔ table.containsPoint p = true
  increasing : table.points.Pairwise (· < ·)
  of_no_features : table.features = [] → table.points = [[]]
  isPrefix : seen <+: table.points
  carried : seen.IsChain fun p q => ∃ written,
    Odometer.Carry table.ranges table.size p written (q, true)
  runs_out : partitions rules table = .ok () → ∃ p written, seen.getLast? = some p ∧
    Odometer.Carry table.ranges table.size p written (Odometer.start table.ranges, false)
  in_range : ∀ p ∈ seen, ∀ written left,
    Odometer.Carry table.ranges table.size p written left →
      ∀ q ∈ p :: written, table.containsPoint q = true
  ok_iff : partitions rules table = .ok () ↔
    ∀ p, table.containsPoint p = true → MeetsOne rules p
  of_ok : partitions rules table = .ok () → seen = table.points
  error_iff : ∀ e, partitions rules table = .error e ↔ ∃ p, FirstMismatch rules table p e
  of_error : ∀ e, partitions rules table = .error e →
    ∃ p, FirstMismatch rules table p e ∧
      ∃ before, seen = before ++ [p] ∧ ∀ q ∈ before, MeetsOne rules q

theorem Looks.survey (h : Looks rules table seen) : Survey rules table seen where
  looks := h
  mem_points _ := FeatureTable.mem_points
  increasing := Odometer.settings_increasing _
  of_no_features hnil := by
    rw [FeatureTable.points, FeatureTable.ranges, hnil, Odometer.settings_eq_tuples]
    rfl
  isPrefix := h.isPrefix
  carried := by
    have hcarried := h.carried (Box.corner table.ranges)
    rw [List.length_map] at hcarried
    exact hcarried
  runs_out hok := by
    have hend := h.runs_out (Box.corner table.ranges) hok
    rw [List.length_map] at hend
    exact hend
  in_range p hp written left hcarry := by
    have hbox := FeatureTable.containsPoint_eq_true.1 (h.containsPoint p hp)
    refine List.forall_mem_cons.2 ⟨h.containsPoint p hp, fun q hq => ?_⟩
    exact FeatureTable.containsPoint_eq_true.2 (hcarry.box hbox q hq)
  ok_iff := partitions_eq_ok_iff
  of_ok hok := (h.of_ok hok).1
  error_iff _ := partitions_eq_error_iff
  of_error _ := h.exists_firstMismatch

end Audit

end Surveys

/-! ### Rules chosen by position -/

section Choices

variable {α : Type} {items chosen : List α} {indices : List Nat}

/-- The items that are chosen by position. -/
theorem eq_filterMap_of_chosen (h : indices.mapM (items[·]?) = some chosen) :
    chosen = indices.filterMap (items[·]?) ∧ ∀ i ∈ indices, i < items.length := by
  induction indices generalizing chosen with
  | nil => exact ⟨(Option.some.inj h).symm, nofun⟩
  | cons i indices ih =>
      rw [mapM_option_cons] at h
      obtain ⟨a, ha, h⟩ := Option.bind_eq_some_iff.1 h
      obtain ⟨rest, hrest, rfl⟩ := Option.map_eq_some_iff.1 h
      obtain ⟨hfilter, hlt⟩ := ih hrest
      rw [List.filterMap_cons_some ha, ← hfilter]
      exact ⟨rfl, List.forall_mem_cons.2 ⟨(List.getElem?_eq_some_iff.1 ha).1, hlt⟩⟩

theorem filterMap_positions (items : List α) :
    (List.range items.length).filterMap (items[·]?) = items := by
  have hpositions := Odometer.flatMap_positions (fun a => [a]) items
  simp only [List.flatMap_singleton'] at hpositions
  rw [List.filterMap_eq_flatMap_toList]
  exact hpositions

/-- Of a property that only the item at position `j` has, as many items are counted as that position
was chosen times. -/
theorem countP_chosen (h : indices.mapM (items[·]?) = some chosen) {test : α → Bool} {j : Nat}
    (htest : ∀ i a, items[i]? = some a → (test a = true ↔ i = j)) :
    chosen.countP test = indices.count j := by
  obtain ⟨rfl, hlt⟩ := eq_filterMap_of_chosen h
  rw [List.countP_filterMap, List.count]
  refine List.countP_congr fun i hi => ?_
  have ha := List.getElem?_eq_getElem (hlt i hi)
  rw [ha, Option.map_some, Option.getD_some, htest i _ ha, beq_iff_eq]

end Choices

variable {s : Settings} {tree : Tree} {table : FeatureTable} {output : Output}
  {indices : List Nat} {rules : List Rule}

/-- A point of the rule at position `j` meets as many of the chosen rules as that position was
chosen times. -/
theorem countP_accepts_chosen (h : compile s tree table = .ok output)
    (hchosen : indices.mapM (output.rules[·]?) = some rules) {j : Nat} {r : Rule}
    (hj : output.rules[j]? = some r) {point : List Nat} (hp : r.accepts point = true) :
    rules.countP (·.accepts point) = indices.count j := by
  refine countP_chosen hchosen fun i a hi => ⟨fun ha => ?_, ?_⟩
  · exact (rules_exclusive h).position_eq hi hj ha hp
  · rintro rfl
    rw [hi] at hj
    exact Option.some.inj hj ▸ hp

/-- **Chosen rules part the domain when each was chosen once.** -/
theorem meetsOne_chosen_iff (h : compile s tree table = .ok output)
    (hchosen : indices.mapM (output.rules[·]?) = some rules) :
    (∀ p, table.containsPoint p = true → MeetsOne rules p) ↔
      indices.Perm (List.range output.rules.length) := by
  have hrange : ∀ j, j < output.rules.length →
      (List.range output.rules.length).count j = 1 := fun j hj =>
    List.count_eq_one_of_mem List.nodup_range (List.mem_range.2 hj)
  constructor
  · refine fun hone => List.perm_iff_count.2 fun j => ?_
    by_cases hj : j < output.rules.length
    · -- the lower corner of the rule counts how often it was chosen
      have hr := List.getElem?_eq_getElem hj
      have hcorner := Rule.accepts_eq_true.2 (matches_corner output.rules[j].blocks)
      obtain ⟨hdomain, -⟩ := evaluate_of_accepts h (List.getElem_mem hj) hcorner
      rw [← countP_accepts_chosen h hchosen hr hcorner, meetsOne_iff.1 (hone _ hdomain),
        hrange j hj]
    · obtain ⟨-, hlt⟩ := eq_filterMap_of_chosen hchosen
      rw [List.count_eq_zero.2 fun hmem => hj (hlt j hmem),
        List.count_eq_zero.2 fun hmem => hj (List.mem_range.1 hmem)]
  · intro hperm p hp
    obtain ⟨r, hr, ha⟩ := exists_accepts h hp
    obtain ⟨j, hj⟩ := List.getElem?_of_mem hr
    obtain ⟨hlt, -⟩ := List.getElem?_eq_some_iff.1 hj
    rw [meetsOne_iff, countP_accepts_chosen h hchosen hj ha, hperm.count_eq, hrange j hlt]

/-- The rules that are chosen are all of them in some order when their positions are. -/
theorem chosen_perm (hchosen : indices.mapM (output.rules[·]?) = some rules)
    (hperm : indices.Perm (List.range output.rules.length)) : rules.Perm output.rules := by
  have hrules := hperm.filterMap (output.rules[·]?)
  rw [filterMap_positions, ← (eq_filterMap_of_chosen hchosen).1] at hrules
  exact hrules

theorem meetsOne_of_perm (h : compile s tree table = .ok output) (hperm : rules.Perm output.rules) :
    ∀ p, table.containsPoint p = true → MeetsOne rules p := by
  intro p hp
  rw [meetsOne_iff, hperm.countP_eq, ← meetsOne_iff]
  exact (rules_exclusive h).existsUnique_position (exists_accepts h hp)

/-- **Audits of partitions are exact.**  An audit looks at the points of the domain in lexicographic
order, and stays inside of it also while it carries.  It passes when each point meets exactly one
rule, and otherwise fails at the first point that does not.  Rules that are chosen from those of a
compilation pass when they are all of these, each chosen once. -/
theorem partitions_survey (rules : List Rule) (table : FeatureTable) :
    (∃ seen, Audit.Survey rules table seen) ∧
    ∀ s tree output, compile s tree table = .ok output →
      ∀ indices : List Nat, indices.mapM (output.rules[·]?) = some rules →
        (Audit.partitions rules table = .ok () ↔
          indices.Perm (List.range output.rules.length)) ∧
        (Audit.partitions rules table = .ok () ↔ rules.Perm output.rules) := by
  obtain ⟨seen, hlooks⟩ := Audit.exists_looks rules table
  refine ⟨⟨seen, hlooks.survey⟩, fun s tree output h indices hchosen => ?_⟩
  have hpositions := meetsOne_chosen_iff h hchosen
  rw [Audit.partitions_eq_ok_iff]
  refine ⟨hpositions, fun hone => ?_, meetsOne_of_perm h⟩
  exact chosen_perm hchosen (hpositions.1 hone)

theorem partitions_survey_stump :
    ∃ output rules, compile .default (Tree.stump 7 4 9) .nibble = .ok output ∧
      ([3, 1, 0, 2] : List Nat).mapM (output.rules[·]?) = some rules ∧
      Audit.partitions rules .nibble = .ok () := by
  have hchosen : ((compile .default (Tree.stump 7 4 9) .nibble).toOption.bind fun output =>
      ([3, 1, 0, 2] : List Nat).mapM (output.rules[·]?)).isSome = true := by
    decide +kernel
  have hlength : (compile .default (Tree.stump 7 4 9) .nibble).toOption.map
      (fun output => output.rules.length) = some 4 := by
    decide +kernel
  obtain ⟨rules, hrules⟩ := Option.isSome_iff_exists.1 hchosen
  obtain ⟨output, houtput, hrules⟩ := Option.bind_eq_some_iff.1 hrules
  have h := toOption_eq_some.1 houtput
  rw [houtput] at hlength
  have hfour : output.rules.length = 4 := Option.some.inj hlength
  obtain ⟨-, hchoice⟩ := partitions_survey rules .nibble
  obtain ⟨hpositions, -⟩ := hchoice .default (Tree.stump 7 4 9) output h _ hrules
  refine ⟨output, rules, h, hrules, hpositions.2 ?_⟩
  rw [hfour]
  decide

end TernaryRules
