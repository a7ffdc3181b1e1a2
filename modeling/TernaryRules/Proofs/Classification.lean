import TernaryRules.Compile
import TernaryRules.Proofs.Expansion

/-!
# Compiled rules classify as the tree does

A compilation that succeeds has planned the regions of the tree and expanded each of them, and the
rules are the bodies of the regions, one region after the other (`compile_bodies`).  The regions
part the declared domain and the bodies of a region part the region, so a point of the domain
meets exactly one rule, of the class that the tree assigns, and no other point meets any
(`compile_classifies`).
-/

namespace TernaryRules

variable {s : Settings} {tree : Tree} {table : FeatureTable}

/-! ### What a compilation has done -/

/-- A tree passes the check that its plan begins with. -/
@[simp]
theorem Tree.recheck (tree : Tree) :
    (validate tree.nodes).mapError CompileError.malformed = .ok () :=
  mapError_eq_ok.2 tree.valid

theorem plan_eq_ok {p : Plan} :
    plan s tree table = .ok p ↔ ∃ extraction counts,
      extract tree table = .ok extraction ∧
      List.Forall₂ (fun (r : Region) n => r.countRules table = .ok n) extraction.regions counts ∧
      p = {
        regions := extraction.regions
        counts
        unreachable := extraction.unreachable
        stats := {
          leaves := tree.leafCount
          regions := extraction.regions.length
          unreachable := extraction.unreachable.length
          rules := clampedSum counts
          maxRulesPerLeaf := counts.foldl max 0
          overLimit := s.exceeds (clampedSum counts) } } := by
  simp only [plan, Tree.recheck, bind_eq_ok, mapError_eq_ok, mapM_eq_ok]
  constructor
  · rintro ⟨-, -, extraction, he, counts, hc, h⟩
    exact ⟨extraction, counts, he, hc, (Except.ok.inj h).symm⟩
  · rintro ⟨extraction, counts, he, hc, rfl⟩
    exact ⟨(), trivial, extraction, he, counts, hc, rfl⟩

theorem expandPlanned_eq_ok {region : Region} {count : Nat} {bodies : List RuleBody} :
    expandPlanned table region count = .ok bodies ↔
      region.expand table = .ok bodies ∧ bodies.length = count := by
  unfold expandPlanned
  cases region.expand table with
  | error e => exact ⟨nofun, fun h => nomatch h.1⟩
  | ok bodies' =>
      by_cases hlen : bodies'.length = count
      · simp only [if_pos hlen, Except.ok.injEq]
        constructor
        · rintro rfl
          exact ⟨rfl, hlen⟩
        · exact fun h => h.1
      · simp only [if_neg hlen, Except.ok.injEq]
        constructor
        · exact nofun
        · rintro ⟨rfl, h⟩
          exact absurd h hlen

theorem compile_eq_ok {output : Output} :
    compile s tree table = .ok output ↔ ∃ p bodies,
      plan s tree table = .ok p ∧
      s.checkLimit p.stats.rules = .ok () ∧
      s.checkPriorities p.stats.rules = .ok () ∧
      List.Forall₂ (fun (rc : Region × Nat) bs => expandPlanned table rc.1 rc.2 = .ok bs)
        (p.regions.zip p.counts) bodies ∧
      output = {
        rules := number s p.stats.rules bodies.flatten
        stats := p.stats
        unreachable := p.unreachable } := by
  simp only [compile, bind_eq_ok, mapM_eq_ok]
  constructor
  · rintro ⟨p, hp, ⟨⟩, hl, ⟨⟩, hs, bodies, hb, h⟩
    exact ⟨p, bodies, hp, hl, hs, hb, (Except.ok.inj h).symm⟩
  · rintro ⟨p, bodies, hp, hl, hs, hb, rfl⟩
    exact ⟨p, hp, (), hl, (), hs, bodies, hb, rfl⟩

/-- A rule without its priority. -/
def Rule.body (r : Rule) : RuleBody := ⟨r.blocks, r.label⟩

theorem map_body_number (rules : Nat) (bodies : List RuleBody) :
    (number s rules bodies).map Rule.body = bodies := by
  rw [number, List.map_map]
  exact List.zipIdx_map_fst 0 bodies

/-- The rules of a compilation are the bodies of the regions, one region after the other. -/
theorem compile_bodies {output : Output} (h : compile s tree table = .ok output) :
    ∃ extraction bodies, extract tree table = .ok extraction ∧
      List.Forall₂ (fun (r : Region) bs => r.expand table = .ok bs) extraction.regions bodies ∧
      output.rules.map Rule.body = bodies.flatten := by
  obtain ⟨p, bodies, hp, -, -, hb, rfl⟩ := compile_eq_ok.1 h
  obtain ⟨extraction, counts, he, hc, rfl⟩ := plan_eq_ok.1 hp
  refine ⟨extraction, bodies, he, ?_, map_body_number _ _⟩
  have hfst : (extraction.regions.zip counts).map Prod.fst = extraction.regions :=
    List.map_fst_zip (Nat.le_of_eq hc.length_eq)
  rw [← hfst, List.forall₂_map_left_iff]
  exact hb.imp fun _ _ hexpand => (expandPlanned_eq_ok.1 hexpand).1

/-! ### Points and rules -/

/-- The bodies of all regions have no point in common. -/
theorem bodies_exclusive {extraction : Extraction} {bodies : List (List RuleBody)}
    (he : extract tree table = .ok extraction)
    (hb : List.Forall₂ (fun (r : Region) bs => r.expand table = .ok bs)
      extraction.regions bodies) :
    Exclusive (fun (b : RuleBody) point => Matches b.blocks point) bodies.flatten := by
  refine (regions_exclusive he).flatten ?_
  have hmem := (List.forall₂_and_left _ _).2 ⟨fun r hr => hr, hb⟩
  refine hmem.imp fun r bs ⟨hr, hbs⟩ => ?_
  obtain ⟨hexclusive, hpoints, -⟩ := (fits_of_mem_regions he hr).bodies hbs
  exact ⟨hexclusive, fun b hb point hm => (hpoints point).1 ⟨b, hb, hm⟩⟩

/-- A rule accepts points of the declared domain only, and only those of its class. -/
theorem evaluate_of_accepts {output : Output} (h : compile s tree table = .ok output) {r : Rule}
    (hr : r ∈ output.rules) {point : List Nat} (hp : r.accepts point = true) :
    table.containsPoint point = true ∧ tree.evaluate point = some r.label := by
  obtain ⟨extraction, bodies, he, hb, hrules⟩ := compile_bodies h
  have hbody : r.body ∈ bodies.flatten := hrules ▸ List.mem_map_of_mem hr
  obtain ⟨bs, hbs, hmem⟩ := List.mem_flatten.1 hbody
  obtain ⟨region, hregion, hexpand⟩ := exists_of_mem_right hb hbs
  obtain ⟨-, hpoints, hlabel⟩ := (fits_of_mem_regions he hregion).bodies hexpand
  have hbox := (hpoints point).1 ⟨r.body, hmem, Rule.accepts_eq_true.1 hp⟩
  obtain ⟨hd, heval⟩ := evaluate_of_box he hregion hbox
  exact ⟨FeatureTable.containsPoint_eq_true.2 hd, heval.trans (congrArg some (hlabel _ hmem).symm)⟩

/-- A rule accepts each point of the declared domain. -/
theorem exists_accepts {output : Output} (h : compile s tree table = .ok output)
    {point : List Nat} (hp : table.containsPoint point = true) :
    ∃ r ∈ output.rules, r.accepts point = true := by
  obtain ⟨extraction, bodies, he, hb, hrules⟩ := compile_bodies h
  obtain ⟨region, hregion, hbox⟩ :=
    exists_region_of_box he (FeatureTable.containsPoint_eq_true.1 hp)
  obtain ⟨bs, hbs, hexpand⟩ := exists_of_mem_left hb hregion
  obtain ⟨-, hpoints, -⟩ := (fits_of_mem_regions he hregion).bodies hexpand
  obtain ⟨b, hmem, hm⟩ := (hpoints point).2 hbox
  have hbody : b ∈ output.rules.map Rule.body := hrules ▸ List.mem_flatten.2 ⟨bs, hbs, hmem⟩
  obtain ⟨r, hr, rfl⟩ := List.mem_map.1 hbody
  exact ⟨r, hr, Rule.accepts_eq_true.2 hm⟩

theorem rules_exclusive {output : Output} (h : compile s tree table = .ok output) :
    Exclusive (fun (r : Rule) point => r.accepts point = true) output.rules := by
  obtain ⟨extraction, bodies, he, hb, hrules⟩ := compile_bodies h
  have hbodies := bodies_exclusive he hb
  rw [← hrules] at hbodies
  refine (List.pairwise_map.1 hbodies).imp fun hne point hp => hne point ?_
  exact ⟨Rule.accepts_eq_true.1 hp.1, Rule.accepts_eq_true.1 hp.2⟩

/-- **Compiled rules classify as the tree does.**  At each point of the declared domain exactly one
rule accepts, and its class is the one the tree assigns; outside the domain no rule accepts.  No
two rules accept a point together. -/
theorem compile_classifies {output : Output} (h : compile s tree table = .ok output) :
    (∀ point, table.containsPoint point = true →
      (∃! k : Nat, ∃ r, output.rules[k]? = some r ∧ r.accepts point = true) ∧
      ∀ r ∈ output.rules, r.accepts point = true → tree.evaluate point = some r.label) ∧
    (∀ point, table.containsPoint point = false →
      ∀ r ∈ output.rules, r.accepts point = false) ∧
    output.rules.Pairwise fun a b =>
      ∀ point, ¬ (a.accepts point = true ∧ b.accepts point = true) := by
  refine ⟨fun point hp => ⟨?_, ?_⟩, fun point hp r hr => ?_, rules_exclusive h⟩
  · exact (rules_exclusive h).existsUnique_position (exists_accepts h hp)
  · intro r hr ha
    exact (evaluate_of_accepts h hr ha).2
  · rw [← Bool.not_eq_true]
    intro ha
    rw [(evaluate_of_accepts h hr ha).1] at hp
    cases hp

theorem compile_classifies_stump :
    ∃ output, compile .default (Tree.stump 7 4 9) .nibble = .ok output ∧
      (∃! k : Nat, ∃ r, output.rules[k]? = some r ∧ r.accepts [5] = true) ∧
      ∀ r ∈ output.rules, r.accepts [5] = true →
        (Tree.stump 7 4 9).evaluate [5] = some r.label := by
  have hok : (compile .default (Tree.stump 7 4 9) .nibble).toBool = true := by decide +kernel
  cases h : compile .default (Tree.stump 7 4 9) .nibble with
  | error e =>
      rw [h] at hok
      cases hok
  | ok output => exact ⟨output, rfl, (compile_classifies h).1 [5] (by decide)⟩

end TernaryRules
