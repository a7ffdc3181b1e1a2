import TernaryRules.Proofs.Evaluation
import TernaryRules.Proofs.Refusal

/-!
# Renumbering the nodes of a tree

A decision tree keeps its nodes at positions, and a renumbering moves them to others
(`Renumbers`): node 0 stays where it is, and children are referred to by their new positions.  The
renumbered nodes are again a tree, of the shape with the new positions (`Renumbers.fills`).

Nothing looks at positions but to find nodes.  So a point comes to the leaf at the new position, and
extraction finds the same regions in the same order (`Shape.extract_rename`).  The rules of a region
do not depend on the position of its leaf, so compilation makes the same rules
(`Renumbers.compile_eq`), or fails in both cases; only what it complains of may be another split.
The main statement is `layout_irrelevant`.
-/

namespace TernaryRules

variable {f : NodeId → NodeId} {nodes nodes' : Array Node}

/-! ### Nodes and shapes at other positions -/

/-- The node with other positions of its children. -/
def Node.rename (f : NodeId → NodeId) : Node → Node
  | .leaf label => .leaf label
  | .split condition left right => .split condition (f left) (f right)

@[simp] theorem Node.label?_rename (n : Node) : (n.rename f).label? = n.label? := by
  cases n <;> rfl

namespace Shape

/-- The shape with its nodes at other positions. -/
def rename (f : NodeId → NodeId) : Shape → Shape
  | .leaf id label => .leaf (f id) label
  | .split id condition left right => .split (f id) condition (left.rename f) (right.rename f)

@[simp] theorem root_rename (s : Shape) : (s.rename f).root = f s.root := by
  cases s <;> rfl

theorem ids_rename : ∀ s : Shape, (s.rename f).ids = s.ids.map f
  | .leaf _ _ => rfl
  | .split _ _ left right => by
      simp only [rename, ids, left.ids_rename, right.ids_rename, List.map_cons, List.map_append]

theorem leaves_rename : ∀ s : Shape, (s.rename f).leaves = s.leaves.map (Prod.map f id)
  | .leaf _ _ => rfl
  | .split _ _ left right => by
      simp only [rename, leaves, left.leaves_rename, right.leaves_rename, List.map_append]

theorem descend_rename (point : List Nat) : ∀ s : Shape,
    (s.rename f).descend point = (s.descend point).map f
  | .leaf _ _ => rfl
  | .split _ condition left right => by
      simp only [rename, descend]
      cases point[condition.feature.toNat]? with
      | none => rfl
      | some v => by_cases hg : condition.goesLeft v = true <;>
          simp [hg, left.descend_rename point, right.descend_rename point]

end Shape

/-- The nodes stand in the other list at the positions that `f` gives them. -/
structure Renumbers (f : NodeId → NodeId) (nodes nodes' : Array Node) : Prop where
  root : f 0 = 0
  node : ∀ {id n}, nodes[id.toNat]? = some n → nodes'[(f id).toNat]? = some (n.rename f)
  injOn : ∀ {id id'}, id.toNat < nodes.size → id'.toNat < nodes.size → f id = f id' → id = id'
  onto : ∀ i < nodes'.size, ∃ id : NodeId, id.toNat < nodes.size ∧ (f id).toNat = i

theorem Renumbers.storedIn (h : Renumbers f nodes nodes') :
    ∀ {s : Shape}, s.StoredIn nodes → (s.rename f).StoredIn nodes'
  | .leaf _ _, hs => h.node hs
  | .split _ _ left right, ⟨hn, hl, hr⟩ => by
      refine ⟨?_, h.storedIn hl, h.storedIn hr⟩
      rw [Shape.root_rename, Shape.root_rename]
      exact h.node hn

theorem Renumbers.fills (h : Renumbers f nodes nodes') {s : Shape} (hs : s.Fills nodes) :
    (s.rename f).Fills nodes' where
  root_eq := by rw [Shape.root_rename, hs.root_eq, h.root]
  stored := h.storedIn hs.stored
  nodup := by
    rw [Shape.ids_rename]
    exact hs.nodup.map_on fun id hid id' hid' =>
      h.injOn (hs.stored.lt_of_mem id hid) (hs.stored.lt_of_mem id' hid')
  mem_ids i hi := by
    -- the node at the old position is a node of the shape
    obtain ⟨id, hid, rfl⟩ := h.onto i hi
    obtain ⟨id', hmem, e⟩ := hs.mem_ids id.toNat hid
    obtain rfl := UInt32.toNat_inj.1 e
    exact ⟨f id', by rw [Shape.ids_rename]; exact List.mem_map_of_mem hmem, rfl⟩

/-- The renumbered nodes of a tree are a tree. -/
theorem Renumbers.exists_ofNodes {t : Tree} (h : Renumbers f t.nodes nodes') :
    ∃ t', Tree.ofNodes nodes' = .ok t' ∧ t'.nodes = nodes' := by
  obtain ⟨s, hs⟩ := t.exists_shape
  have hvalid := validate_eq_ok_iff_strictTree.2 (h.fills hs).strictTree
  exact ⟨⟨nodes', hvalid⟩, Tree.ofNodes_eq_ok_iff.2 rfl, rfl⟩

/-! ### Walks and regions -/

section Trees

variable {t t' : Tree} {s : Settings} {table : FeatureTable}

/-- A point comes to the leaf at the new position. -/
theorem Renumbers.leafFor_eq (h : Renumbers f t.nodes t'.nodes) (point : List Nat) :
    t'.leafFor point = (t.leafFor point).map f := by
  obtain ⟨shape, hs⟩ := t.exists_shape
  rw [(h.fills hs).leafFor_eq, Shape.descend_rename, hs.leafFor_eq]

theorem Renumbers.evaluate_eq (h : Renumbers f t.nodes t'.nodes) (point : List Nat) :
    t'.evaluate point = t.evaluate point := by
  rw [Tree.evaluate, Tree.evaluate, h.leafFor_eq]
  cases hleaf : t.leafFor point with
  | none => rfl
  | some leaf =>
      obtain ⟨label, hn⟩ := Tree.exists_label_of_leafFor hleaf
      have hn' : t'.node? (f leaf) = some ((Node.leaf label).rename f) := h.node hn
      simp only [Option.map_some, Option.bind_some, hn, hn', Node.label?_rename]

theorem Renumbers.leafCount_eq (h : Renumbers f t.nodes t'.nodes) :
    t'.leafCount = t.leafCount := by
  obtain ⟨shape, hs⟩ := t.exists_shape
  rw [Tree.leafCount_eq (h.fills hs), Tree.leafCount_eq hs, Shape.leaves_rename, List.length_map]

/-- Both trees test the same features. -/
theorem Renumbers.declared_iff (h : Renumbers f t.nodes t'.nodes) :
    t'.Declared table ↔ t.Declared table := by
  constructor
  · intro hd id condition left right hn
    exact hd (f id) condition (f left) (f right) (h.node hn)
  · intro hd id' condition left' right' hn'
    obtain ⟨id, hid, e⟩ := h.onto id'.toNat (Array.getElem?_eq_some_iff.1 hn').1
    have hn := Array.getElem?_eq_getElem hid
    rw [Tree.node?, ← e, h.node hn] at hn'
    cases hnode : t.nodes[id.toNat] with
    | leaf label =>
        rw [hnode] at hn'
        cases hn'
    | split _ left right =>
        rw [hnode] at hn hn'
        cases hn'
        exact hd id condition left right hn

/-- The region with its leaf at another position. -/
def Region.rename (f : NodeId → NodeId) (r : Region) : Region := { r with leaf := f r.leaf }

def Extraction.rename (f : NodeId → NodeId) (e : Extraction) : Extraction :=
  ⟨e.regions.map (Region.rename f), e.unreachable.map f⟩

/-- The recursion finds the same regions, of leaves at the new positions. -/
theorem Shape.extract_rename (features : List Feature) : ∀ (s : Shape) (bounds : Region.Bounds),
    (s.rename f).extract features bounds = (s.extract features bounds).rename f
  | .leaf id label, bounds => by
      rw [rename, extract, extract]
      cases bounds.bind (Region.close features) <;> rfl
  | .split id condition left right, bounds => by
      simp only [rename, extract, left.extract_rename features, right.extract_rename features,
        Extraction.rename, List.map_append]

theorem Renumbers.extract_eq (h : Renumbers f t.nodes t'.nodes) {extraction : Extraction}
    (he : extract t table = .ok extraction) : extract t' table = .ok (extraction.rename f) := by
  obtain ⟨shape, hs⟩ := t.exists_shape
  obtain ⟨-, rfl⟩ := (extract_eq_ok hs).1 he
  have hd := h.declared_iff.2 (declared_of_extract he)
  rw [← Shape.extract_rename]
  exact (extract_eq_ok (h.fills hs)).2 ⟨undeclared?_eq_none_iff.2 hd, rfl⟩

/-! ### Rules -/

/-- The output with other positions of the unreachable leaves. -/
def Output.rename (f : NodeId → NodeId) (o : Output) : Output :=
  { o with unreachable := o.unreachable.map f }

/-- The rules of a region do not depend on the position of its leaf. -/
theorem expandPlanned_rename (r : Region) (count : Nat) :
    (expandPlanned table (r.rename f) count).toOption =
      (expandPlanned table r count).toOption := by
  have hexpand : (r.rename f).expand table = r.expand table := rfl
  rw [expandPlanned, expandPlanned, hexpand]
  cases r.expand table with
  | error e => rfl
  | ok bodies =>
      by_cases hlength : bodies.length = count
      · simp only [if_pos hlength]
      · simp only [if_neg hlength]
        rfl

theorem expansion_rename (regions : List Region) (counts : List Nat) :
    (((regions.map (Region.rename f)).zip counts).mapM fun (r, count) =>
      expandPlanned table r count).toOption =
    ((regions.zip counts).mapM fun (r, count) => expandPlanned table r count).toOption := by
  rw [← mapM_toOption, ← mapM_toOption, List.zip_map_left, List.mapM_map]
  exact congrArg (List.mapM · _) (funext fun rc => expandPlanned_rename rc.1 rc.2)

theorem Renumbers.ruleCount_eq (h : Renumbers f t.nodes t'.nodes) {extraction : Extraction}
    (he : extract t table = .ok extraction) : t'.ruleCount table = t.ruleCount table := by
  rw [Tree.ruleCount_eq (h.extract_eq he), Tree.ruleCount_eq he, Extraction.rename, List.map_map]
  rfl

/-- The plan has the same numbers, for the same regions at the new positions. -/
theorem Renumbers.plan_eq (h : Renumbers f t.nodes t'.nodes) {extraction : Extraction}
    (he : extract t table = .ok extraction) :
    (extraction.rename f).plan s t' table =
      { extraction.plan s t table with
        regions := extraction.regions.map (Region.rename f)
        unreachable := extraction.unreachable.map f } := by
  have hcounts : (extraction.rename f).regions.map (fun r => clamp (r.ruleCount table)) =
      extraction.regions.map fun r => clamp (r.ruleCount table) := by
    rw [Extraction.rename, List.map_map]
    rfl
  simp only [Extraction.plan, hcounts, h.ruleCount_eq he, h.leafCount_eq]
  simp only [Extraction.rename, List.length_map]

theorem toOption_compile_of_not_declared (hd : ¬ t.Declared table) :
    (compile s t table).toOption = none := by
  obtain ⟨e, he⟩ := Option.ne_none_iff_exists'.1 (mt undeclared?_eq_none_iff.1 hd)
  rw [compile_of_undeclared (undeclared?_eq_some_iff.1 he)]
  rfl

/-- The output of a plan, with the rules of each region. -/
def Plan.output (p : Plan) (s : Settings) (bodies : List (List RuleBody)) : Output where
  rules := number s p.stats.rules bodies.flatten
  stats := p.stats
  unreachable := p.unreachable

theorem compile_of_plan {p : Plan} (hp : plan s t table = .ok p) :
    compile s t table = s.checkLimit p.stats.rules >>= fun _ =>
      s.checkPriorities p.stats.rules >>= fun _ =>
        ((p.regions.zip p.counts).mapM fun (r, count) => expandPlanned table r count).map
          (p.output s) := by
  rw [compile, hp]
  rfl

/-- Compilation makes the same rules, and finds the same leaves unreachable. -/
theorem Renumbers.compile_eq (h : Renumbers f t.nodes t'.nodes) :
    (compile s t' table).toOption = (compile s t table).toOption.map (Output.rename f) := by
  by_cases hd : t.Declared table
  · obtain ⟨extraction, he⟩ := exists_extraction hd
    rw [compile_of_plan (plan_of_extract he), compile_of_plan (plan_of_extract (h.extract_eq he)),
      h.plan_eq he]
    -- the checks look at the planned number of rules, which is the same for both trees
    dsimp only
    cases s.checkLimit (extraction.plan s t table).stats.rules with
    | error e => rfl
    | ok _ =>
        cases s.checkPriorities (extraction.plan s t table).stats.rules with
        | error e => rfl
        | ok _ =>
            show (Except.map _ _).toOption = Option.map _ (Except.map _ _).toOption
            rw [toOption_map, toOption_map, expansion_rename, Option.map_map]
            rfl
  · rw [toOption_compile_of_not_declared hd,
      toOption_compile_of_not_declared (mt h.declared_iff.1 hd), Option.map_none]

theorem Renumbers.compile_eq_ok_iff (h : Renumbers f t.nodes t'.nodes) {output' : Output} :
    compile s t' table = .ok output' ↔
      ∃ output, compile s t table = .ok output ∧ output.rename f = output' := by
  rw [← toOption_eq_some, h.compile_eq, Option.map_eq_some_iff]
  simp only [toOption_eq_some]

end Trees

/-! ### Permutations of positions -/

/-- The position that a permutation of the positions gives to a node. -/
def relabel {n : Nat} (σ : Equiv.Perm (Fin n)) (id : NodeId) : NodeId :=
  if h : id.toNat < n then (σ ⟨id.toNat, h⟩).val.toUInt32 else id

/-- The list with each node at the position that a permutation gives to it. -/
def renumber (nodes : Array Node) (σ : Equiv.Perm (Fin nodes.size)) : Array Node :=
  Array.ofFn fun i => nodes[σ.symm i].rename (relabel σ)

theorem toNat_relabel (t : Tree) (σ : Equiv.Perm (Fin t.nodes.size)) {id : NodeId}
    (h : id.toNat < t.nodes.size) : (relabel σ id).toNat = (σ ⟨id.toNat, h⟩).val := by
  rw [relabel, dif_pos h]
  exact t.toNat_toUInt32 (σ _).isLt

theorem Tree.renumbers (t : Tree) (σ : Equiv.Perm (Fin t.nodes.size))
    (h0 : ∀ i, i.val = 0 → (σ i).val = 0) :
    Renumbers (relabel σ) t.nodes (renumber t.nodes σ) where
  root := by
    have hpos : (0 : NodeId).toNat < t.nodes.size := (validate_eq_ok_iff.1 t.valid).1
    refine UInt32.toNat_inj.1 ?_
    rw [toNat_relabel t σ hpos]
    exact h0 _ rfl
  node := by
    intro id n hn
    obtain ⟨hlt, rfl⟩ := Array.getElem?_eq_some_iff.1 hn
    rw [toNat_relabel t σ hlt]
    simp [renumber]
  injOn := by
    intro id id' hid hid' e
    have he := congrArg UInt32.toNat e
    rw [toNat_relabel t σ hid, toNat_relabel t σ hid'] at he
    exact UInt32.toNat_inj.1 (Fin.mk.inj (σ.injective (Fin.val_injective he)))
  onto := by
    intro i hi
    have hlt : i < t.nodes.size := by simpa [renumber] using hi
    obtain ⟨j, hj⟩ := σ.surjective ⟨i, hlt⟩
    have hid : j.val.toUInt32.toNat = j.val := t.toNat_toUInt32 j.isLt
    have hid' : j.val.toUInt32.toNat < t.nodes.size := hid.symm ▸ j.isLt
    refine ⟨j.val.toUInt32, hid', ?_⟩
    rw [toNat_relabel t σ hid']
    simp only [hid, Fin.eta, hj]

/-- **The layout of a tree does not matter.**  With its nodes at other positions, except for node 0,
it is again a tree.  Points come to the leaves at the new positions and get the same classes, and
compilation succeeds with the same rules and sizes, or does not succeed in either case. -/
theorem layout_irrelevant (t : Tree) (σ : Equiv.Perm (Fin t.nodes.size))
    (h0 : ∀ i, i.val = 0 → (σ i).val = 0) :
    ∃ t', Tree.ofNodes (renumber t.nodes σ) = .ok t' ∧
      (∀ point, t'.leafFor point = (t.leafFor point).map (relabel σ) ∧
        t'.evaluate point = t.evaluate point) ∧
      ∀ s table,
        ((∃ output, compile s t' table = .ok output) ↔
          ∃ output, compile s t table = .ok output) ∧
        ∀ output output', compile s t table = .ok output → compile s t' table = .ok output' →
          output'.rules = output.rules ∧ output'.stats = output.stats ∧
            output'.unreachable = output.unreachable.map (relabel σ) := by
  have hrenumbers := t.renumbers σ h0
  obtain ⟨t', ht', hnodes⟩ := hrenumbers.exists_ofNodes
  rw [← hnodes] at hrenumbers
  refine ⟨t', ht', fun point => ⟨hrenumbers.leafFor_eq point, hrenumbers.evaluate_eq point⟩,
    fun s table => ⟨?_, fun output output' h h' => ?_⟩⟩
  · simp only [hrenumbers.compile_eq_ok_iff]
    constructor
    · rintro ⟨_, output, h, -⟩
      exact ⟨output, h⟩
    · rintro ⟨output, h⟩
      exact ⟨_, output, h, rfl⟩
  · obtain ⟨_, hsame, rfl⟩ := hrenumbers.compile_eq_ok_iff.1 h'
    cases h.symm.trans hsame
    exact ⟨rfl, rfl, rfl⟩

/-- The two leaves of a test change places. -/
def swapLeaves : Equiv.Perm (Fin (Tree.stump 200 4 9).nodes.size) :=
  Equiv.swap ⟨1, by decide⟩ ⟨2, by decide⟩

/-- No value of the feature is above 200, so the right leaf is unreachable at either position. -/
theorem layout_irrelevant_swapped :
    (∀ i, i.val = 0 → (swapLeaves i).val = 0) ∧ ∃ t' output,
      Tree.ofNodes (renumber (Tree.stump 200 4 9).nodes swapLeaves) = .ok t' ∧
        t'.leafFor [5] = some 2 ∧ t'.evaluate [5] = some 4 ∧
          compile .default t' .nibble = .ok output ∧ output.unreachable = [1] := by
  have hroot : ∀ i, i.val = 0 → (swapLeaves i).val = 0 := by decide
  have hunreachable : (compile .default (Tree.stump 200 4 9) .nibble).toOption.map
      Output.unreachable = some [2] := by decide +kernel
  obtain ⟨output, ho, hout⟩ := Option.map_eq_some_iff.1 hunreachable
  rw [toOption_eq_some] at ho
  obtain ⟨t', ht', hwalk, hcompile⟩ := layout_irrelevant (Tree.stump 200 4 9) swapLeaves hroot
  obtain ⟨hiff, hsame⟩ := hcompile .default .nibble
  obtain ⟨output', ho'⟩ := hiff.2 ⟨output, ho⟩
  refine ⟨hroot, t', output', ht', (hwalk [5]).1.trans (by decide),
    (hwalk [5]).2.trans (by decide), ho', ?_⟩
  rw [(hsame output output' ho ho').2.2, hout]
  decide

end TernaryRules
