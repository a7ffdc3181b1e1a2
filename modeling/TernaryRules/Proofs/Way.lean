import TernaryRules.Proofs.Shape

/-!
# Ways through a list of nodes

A way is a list of turns, each to the left or to the right child, and `follow` goes it from a node.
What is reached from node 0 is what some way from node 0 leads to (`reachable_iff`).

In the layout of a shape the ways from the root lead to the nodes of the shape
(`StoredIn.mem_ids_of_follow`, `StoredIn.exists_follow`).  When no position occurs twice, different
ways lead to different nodes (`StoredIn.follow_inj`), so no way leads from a node back to it
(`StoredIn.not_onCycle`).
-/

namespace TernaryRules

/-- The child on one side; a leaf has none. -/
def Node.child? : Node → Side → Option NodeId
  | .leaf _, _ => none
  | .split _ left _, .left => some left
  | .split _ _ right, .right => some right

/-- The child on one side of the node at a position. -/
def child? (nodes : Array Node) (id : NodeId) (side : Side) : Option NodeId :=
  nodes[id.toNat]?.bind (Node.child? · side)

/-- The node that a list of turns leads to, if there is a child at each turn. -/
def follow (nodes : Array Node) : List Side → NodeId → Option NodeId
  | [], id => some id
  | side :: turns, id => (child? nodes id side).bind (follow nodes turns)

/-- Some way leads from the node back to it. -/
def OnCycle (nodes : Array Node) (id : NodeId) : Prop :=
  ∃ turns, turns ≠ [] ∧ follow nodes turns id = some id

variable {nodes : Array Node}

@[simp] theorem follow_nil (id : NodeId) : follow nodes [] id = some id := rfl

@[simp] theorem follow_cons (side : Side) (turns : List Side) (id : NodeId) :
    follow nodes (side :: turns) id = (child? nodes id side).bind (follow nodes turns) := rfl

theorem follow_append (before after : List Side) (id : NodeId) :
    follow nodes (before ++ after) id = (follow nodes before id).bind (follow nodes after) := by
  induction before generalizing id with
  | nil => rfl
  | cons side before ih => simp only [List.cons_append, follow_cons, Option.bind_assoc, ih]

theorem follow_concat (turns : List Side) (side : Side) (id : NodeId) :
    follow nodes (turns ++ [side]) id = (follow nodes turns id).bind (child? nodes · side) := by
  rw [follow_append]
  refine congrArg (follow nodes turns id).bind (funext fun stop => ?_)
  exact Option.bind_fun_some (child? nodes stop side)

/-! ### Children and reachability -/

theorem Node.mem_children_iff {node : Node} {j : Nat} :
    j ∈ node.children ↔ ∃ side c, node.child? side = some c ∧ c.toNat = j := by
  cases node with
  | leaf label => simp [children, child?]
  | split condition left right =>
      simp only [children, List.mem_cons, List.not_mem_nil, or_false]
      constructor
      · rintro (rfl | rfl)
        · exact ⟨.left, left, rfl, rfl⟩
        · exact ⟨.right, right, rfl, rfl⟩
      · rintro ⟨_ | _, c, ⟨⟩, rfl⟩
        · exact .inl rfl
        · exact .inr rfl

theorem child?_eq_some_iff {id c : NodeId} {side : Side} :
    child? nodes id side = some c ↔
      ∃ node, nodes[id.toNat]? = some node ∧ node.child? side = some c := by
  rw [child?, Option.bind_eq_some_iff]

theorem Reachable.child? {id c : NodeId} {side : Side} (h : Reachable nodes id.toNat)
    (hc : child? nodes id side = some c) : Reachable nodes c.toNat := by
  obtain ⟨node, hn, hc⟩ := child?_eq_some_iff.1 hc
  exact .child h hn (Node.mem_children_iff.2 ⟨side, c, hc, rfl⟩)

theorem Reachable.follow {turns : List Side} {id stop : NodeId} (h : Reachable nodes id.toNat)
    (hs : follow nodes turns id = some stop) : Reachable nodes stop.toNat := by
  induction turns generalizing id with
  | nil => exact Option.some.inj hs ▸ h
  | cons side turns ih =>
      obtain ⟨c, hc, hs⟩ := Option.bind_eq_some_iff.1 hs
      exact ih (h.child? hc) hs

/-- The nodes that are reached are the ends of the ways from node 0. -/
theorem reachable_iff {i : Nat} :
    Reachable nodes i ↔ ∃ turns id, follow nodes turns 0 = some id ∧ id.toNat = i := by
  constructor
  · intro h
    induction h with
    | root => exact ⟨[], 0, rfl, rfl⟩
    | child _ hn hj ih =>
        obtain ⟨turns, id, hid, rfl⟩ := ih
        obtain ⟨side, c, hc, rfl⟩ := Node.mem_children_iff.1 hj
        refine ⟨turns ++ [side], c, ?_, rfl⟩
        rw [follow_concat, hid]
        exact child?_eq_some_iff.2 ⟨_, hn, hc⟩
  · rintro ⟨turns, id, hid, rfl⟩
    exact Reachable.follow .root hid

/-! ### Ways through a shape -/

namespace Shape

/-- A way from the root is at its end, or it goes on in the subtree that it turns to. -/
theorem StoredIn.follow_eq_some_iff {id stop : NodeId} {condition : Split} {left right : Shape}
    {turns : List Side} (h : (split id condition left right).StoredIn nodes) :
    follow nodes turns id = some stop ↔ (turns = [] ∧ id = stop) ∨
      (∃ rest, turns = .left :: rest ∧ follow nodes rest left.root = some stop) ∨
      ∃ rest, turns = .right :: rest ∧ follow nodes rest right.root = some stop := by
  have hn : nodes[id.toNat]? = some (.split condition left.root right.root) := h.1
  cases turns with
  | nil => simp
  | cons side rest => cases side <;> simp [TernaryRules.child?, hn, Node.child?]

theorem StoredIn.follow_leaf_eq_some_iff {id stop : NodeId} {label : Label} {turns : List Side}
    (h : (leaf id label).StoredIn nodes) :
    follow nodes turns id = some stop ↔ turns = [] ∧ id = stop := by
  have hn : nodes[id.toNat]? = some (.leaf label) := h
  cases turns with
  | nil => simp
  | cons side rest => simp [TernaryRules.child?, hn, Node.child?]

/-- The ways from the root stay in the shape. -/
theorem StoredIn.mem_ids_of_follow {stop : NodeId} : ∀ {s : Shape} {turns : List Side},
    s.StoredIn nodes → follow nodes turns s.root = some stop → stop ∈ s.ids
  | .leaf id label, turns, h, hf => by
      obtain ⟨-, rfl⟩ := h.follow_leaf_eq_some_iff.1 hf
      simp [ids]
  | .split id condition left right, turns, h, hf => by
      rcases h.follow_eq_some_iff.1 hf with ⟨-, rfl⟩ | ⟨rest, -, hf⟩ | ⟨rest, -, hf⟩
      · simp [ids]
      · simp [ids, h.2.1.mem_ids_of_follow hf]
      · simp [ids, h.2.2.mem_ids_of_follow hf]

/-- Each node of the shape is the end of a way from the root. -/
theorem StoredIn.exists_follow {stop : NodeId} : ∀ {s : Shape},
    s.StoredIn nodes → stop ∈ s.ids → ∃ turns, follow nodes turns s.root = some stop
  | .leaf id label, _, hm => by
      obtain rfl : stop = id := by simpa [ids] using hm
      exact ⟨[], rfl⟩
  | .split id condition left right, h, hm => by
      simp only [ids, List.mem_cons, List.mem_append] at hm
      rcases hm with rfl | hm | hm
      · exact ⟨[], rfl⟩
      · obtain ⟨turns, hf⟩ := h.2.1.exists_follow hm
        exact ⟨.left :: turns, h.follow_eq_some_iff.2 (.inr (.inl ⟨turns, rfl, hf⟩))⟩
      · obtain ⟨turns, hf⟩ := h.2.2.exists_follow hm
        exact ⟨.right :: turns, h.follow_eq_some_iff.2 (.inr (.inr ⟨turns, rfl, hf⟩))⟩

/-- From the root of a shape its nodes are reached, and no others. -/
theorem StoredIn.reachable_iff {s : Shape} (h : s.StoredIn nodes) (hroot : s.root = 0) {i : Nat} :
    Reachable nodes i ↔ ∃ id ∈ s.ids, id.toNat = i := by
  rw [TernaryRules.reachable_iff]
  constructor
  · rintro ⟨turns, id, hid, rfl⟩
    exact ⟨id, h.mem_ids_of_follow (hroot ▸ hid), rfl⟩
  · rintro ⟨id, hid, rfl⟩
    obtain ⟨turns, hf⟩ := h.exists_follow hid
    exact ⟨turns, id, hroot ▸ hf, rfl⟩

/-- Different ways from the root lead to different nodes, as the root and the two subtrees have no
position in common. -/
theorem StoredIn.follow_inj {stop : NodeId} : ∀ {s : Shape} {turns turns' : List Side},
    s.StoredIn nodes → s.ids.Nodup → follow nodes turns s.root = some stop →
      follow nodes turns' s.root = some stop → turns = turns'
  | .leaf id label, turns, turns', h, _, hf, hf' =>
      (h.follow_leaf_eq_some_iff.1 hf).1.trans (h.follow_leaf_eq_some_iff.1 hf').1.symm
  | .split id condition left right, turns, turns', h, hn, hf, hf' => by
      obtain ⟨hroot, hn⟩ := List.nodup_cons.1 hn
      obtain ⟨nl, nr, hlr⟩ := List.nodup_append.1 hn
      obtain ⟨hrootl, hrootr⟩ := not_or.1 (mt List.mem_append.2 hroot)
      have hl := h.2.1
      have hr := h.2.2
      rcases h.follow_eq_some_iff.1 hf with ⟨rfl, e⟩ | ⟨rest, rfl, hs⟩ | ⟨rest, rfl, hs⟩ <;>
        rcases h.follow_eq_some_iff.1 hf' with ⟨rfl, e'⟩ | ⟨rest', rfl, hs'⟩ | ⟨rest', rfl, hs'⟩
      · rfl
      · exact absurd (e ▸ hl.mem_ids_of_follow hs') hrootl
      · exact absurd (e ▸ hr.mem_ids_of_follow hs') hrootr
      · exact absurd (e' ▸ hl.mem_ids_of_follow hs) hrootl
      · rw [hl.follow_inj nl hs hs']
      · exact absurd rfl (hlr _ (hl.mem_ids_of_follow hs) _ (hr.mem_ids_of_follow hs'))
      · exact absurd (e' ▸ hr.mem_ids_of_follow hs) hrootr
      · exact absurd rfl (hlr _ (hl.mem_ids_of_follow hs') _ (hr.mem_ids_of_follow hs))
      · rw [hr.follow_inj nr hs hs']

theorem StoredIn.existsUnique_follow {s : Shape} (h : s.StoredIn nodes) (hn : s.ids.Nodup)
    {stop : NodeId} (hm : stop ∈ s.ids) : ∃! turns, follow nodes turns s.root = some stop := by
  obtain ⟨turns, hf⟩ := h.exists_follow hm
  exact ⟨turns, hf, fun turns' hf' => h.follow_inj hn hf' hf⟩

/-- No way leads back: going it once more would be a second way to the same node. -/
theorem StoredIn.not_onCycle {s : Shape} (h : s.StoredIn nodes) (hn : s.ids.Nodup)
    {id : NodeId} (hm : id ∈ s.ids) : ¬ OnCycle nodes id := by
  rintro ⟨turns, hne, hback⟩
  obtain ⟨there, hf⟩ := h.exists_follow hm
  have htwice : follow nodes (there ++ turns) s.root = some id := by
    rw [follow_append, hf]
    exact hback
  exact hne (List.self_eq_append_right.1 (h.follow_inj hn hf htwice))

end Shape

end TernaryRules
