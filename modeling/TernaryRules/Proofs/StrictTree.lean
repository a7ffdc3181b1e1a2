import Mathlib.Data.List.Flatten
import Mathlib.Data.List.Perm.Subperm
import Mathlib.Data.List.FinRange
import Mathlib.Tactic.Common
import TernaryRules.Tree

/-!
# Strict binary trees

A list of nodes encodes a strict binary tree when node 0 is nobody's child, every other node is
a child exactly once, every child is a node of the list, and every node is reached from node 0
(`StrictTree`).  Validation accepts exactly these lists (`ofNodes_ok_iff`).

The walk keeps a ledger (`Ledger`).  Call a node *met* when it is no longer fresh, *pending* when
the walk is still to enter it.  Then node 0 together with the children of the met nodes are the
met nodes together with the pending ones, each counted as often as it occurs.  Every step keeps
this balance.  In a strict tree no position occurs twice on the left, so a pending node is never
met already and the walk runs to its end; conversely, once a walk has ended with every node met,
the balance says that each position occurs once.
-/

namespace TernaryRules

/-- The positions of the children. -/
def Node.children : Node → List Nat
  | .leaf _ => []
  | .split _ left right => [left.toNat, right.toNat]

/-- The children of all nodes, in order: one entry for each left or right child slot. -/
def childSlots (nodes : Array Node) : List Nat := nodes.toList.flatMap Node.children

/-- A position that is reached from node 0 by going from nodes to their children. -/
inductive Reachable (nodes : Array Node) : Nat → Prop where
  | root : Reachable nodes 0
  | child {i j : Nat} {node : Node} :
      Reachable nodes i → nodes[i]? = some node → j ∈ node.children → Reachable nodes j

theorem Reachable.lt {nodes : Array Node} {i : Nat} (h : Reachable nodes i) : i < 2 ^ 32 := by
  cases h with
  | root => decide
  | @child i j node _ _ hj =>
      cases node with
      | leaf => simp [Node.children] at hj
      | split condition left right =>
          simp only [Node.children, List.mem_cons, List.not_mem_nil, or_false] at hj
          rcases hj with rfl | rfl
          · exact left.toNat_lt
          · exact right.toNat_lt

/-- The nodes form one strict binary tree with root 0. -/
structure StrictTree (nodes : Array Node) : Prop where
  nonempty : 0 < nodes.size
  inBounds : ∀ j ∈ childSlots nodes, j < nodes.size
  rootFree : 0 ∉ childSlots nodes
  once : ∀ i, 0 < i → i < nodes.size → (childSlots nodes).count i = 1
  reachable : ∀ i < nodes.size, Reachable nodes i

/-- With 0 for the root, the child slots of a strict tree name each position once. -/
theorem StrictTree.of_slots {nodes : Array Node}
    (hslots : (0 :: childSlots nodes).Perm (List.range nodes.size))
    (hreach : ∀ i < nodes.size, Reachable nodes i) : StrictTree nodes := by
  have hone : ∀ i < nodes.size, (0 :: childSlots nodes).count i = 1 := fun i hi => by
    rw [hslots.count_eq]
    exact List.count_eq_one_of_mem List.nodup_range (List.mem_range.2 hi)
  have hlt : ∀ i ∈ 0 :: childSlots nodes, i < nodes.size := fun i hi =>
    List.mem_range.1 (hslots.mem_iff.1 hi)
  have h0 : 0 < nodes.size := hlt 0 List.mem_cons_self
  refine ⟨h0, fun j hj => hlt j (List.mem_cons_of_mem 0 hj), fun hroot => ?_,
    fun i hpos hi => ?_, hreach⟩
  · have := hone 0 h0
    rw [List.count_cons_self] at this
    exact List.count_eq_zero.1 (Nat.succ.inj this) hroot
  · have := hone i hi
    rwa [List.count_cons_of_ne (Nat.ne_of_lt hpos)] at this

namespace Validation

variable {nodes : Array Node}

/-! ### The steps of the walk -/

/-- The positions the walk is still to enter. -/
def pending {n : Nat} : List (Visit n) → List Nat
  | [] => []
  | .enter id :: rest => id.val :: pending rest
  | .leave _ :: rest => pending rest

@[simp] theorem pending_append {n : Nat} (xs ys : List (Visit n)) :
    pending (xs ++ ys) = pending xs ++ pending ys := by
  induction xs with
  | nil => rfl
  | cons v xs ih => cases v <;> simp [pending, ih]

theorem walk_leave (marks : Vector Mark nodes.size) (id : Fin nodes.size)
    (rest : List (Visit nodes.size)) :
    walk nodes marks (.leave id :: rest) = walk nodes (marks.set id .done) rest := by
  rw [walk]

/-- A node is entered with success only when it is fresh and its children are nodes. -/
theorem walk_enter_eq_ok_iff {marks final : Vector Mark nodes.size} {id : Fin nodes.size}
    {rest : List (Visit nodes.size)} :
    walk nodes marks (.enter id :: rest) = .ok final ↔
      marks[id] = .fresh ∧ ∃ next, children nodes id = .ok next ∧
        walk nodes (marks.set id .active) (next ++ .leave id :: rest) = .ok final := by
  rw [walk]
  split
  next h => simp [h]
  next h => simp [h]
  next h =>
    split
    next e hc => simp [hc]
    next next hc => simp [h, hc]

/-- The children of a node are visited when it is a leaf, or a split whose children are other
nodes of the list. -/
theorem children_eq_ok_iff {id : Fin nodes.size} {next : List (Visit nodes.size)} :
    children nodes id = .ok next ↔
      (∃ label, nodes[id] = .leaf label ∧ next = []) ∨
      ∃ condition left right, nodes[id] = .split condition left right ∧
        left ≠ id.val.toUInt32 ∧ right ≠ id.val.toUInt32 ∧
        ∃ (hl : left.toNat < nodes.size) (hr : right.toNat < nodes.size),
          next = [.enter ⟨left.toNat, hl⟩, .enter ⟨right.toNat, hr⟩] := by
  unfold children
  split
  next label h => simp [h, eq_comm]
  next condition left right h =>
    simp only [h, reduceCtorEq, false_and, exists_false, false_or, Node.split.injEq]
    split
    next hs => simp; grind
    next hs =>
      split
      next hl =>
        split
        next hr => simp only [Except.ok.injEq]; grind
        next hr => simp; grind
      next hl => simp; grind

/-! ### The ledger -/

/-- The books of the walk: `met` lists the nodes that are no longer fresh, and node 0 with the
children of the met nodes balances the met nodes with the pending ones. -/
structure Ledger (marks : Vector Mark nodes.size) (visits : List (Visit nodes.size))
    (met : List (Fin nodes.size)) : Prop where
  nodup : met.Nodup
  mem_iff : ∀ id : Fin nodes.size, id ∈ met ↔ marks[id] ≠ .fresh
  leaving : ∀ id, .leave id ∈ visits → id ∈ met
  balance : (0 :: met.flatMap fun id => nodes[id].children).Perm
    (met.map Fin.val ++ pending visits)
  reached : ∀ j ∈ met.map Fin.val ++ pending visits, Reachable nodes j

theorem Ledger.start (h : 0 < nodes.size) :
    Ledger (Vector.replicate nodes.size .fresh) [.enter ⟨0, h⟩] [] where
  nodup := List.nodup_nil
  mem_iff id := by simp
  leaving id hid := by simp at hid
  balance := by simp [pending]
  reached j hj := by
    obtain rfl : j = 0 := by simpa [pending] using hj
    exact .root

variable {marks : Vector Mark nodes.size} {rest : List (Visit nodes.size)}
  {met : List (Fin nodes.size)} {id : Fin nodes.size}

/-- Leaving a node changes no entry of the books. -/
theorem Ledger.leave (inv : Ledger marks (.leave id :: rest) met) :
    Ledger (marks.set id .done) rest met where
  nodup := inv.nodup
  mem_iff i := by
    have hid := inv.leaving id (List.mem_cons_self ..)
    rw [inv.mem_iff i, Fin.getElem_fin, Fin.getElem_fin, Vector.getElem_set]
    split
    next h =>
      obtain rfl : id = i := Fin.ext h
      simpa using (inv.mem_iff id).1 hid
    next => rfl
  leaving i hi := inv.leaving i (List.mem_cons_of_mem _ hi)
  balance := inv.balance
  reached := inv.reached

/-- The visits that follow a node enter its children. -/
theorem pending_children {next : List (Visit nodes.size)} (hc : children nodes id = .ok next) :
    pending next = nodes[id].children := by
  obtain ⟨label, h, rfl⟩ | ⟨condition, left, right, h, -, -, hl, hr, rfl⟩ :=
    children_eq_ok_iff.1 hc
  · simp [h, pending, Node.children]
  · simp [h, pending, Node.children]

theorem leave_notMem_children {next : List (Visit nodes.size)}
    (hc : children nodes id = .ok next) (i : Fin nodes.size) : .leave i ∉ next := by
  obtain ⟨label, h, rfl⟩ | ⟨condition, left, right, h, -, -, hl, hr, rfl⟩ :=
    children_eq_ok_iff.1 hc
  · simp
  · simp

/-- Entering a fresh node moves it from the pending nodes to the met ones and adds its children
on both sides. -/
theorem Ledger.enter {next : List (Visit nodes.size)}
    (inv : Ledger marks (.enter id :: rest) met) (hf : marks[id] = .fresh)
    (hc : children nodes id = .ok next) :
    Ledger (marks.set id .active) (next ++ .leave id :: rest) (id :: met) where
  nodup := List.nodup_cons.2 ⟨fun hid => (inv.mem_iff id).1 hid hf, inv.nodup⟩
  mem_iff i := by
    rw [List.mem_cons, inv.mem_iff i, Fin.getElem_fin, Fin.getElem_fin, Vector.getElem_set]
    split
    next h => simp [Fin.ext h.symm]
    next h =>
      have hne : i ≠ id := fun h' => h (congrArg Fin.val h').symm
      simp [hne]
  leaving i hi := by
    rcases List.mem_append.1 hi with hi | hi
    · exact absurd hi (leave_notMem_children hc i)
    · rcases List.mem_cons.1 hi with hi | hi
      · cases hi; exact List.mem_cons_self ..
      · exact List.mem_cons_of_mem _ (inv.leaving i (List.mem_cons_of_mem _ hi))
  balance := by
    refine List.perm_iff_count.2 fun j => ?_
    have := inv.balance.count_eq j
    simp only [pending, pending_append, pending_children hc, List.flatMap_cons, List.map_cons,
      List.count_cons, List.count_append, List.cons_append] at this ⊢
    omega
  reached j hj := by
    have hid : Reachable nodes id.val := inv.reached _ (by simp [pending])
    simp only [pending, pending_append, pending_children hc, List.map_cons, List.cons_append,
      List.mem_cons, List.mem_append] at hj
    rcases hj with rfl | hj | hj | hj
    · exact hid
    · exact inv.reached j (List.mem_append_left _ hj)
    · exact .child hid (by simp) hj
    · exact inv.reached j (List.mem_append_right _ (List.mem_cons_of_mem _ hj))

/-- The books of a walk that has ended. -/
theorem Ledger.run {visits : List (Visit nodes.size)} {final : Vector Mark nodes.size}
    (inv : Ledger marks visits met) (h : walk nodes marks visits = .ok final) :
    ∃ met', Ledger final [] met' := by
  fun_induction walk nodes marks visits generalizing met with
  | case1 marks => cases h; exact ⟨met, inv⟩
  | case2 marks id rest _ ih => exact ih inv.leave h
  | case3 => cases h
  | case4 => cases h
  | case5 => cases h
  | case6 marks id rest hf next hc _ _ ih => exact ih (inv.enter hf hc) h

/-! ### The balance of a whole walk -/

theorem childSlots_eq (nodes : Array Node) :
    childSlots nodes = (List.finRange nodes.size).flatMap fun id => nodes[id].children := by
  have : nodes.toList = (List.finRange nodes.size).map fun id => nodes[id] :=
    List.ext_getElem (by simp) (by simp)
  rw [childSlots, this, List.flatMap_map]

/-- The children of distinct nodes fill no more slots than there are. -/
theorem count_children_le (hm : met.Nodup) (j : Nat) :
    (met.flatMap fun id => nodes[id].children).count j ≤ (childSlots nodes).count j := by
  obtain ⟨met', hp, hs⟩ : met.Subperm (List.finRange nodes.size) :=
    List.subperm_of_subset hm fun id _ => List.mem_finRange id
  rw [childSlots_eq, ← (hp.flatMap_right _).count_eq]
  exact (hs.flatMap _).count_le j

/-- In a strict tree, node 0 and the child slots name each position once. -/
theorem count_slots (strict : StrictTree nodes) (i : Fin nodes.size) :
    (0 :: childSlots nodes).count i.val = 1 := by
  rw [List.count_cons]
  by_cases h : i.val = 0
  · simp [h, List.count_eq_zero.2 strict.rootFree]
  · simp [strict.once i (Nat.pos_of_ne_zero h) i.isLt, Ne.symm h]

/-- A pending node of a strict tree is fresh: were it met, the books would show it twice. -/
theorem Ledger.fresh_of_pending (strict : StrictTree nodes)
    (inv : Ledger marks (.enter id :: rest) met) : marks[id] = .fresh := by
  by_contra hne
  have hmet : id ∈ met := (inv.mem_iff id).2 hne
  have htwo : 2 ≤ (met.map Fin.val ++ pending (.enter id :: rest)).count id.val := by
    have : 0 < (met.map Fin.val).count id.val :=
      List.count_pos_iff.2 (List.mem_map_of_mem hmet)
    simp only [pending, List.count_append, List.count_cons_self]
    omega
  -- the books balance, so the child slots name it twice as well
  have hone := count_slots strict id
  have hle := count_children_le inv.nodup id.val
  rw [← inv.balance.count_eq] at htwo
  simp only [List.count_cons] at htwo hone
  omega

/-- A pending node of a strict tree is not its own child: it would fill two slots. -/
theorem Ledger.notMem_children (strict : StrictTree nodes)
    (inv : Ledger marks (.enter id :: rest) met) : id.val ∉ nodes[id].children := by
  intro hself
  have hnew : id ∉ met := fun hid => (inv.mem_iff id).1 hid (inv.fresh_of_pending strict)
  have hpos : 0 < (met.map Fin.val ++ pending (.enter id :: rest)).count id.val :=
    List.count_pos_iff.2 (by simp [pending])
  have hown : 0 < nodes[id].children.count id.val := List.count_pos_iff.2 hself
  have hone := count_slots strict id
  have hle := count_children_le (List.nodup_cons.2 ⟨hnew, inv.nodup⟩) id.val
  rw [← inv.balance.count_eq] at hpos
  simp only [List.flatMap_cons, List.count_append] at hle
  simp only [List.count_cons] at hpos hone
  omega

/-- A pending node of a strict tree is entered without a fault. -/
theorem Ledger.children_of_pending (strict : StrictTree nodes)
    (inv : Ledger marks (.enter id :: rest) met) : ∃ next, children nodes id = .ok next := by
  have hslots : ∀ j ∈ nodes[id].children, j < nodes.size := fun j hj => by
    refine strict.inBounds j (List.mem_flatMap.2 ⟨nodes[id], ?_, hj⟩)
    simp
  have hself := inv.notMem_children strict
  cases hn : nodes[id] with
  | leaf label => exact ⟨_, children_eq_ok_iff.2 (.inl ⟨label, hn, rfl⟩)⟩
  | split condition left right =>
    -- a pending position comes from a child slot, so it fits the width of an id
    have hid : id.val.toUInt32.toNat = id.val :=
      UInt32.toNat_ofNat_of_lt' (inv.reached id.val (by simp [pending])).lt
    rw [hn] at hslots hself
    simp only [Node.children, List.mem_cons, List.not_mem_nil, or_false, not_or] at hself
    refine ⟨_, children_eq_ok_iff.2 (.inr ⟨condition, left, right, hn, ?_, ?_,
      hslots _ (by simp [Node.children]), hslots _ (by simp [Node.children]), rfl⟩)⟩
    · rintro rfl
      exact hself.1 hid.symm
    · rintro rfl
      exact hself.2 hid.symm

/-- The walk of a strict tree runs to its end. -/
theorem Ledger.walk_of_strict (strict : StrictTree nodes) {visits : List (Visit nodes.size)}
    (inv : Ledger marks visits met) : ∃ final, walk nodes marks visits = .ok final := by
  fun_induction walk nodes marks visits generalizing met with
  | case1 marks => exact ⟨marks, rfl⟩
  | case2 marks id rest _ ih => exact ih inv.leave
  | case3 marks id rest h =>
      rw [inv.fresh_of_pending strict] at h
      cases h
  | case4 marks id rest h =>
      rw [inv.fresh_of_pending strict] at h
      cases h
  | case5 marks id rest hf e hc =>
      obtain ⟨next, hn⟩ := inv.children_of_pending strict
      rw [hn] at hc
      cases hc
  | case6 marks id rest hf next hc _ _ ih => exact ih (inv.enter hf hc)

/-- When the walk of a list has ended, the met nodes are closed under children. -/
theorem Ledger.met_of_reachable {final : Vector Mark nodes.size} (inv : Ledger final [] met)
    {j : Nat} (hj : Reachable nodes j) : j ∈ met.map Fin.val := by
  have hmem : ∀ i, i ∈ 0 :: (met.flatMap fun id => nodes[id].children) → i ∈ met.map Fin.val :=
    fun i hi => by simpa [pending] using inv.balance.mem_iff.1 hi
  induction hj with
  | root => exact hmem 0 (List.mem_cons_self ..)
  | child _ hn hc ih =>
      obtain ⟨id, hid, rfl⟩ := List.mem_map.1 ih
      refine hmem _ (List.mem_cons_of_mem _ (List.mem_flatMap.2 ⟨id, hid, ?_⟩))
      have : nodes[id] = _ := Option.some.inj ((Array.getElem?_eq_getElem id.isLt).symm.trans hn)
      rwa [this]

/-- When a walk has met every node, the nodes form a strict tree: the balance says that the slots
name each node once. -/
theorem Ledger.strict_of_met {final : Vector Mark nodes.size} (inv : Ledger final [] met)
    (hall : ∀ id : Fin nodes.size, final[id] ≠ .fresh) : StrictTree nodes := by
  have hmet : met.Perm (List.finRange nodes.size) :=
    (List.perm_ext_iff_of_nodup inv.nodup (List.nodup_finRange _)).2 fun id =>
      iff_of_true ((inv.mem_iff id).2 (hall id)) (List.mem_finRange id)
  refine .of_slots ?_ fun i hi => ?_
  · rw [childSlots_eq, ← List.map_coe_finRange_eq_range]
    refine ((hmet.flatMap_right _).symm.cons 0).trans (inv.balance.trans ?_)
    simpa [pending] using hmet.map Fin.val
  · refine inv.reached i (List.mem_append_left _ (List.mem_map.2 ⟨⟨i, hi⟩, ?_, rfl⟩))
    exact (inv.mem_iff _).2 (hall _)

end Validation

open Validation

/-- A list of nodes passes validation when its walk ends with every node met. -/
theorem validate_eq_ok_iff {nodes : Array Node} :
    validate nodes = .ok () ↔ ∃ (h : 0 < nodes.size) (final : Vector Mark nodes.size),
      walk nodes (Vector.replicate nodes.size .fresh) [.enter ⟨0, h⟩] = .ok final ∧
        ∀ id : Fin nodes.size, final[id] ≠ .fresh := by
  unfold validate
  split
  next h =>
    simp only [h, exists_true_left]
    cases hw : walk nodes (Vector.replicate nodes.size .fresh) [.enter ⟨0, h⟩] with
    | error e => simp
    | ok final =>
        simp only [Except.ok.injEq, exists_eq_left']
        have hnone : final.toArray.findIdx? (· == .fresh) = none ↔
            ∀ id : Fin nodes.size, final[id] ≠ .fresh := by
          simp [Array.findIdx?_eq_none_iff, Fin.forall_iff, Vector.forall_mem_iff_forall_getElem]
        rw [← hnone]
        cases final.toArray.findIdx? (· == .fresh) <;> simp
  next h => simp [h]

/-- Validation accepts exactly the strict trees. -/
theorem validate_eq_ok_iff_strictTree {nodes : Array Node} :
    validate nodes = .ok () ↔ StrictTree nodes := by
  rw [validate_eq_ok_iff]
  constructor
  · rintro ⟨h, final, hw, hall⟩
    obtain ⟨met, inv⟩ := (Ledger.start h).run hw
    exact inv.strict_of_met hall
  · intro strict
    obtain ⟨final, hw⟩ := (Ledger.start strict.nonempty).walk_of_strict strict
    obtain ⟨met, inv⟩ := (Ledger.start strict.nonempty).run hw
    refine ⟨strict.nonempty, final, hw, fun id => (inv.mem_iff id).1 ?_⟩
    obtain ⟨id', hid, h⟩ := List.mem_map.1 (inv.met_of_reachable (strict.reachable id.val id.isLt))
    rwa [← Fin.ext h]

/-- A tree is made of its own nodes, and of no others. -/
theorem Tree.ofNodes_eq_ok_iff {nodes : Array Node} {t : Tree} :
    Tree.ofNodes nodes = .ok t ↔ t.nodes = nodes := by
  unfold Tree.ofNodes
  constructor
  · intro h
    split at h
    · cases h
      rfl
    · cases h
  · rintro rfl
    split
    · rfl
    · next h => cases t.valid.symm.trans h

/-- **Validation accepts exactly the strict trees**, and keeps their nodes as they are. -/
theorem ofNodes_ok_iff (nodes : Array Node) :
    ((∃ t, Tree.ofNodes nodes = .ok t) ↔ StrictTree nodes) ∧
      ∀ t, Tree.ofNodes nodes = .ok t → t.nodes = nodes := by
  rw [← validate_eq_ok_iff_strictTree]
  unfold Tree.ofNodes
  split
  next h =>
    refine ⟨iff_of_true ⟨_, rfl⟩ h, fun t ht => ?_⟩
    cases ht
    rfl
  next e h =>
    refine ⟨iff_of_false (fun ⟨_, ht⟩ => by cases ht) (fun h' => ?_), fun t ht => by cases ht⟩
    rw [h'] at h
    cases h

end TernaryRules
