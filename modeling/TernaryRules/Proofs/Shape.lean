import Mathlib.Data.List.Nodup
import TernaryRules.Proofs.StrictTree

/-!
# The shape of a tree

A list of nodes that passes validation is the layout of a binary tree.  `Shape` is that tree as
a term, each node with its position; `StoredIn` says that the nodes of a shape stand in the list
at their positions.  Every decision tree has a shape with root 0 that holds each position once
(`Tree.exists_shape`), and following the tests in the list is following them in the shape
(`leafFor_eq`).

The shape is found along the walk of `validate`: when the walk enters a node and goes on with
what was pending before, it has explored the subtree of that node (`Explored`).
-/

namespace TernaryRules

/-- A decision tree as a term. -/
inductive Shape where
  | leaf (id : NodeId) (label : Label)
  | split (id : NodeId) (condition : Split) (left right : Shape)

namespace Shape

def root : Shape → NodeId
  | .leaf id _ => id
  | .split id _ _ _ => id

/-- The nodes in the order in which a walk meets them. -/
def ids : Shape → List NodeId
  | .leaf id _ => [id]
  | .split id _ left right => id :: (left.ids ++ right.ids)

/-- The leaves with their classes, from left to right. -/
def leaves : Shape → List (NodeId × Label)
  | .leaf id label => [(id, label)]
  | .split _ _ left right => left.leaves ++ right.leaves

/-- Follows the tests to a leaf. -/
def descend (point : List Nat) : Shape → Option NodeId
  | .leaf id _ => some id
  | .split _ condition left right =>
      match point[condition.feature.toNat]? with
      | none => none
      | some value => if condition.goesLeft value then left.descend point else right.descend point

/-- The nodes stand in the list at their positions. -/
def StoredIn (nodes : Array Node) : Shape → Prop
  | .leaf id label => nodes[id.toNat]? = some (.leaf label)
  | .split id condition left right =>
      nodes[id.toNat]? = some (.split condition left.root right.root) ∧
        left.StoredIn nodes ∧ right.StoredIn nodes

@[simp] theorem root_leaf (id : NodeId) (label : Label) : (leaf id label).root = id := rfl

@[simp] theorem root_split (id : NodeId) (condition : Split) (left right : Shape) :
    (split id condition left right).root = id := rfl

theorem leaves_sublist_ids : ∀ s : Shape, (s.leaves.map Prod.fst).Sublist s.ids
  | .leaf _ _ => List.Sublist.refl _
  | .split _ _ left right => by
      rw [leaves, ids, List.map_append]
      exact (left.leaves_sublist_ids.append right.leaves_sublist_ids).cons _

theorem mem_ids_of_mem_leaves {s : Shape} {id : NodeId} {label : Label}
    (h : (id, label) ∈ s.leaves) : id ∈ s.ids :=
  s.leaves_sublist_ids.subset (List.mem_map_of_mem h)

/-- At a split, the tested coordinate decides on the side. -/
theorem descend_split_eq_some_iff {id leaf : NodeId} {condition : Split} {left right : Shape}
    {point : List Nat} :
    (split id condition left right).descend point = some leaf ↔
      ∃ v, point[condition.feature.toNat]? = some v ∧
        ((condition.goesLeft v = true ∧ left.descend point = some leaf) ∨
          (condition.goesLeft v = false ∧ right.descend point = some leaf)) := by
  rw [descend]
  cases point[condition.feature.toNat]? with
  | none => simp
  | some v =>
      simp only [Option.some.injEq, exists_eq_left']
      cases hg : condition.goesLeft v <;> simp

end Shape

namespace Validation

variable {nodes : Array Node}

/-- A walk that stood before node `id` with `marks` and stands behind it with `marks'` has
explored the subtree `s`: its nodes were fresh, each was met once, and all are done. -/
structure Explored (marks marks' : Vector Mark nodes.size) (id : NodeId) (s : Shape) : Prop where
  root_eq : s.root = id
  stored : s.StoredIn nodes
  nodup : s.ids.Nodup
  fresh : ∀ i ∈ s.ids, marks[i.toNat]? = some .fresh
  after : ∀ i : Nat, marks'[i]? =
    if i ∈ s.ids.map UInt32.toNat then some .done else marks[i]?
  unmet_le : unmet marks' ≤ unmet marks

variable {marks : Vector Mark nodes.size}

theorem unmet_set_active_lt {id : NodeId} (h : id.toNat < nodes.size)
    (hf : marks[id.toNat]? = some .fresh) : unmet (marks.set id.toNat .active) < unmet marks := by
  have hf' : marks[(⟨id.toNat, h⟩ : Fin nodes.size)] = .fresh :=
    Option.some.inj ((Vector.getElem?_eq_getElem h).symm.trans hf)
  have : unmet (marks.set id.toNat .active) + 1 = unmet marks := unmet_set_active hf'
  omega

theorem Explored.leaf {id : NodeId} {label : Label} (h : id.toNat < nodes.size)
    (hf : marks[id.toNat]? = some .fresh) (hn : nodes[id.toNat]? = some (.leaf label)) :
    Explored marks ((marks.set id.toNat .active).set id.toNat .done) id (.leaf id label) where
  root_eq := rfl
  stored := hn
  nodup := by simp [Shape.ids]
  fresh i hi := by
    obtain rfl : i = id := by simpa [Shape.ids] using hi
    exact hf
  after i := by
    simp only [Vector.getElem?_set, Shape.ids, List.map_cons, List.map_nil, List.mem_singleton]
    grind
  unmet_le := (unmet_set_done_le _ ⟨id.toNat, h⟩).trans (unmet_set_active_lt h hf).le

theorem Explored.split {marks₁ marks₂ : Vector Mark nodes.size} {id : NodeId}
    {condition : Split} {left right : Shape} (h : id.toNat < nodes.size)
    (hf : marks[id.toNat]? = some .fresh)
    (hn : nodes[id.toNat]? = some (.split condition left.root right.root))
    (hl : Explored (marks.set id.toNat .active) marks₁ left.root left)
    (hr : Explored marks₁ marks₂ right.root right) :
    Explored marks (marks₂.set id.toNat .done) id (.split id condition left right) := by
  -- the marks keep the three parts apart: each was fresh when the one before it was done
  have hidl : ∀ i ∈ left.ids, i.toNat ≠ id.toNat := fun i hi e => by
    have := hl.fresh i hi
    simp [e, h] at this
  have hlr : ∀ i ∈ left.ids, i ∉ right.ids := fun i hi hi' => by
    have := hr.fresh i hi'
    rw [hl.after, if_pos (List.mem_map_of_mem hi)] at this
    cases this
  have hidr : ∀ i ∈ right.ids, i.toNat ≠ id.toNat := fun i hi e => by
    have := hr.fresh i hi
    rw [hl.after, if_neg fun hm => ?_] at this
    · simp [e, h] at this
    · obtain ⟨k, hk, e'⟩ := List.mem_map.1 hm
      exact hidl k hk (e'.trans e)
  refine ⟨rfl, ⟨hn, hl.stored, hr.stored⟩, ?_, fun i hi => ?_, fun i => ?_, ?_⟩
  · refine List.nodup_cons.2 ⟨fun hi => ?_, List.nodup_append.2 ⟨hl.nodup, hr.nodup, ?_⟩⟩
    · rcases List.mem_append.1 hi with hi | hi
      · exact hidl id hi rfl
      · exact hidr id hi rfl
    · rintro i hi j hj rfl
      exact hlr i hi hj
  · rcases List.mem_cons.1 hi with rfl | hi
    · exact hf
    · rcases List.mem_append.1 hi with hi | hi
      · have := hl.fresh i hi
        rwa [Vector.getElem?_set_ne _ (hidl i hi).symm] at this
      · have := hr.fresh i hi
        rwa [hl.after, if_neg fun hm => ?_, Vector.getElem?_set_ne _ (hidr i hi).symm] at this
        obtain ⟨k, hk, e⟩ := List.mem_map.1 hm
        exact hlr k hk (UInt32.toNat_inj.1 e ▸ hi)
  · simp only [Vector.getElem?_set, hr.after, hl.after, Shape.ids, List.map_cons, List.map_append,
      List.mem_cons, List.mem_append]
    grind
  · exact (unmet_set_done_le _ ⟨id.toNat, h⟩).trans
      (hr.unmet_le.trans (hl.unmet_le.trans (unmet_set_active_lt h hf).le))

/-- **A walk explores subtrees.**  A walk that ends well and starts by entering `id` first
explores the subtree of `id`, then goes on with the other visits. -/
theorem exists_explored {bound : Nat} {id : NodeId} (h : id.toNat < nodes.size)
    {rest : List (Visit nodes.size)} {final : Vector Mark nodes.size}
    (hb : unmet marks < bound)
    (hw : walk nodes marks (.enter ⟨id.toNat, h⟩ :: rest) = .ok final) :
    ∃ s marks', Explored marks marks' id s ∧ walk nodes marks' rest = .ok final := by
  -- the walk of the right child starts with other marks, so the induction is on the unmet nodes
  induction bound generalizing marks id rest with
  | zero => omega
  | succ bound ih =>
      obtain ⟨hf, next, hc, hnext⟩ := walk_enter_eq_ok_iff.1 hw
      have hf' : marks[id.toNat]? = some .fresh :=
        (Vector.getElem?_eq_getElem h).trans (congrArg some hf)
      have hlt := unmet_set_active_lt h hf'
      obtain ⟨label, hn, rfl⟩ | ⟨condition, left, right, hn, -, -, hl, hr, rfl⟩ :=
        children_eq_ok_iff.1 hc
      · rw [List.nil_append, walk_leave] at hnext
        exact ⟨_, _, .leaf h hf' ((Array.getElem?_eq_getElem h).trans (congrArg some hn)), hnext⟩
      · simp only [List.cons_append, List.nil_append] at hnext
        obtain ⟨sl, marks₁, el, hw₁⟩ := ih hl (Nat.lt_of_lt_of_le hlt (by omega)) hnext
        obtain ⟨sr, marks₂, er, hw₂⟩ :=
          ih hr (Nat.lt_of_le_of_lt el.unmet_le (Nat.lt_of_lt_of_le hlt (by omega))) hw₁
        obtain rfl := el.root_eq
        obtain rfl := er.root_eq
        rw [walk_leave] at hw₂
        exact ⟨_, _, .split h hf' ((Array.getElem?_eq_getElem h).trans (congrArg some hn)) el er,
          hw₂⟩

end Validation

/-- The list is the layout of the shape, with node 0 as its root. -/
structure Shape.Fills (s : Shape) (nodes : Array Node) : Prop where
  root_eq : s.root = 0
  stored : s.StoredIn nodes
  nodup : s.ids.Nodup
  mem_ids : ∀ i < nodes.size, ∃ id ∈ s.ids, id.toNat = i

open Validation in
theorem Shape.exists_fills {nodes : Array Node} (h : validate nodes = .ok ()) :
    ∃ s : Shape, s.Fills nodes := by
  obtain ⟨h0, final, hw, hall⟩ := validate_eq_ok_iff.1 h
  have hroot : (0 : NodeId).toNat < nodes.size := h0
  obtain ⟨s, marks', e, hw⟩ := exists_explored hroot (Nat.lt_succ_self _) hw
  rw [walk] at hw
  cases hw
  refine ⟨s, e.root_eq, e.stored, e.nodup, fun i hi => ?_⟩
  have hi' := e.after i
  by_cases hm : i ∈ s.ids.map UInt32.toNat
  · simpa using hm
  · exfalso
    rw [if_neg hm] at hi'
    have := hall ⟨i, hi⟩
    simp_all

/-- Every decision tree is the layout of a shape. -/
theorem Tree.exists_shape (t : Tree) : ∃ s : Shape, s.Fills t.nodes := Shape.exists_fills t.valid

namespace Shape

variable {s : Shape} {nodes : Array Node}

theorem StoredIn.lt_of_mem : ∀ {s : Shape}, s.StoredIn nodes →
    ∀ id ∈ s.ids, id.toNat < nodes.size
  | .leaf id label, h, i, hi => by
      obtain rfl : i = id := by simpa [ids] using hi
      exact (Array.getElem?_eq_some_iff.1 h).1
  | .split id condition left right, h, i, hi => by
      obtain ⟨hn, hl, hr⟩ := h
      simp only [ids, List.mem_cons, List.mem_append] at hi
      rcases hi with rfl | hi | hi
      · exact (Array.getElem?_eq_some_iff.1 hn).1
      · exact hl.lt_of_mem i hi
      · exact hr.lt_of_mem i hi

/-- A shape holds the positions of the list it fills, each once. -/
theorem Fills.ids_perm (h : s.Fills nodes) :
    (s.ids.map UInt32.toNat).Perm (List.range nodes.size) := by
  refine (List.perm_ext_iff_of_nodup (h.nodup.map fun a b => UInt32.toNat_inj.1)
    List.nodup_range).2 fun i => ?_
  simp only [List.mem_map, List.mem_range]
  refine ⟨?_, h.mem_ids i⟩
  rintro ⟨id, hid, rfl⟩
  exact h.stored.lt_of_mem id hid

/-- A shape has as many nodes as the list it fills. -/
theorem Fills.length_ids (h : s.Fills nodes) : s.ids.length = nodes.size := by
  simpa using h.ids_perm.length_eq

/-! ### Following the tests -/

theorem StoredIn.descend_eq (point : List Nat) {steps : Nat} :
    ∀ {s : Shape}, s.StoredIn nodes → s.ids.length ≤ steps →
      Tree.descend nodes point steps s.root = s.descend point := by
  induction steps with
  | zero => intro s _ hlen; cases s <;> simp [ids] at hlen
  | succ steps ih =>
      intro s hs hlen
      cases s with
      | leaf id label => simp [Tree.descend, descend, show nodes[id.toNat]? = _ from hs]
      | split id condition left right =>
          obtain ⟨hn, hl, hr⟩ := hs
          simp only [ids, List.length_cons, List.length_append] at hlen
          simp only [Tree.descend, root_split, hn, descend]
          cases point[condition.feature.toNat]? with
          | none => rfl
          | some value =>
              by_cases hg : condition.goesLeft value = true
              · simpa [hg] using ih hl (by omega)
              · simpa [hg] using ih hr (by omega)

/-- The leaf a point reaches is found in the shape. -/
theorem Fills.leafFor_eq {t : Tree} (h : s.Fills t.nodes) (point : List Nat) :
    t.leafFor point = s.descend point := by
  rw [Tree.leafFor, ← h.root_eq]
  exact h.stored.descend_eq point h.length_ids.le

theorem exists_mem_leaves_of_descend {point : List Nat} {id : NodeId} :
    ∀ {s : Shape}, s.descend point = some id → ∃ label, (id, label) ∈ s.leaves
  | .leaf _ label, h => ⟨label, by simp_all [descend, leaves]⟩
  | .split _ _ _ _, h => by
      obtain ⟨_, -, ⟨-, h⟩ | ⟨-, h⟩⟩ := descend_split_eq_some_iff.1 h
      · obtain ⟨label, hm⟩ := exists_mem_leaves_of_descend h
        exact ⟨label, List.mem_append_left _ hm⟩
      · obtain ⟨label, hm⟩ := exists_mem_leaves_of_descend h
        exact ⟨label, List.mem_append_right _ hm⟩

theorem mem_ids_of_descend {s : Shape} {point : List Nat} {id : NodeId}
    (h : s.descend point = some id) : id ∈ s.ids :=
  let ⟨_, hm⟩ := exists_mem_leaves_of_descend h
  mem_ids_of_mem_leaves hm

theorem StoredIn.getElem?_of_mem_leaves {id : NodeId} {label : Label} :
    ∀ {s : Shape}, s.StoredIn nodes → (id, label) ∈ s.leaves →
      nodes[id.toNat]? = some (.leaf label)
  | .leaf _ _, h, hm => by
      obtain ⟨rfl, rfl⟩ : _ ∧ _ := by simpa [leaves] using hm
      exact h
  | .split _ _ _ _, ⟨_, hl, hr⟩, hm => by
      rcases List.mem_append.1 hm with hm | hm
      · exact hl.getElem?_of_mem_leaves hm
      · exact hr.getElem?_of_mem_leaves hm

/-- A leaf of the list at the position of a node of the shape is a leaf of the shape. -/
theorem StoredIn.mem_leaves_of_mem_ids {id : NodeId} {label : Label}
    (hn : nodes[id.toNat]? = some (.leaf label)) :
    ∀ {s : Shape}, s.StoredIn nodes → id ∈ s.ids → (id, label) ∈ s.leaves
  | .leaf id' label', h, hm => by
      obtain rfl : id = id' := by simpa [ids] using hm
      obtain rfl : label' = label := by simpa [show nodes[id.toNat]? = _ from h] using hn
      simp [leaves]
  | .split id' _ _ _, ⟨hs, hl, hr⟩, hm => by
      simp only [ids, List.mem_cons, List.mem_append] at hm
      rcases hm with rfl | hm | hm
      · rw [hs] at hn
        cases hn
      · exact List.mem_append_left _ (hl.mem_leaves_of_mem_ids hn hm)
      · exact List.mem_append_right _ (hr.mem_leaves_of_mem_ids hn hm)

/-- The leaves of the shape are the leaves of the list. -/
theorem Fills.mem_leaves_iff (h : s.Fills nodes) {id : NodeId} {label : Label} :
    (id, label) ∈ s.leaves ↔ nodes[id.toNat]? = some (.leaf label) := by
  refine ⟨h.stored.getElem?_of_mem_leaves, fun hn => ?_⟩
  obtain ⟨id', hid, e⟩ := h.mem_ids id.toNat (Array.getElem?_eq_some_iff.1 hn).1
  obtain rfl := UInt32.toNat_inj.1 e
  exact h.stored.mem_leaves_of_mem_ids hn hid

end Shape

end TernaryRules
