import TernaryRules.Proofs.Diagnosis
import TernaryRules.Proofs.Fitted.Defect
import TernaryRules.Proofs.Fitted.Positions

/-!
# The refusals of fitted classifiers

A fitted classifier is refused for the first reason that applies (`Fitted.Refused`): it has no
nodes, an array of another length, a class that is no label, a node with a defect, or nodes that
form no tree.  Without a reason it is accepted (`tree_refused_iff`).

The stages come one after another, and each is reached only when those before it were passed
(`Aligned.tree_eq`, `Sound.tree_eq`).  The nodes that validation is given have all their children
among them, so validation never finds a child out of bounds (`Sound.validate_eq_error`).
-/

namespace TernaryRules.Fitted

variable {m : Fitted} {i : Nat} {e : FittedError}

/-! ### Models -/

/-- There are nodes, and all arrays reach as far as the first one. -/
structure Aligned (m : Fitted) : Prop where
  size_ne : m.size ≠ 0
  lengths : ∀ p ∈ m.lengths, p.2 = m.size

/-- These are the nodes that the arrays hold, and no node has a defect. -/
structure Sound (m : Fitted) (nodes : Array Node) : Prop extends m.Aligned where
  classes : ∀ c ∈ m.classes, IsLabel c
  size_eq : nodes.size = m.size
  holds : ∀ i n, nodes[i]? = some n → m.Holds i n

/-- The first item of a list that has a property. -/
def FirstWith {α : Type} (P : α → Prop) (items : List α) (a : α) : Prop :=
  ∃ k : Nat, items[k]? = some a ∧ P a ∧ ∀ j < k, ∀ b, items[j]? = some b → ¬ P b

/-- The first reason for a refusal that applies. -/
inductive Refused (m : Fitted) : FittedError → Prop
  | noNodes : m.size = 0 → Refused m .noNodes
  | lengthMismatch {array : String} {length : Nat} : m.size ≠ 0 →
      FirstWith (fun p => p.2 ≠ m.size) m.lengths (array, length) →
        Refused m (.lengthMismatch array length m.size)
  | invalidClass {c : Double} : m.Aligned → FirstWith (fun c => ¬ IsLabel c) m.classes c →
      Refused m (.invalidClass c)
  | node {i : Nat} {e : FittedError} : m.Aligned → (∀ c ∈ m.classes, IsLabel c) → m.Defect i e →
      (∀ j < i, ∀ e', ¬ m.Defect j e') → Refused m e
  | malformed {nodes : Array Node} {e : TreeError} : m.Sound nodes → validate nodes = .error e →
      Refused m (.malformed e)

theorem find?_eq_some_iff_firstWith {α : Type} {p : α → Bool} {items : List α} {a : α} :
    items.find? p = some a ↔ FirstWith (fun a => p a = true) items a := by
  rw [List.find?_eq_some_iff_getElem]
  constructor
  · rintro ⟨hp, k, hk, rfl, hbefore⟩
    refine ⟨k, List.getElem?_eq_getElem hk, hp, fun j hj b hb => ?_⟩
    obtain ⟨_, rfl⟩ := List.getElem?_eq_some_iff.1 hb
    simpa using hbefore j hj
  · rintro ⟨k, hk, hp, hbefore⟩
    obtain ⟨hlt, heq⟩ := List.getElem?_eq_some_iff.1 hk
    refine ⟨hp, k, hlt, heq, fun j hj => ?_⟩
    simpa using hbefore j hj _ (List.getElem?_eq_getElem (hj.trans hlt))

theorem checkLengths_eq_error_iff : m.checkLengths = .error e ↔
    ∃ p, FirstWith (fun p => p.2 ≠ m.size) m.lengths p ∧ e = .lengthMismatch p.1 p.2 m.size := by
  have hfirst : ∀ p, m.lengths.find? (fun p => p.2 != m.size) = some p ↔
      FirstWith (fun p => p.2 ≠ m.size) m.lengths p := fun p => by
    simpa using find?_eq_some_iff_firstWith (p := fun p : String × Nat => p.2 != m.size)
  simp only [← hfirst, checkLengths_eq]
  cases m.lengths.find? fun p => p.2 != m.size with
  | none => simp
  | some p => simp [eq_comm]

theorem mapM_label_eq_error_iff : m.classes.mapM label = .error e ↔
    ∃ c, FirstWith (fun c => ¬ IsLabel c) m.classes c ∧ e = .invalidClass c := by
  rw [mapM_eq_error]
  simp only [label_eq_error_iff, exists_eq_ok_iff label_eq_error_iff, FirstWith, not_not]
  constructor
  · rintro ⟨k, c, hk, ⟨hc, rfl⟩, hbefore⟩
    exact ⟨c, ⟨k, hk, hc, hbefore⟩, rfl⟩
  · rintro ⟨c, ⟨k, hk, hc, hbefore⟩, rfl⟩
    exact ⟨k, c, hk, ⟨hc, rfl⟩, hbefore⟩

theorem Defect.lt_size (h : m.Defect i e) : i < m.size := by
  have hleft : ∃ c, m.childrenLeft[i]? = some c := by
    cases h with
    | noCounts hleaf => exact ⟨_, hleaf.choose_spec.1⟩
    | countMismatch hleaf => exact ⟨_, hleaf.choose_spec.1⟩
    | _ hb => exact ⟨_, hb.left⟩
  obtain ⟨c, hc⟩ := hleft
  exact (List.getElem?_eq_some_iff.1 hc).1

theorem getElem?_zipIdx_eq_some_iff {α : Type} {items : List α} {k : Nat} {p : α × Nat} :
    items.zipIdx[k]? = some p ↔ items[k]? = some p.1 ∧ p.2 = k := by
  rw [List.getElem?_zipIdx, Option.map_eq_some_iff, Nat.zero_add]
  constructor
  · rintro ⟨a, ha, rfl⟩
    exact ⟨ha, rfl⟩
  · rintro ⟨ha, rfl⟩
    exact ⟨p.1, ha, rfl⟩

section Rows

variable {labels : List Label} (hlengths : m.checkLengths = .ok ()) (hlabels : m.Labelled labels)
include hlengths hlabels

/-- The rows are refused for the first node with a defect. -/
theorem mapM_node_eq_error_iff :
    (m.rows.zipIdx.mapM fun (r, id) => node labels m.size id r) = .error e ↔
      ∃ i, m.Defect i e ∧ ∀ j < i, ∀ e', ¬ m.Defect j e' := by
  simp only [mapM_eq_error, getElem?_zipIdx_eq_some_iff]
  constructor
  · rintro ⟨_, ⟨r, k⟩, ⟨hr, rfl⟩, he, hbefore⟩
    refine ⟨k, (node_eq_error_iff hr hlabels).1 he, fun j hj e' hd => ?_⟩
    have hlt : j < m.rows.length := length_rows hlengths ▸ hd.lt_size
    have hrow := List.getElem?_eq_getElem hlt
    obtain ⟨n, hn⟩ := hbefore j hj (m.rows[j], j) ⟨hrow, rfl⟩
    -- the row before was read, so its node has no defect
    cases hn.symm.trans ((node_eq_error_iff hrow hlabels).2 hd)
  · rintro ⟨i, hd, hbefore⟩
    have hlt : i < m.rows.length := length_rows hlengths ▸ hd.lt_size
    have hrow := List.getElem?_eq_getElem hlt
    refine ⟨i, (m.rows[i], i), ⟨hrow, rfl⟩, (node_eq_error_iff hrow hlabels).2 hd, ?_⟩
    rintro _ hj ⟨r, j⟩ ⟨hr, rfl⟩
    show ∃ n, node labels m.size j r = .ok n
    cases hn : node labels m.size j r with
    | ok n => exact ⟨n, rfl⟩
    | error e' => exact absurd ((node_eq_error_iff hr hlabels).1 hn) (hbefore j hj e')

theorem mapM_node_eq_ok_iff (hsize : m.size ≤ 2 ^ 32) {nodes : List Node} :
    (m.rows.zipIdx.mapM fun (r, id) => node labels m.size id r) = .ok nodes ↔
      nodes.length = m.size ∧ ∀ i n, nodes[i]? = some n → m.Holds i n := by
  rw [mapM_eq_ok]
  constructor
  · intro h
    refine ⟨by simp [← h.length_eq, length_rows hlengths], fun i n hn => ?_⟩
    obtain ⟨⟨r, _⟩, hr, hnode⟩ := exists_getElem?_of_forall₂ h hn
    obtain ⟨hr, rfl⟩ := getElem?_zipIdx_eq_some_iff.1 hr
    exact (node_eq_ok_iff hr hlabels hsize).1 hnode
  · rintro ⟨hlength, hholds⟩
    refine List.forall₂_iff_get.2 ⟨by simp [hlength, length_rows hlengths], fun i hi hi' => ?_⟩
    have hlt : i < m.rows.length := by simpa using hi
    have hnode := hholds i nodes[i] (List.getElem?_eq_getElem hi')
    simpa using (node_eq_ok_iff (List.getElem?_eq_getElem hlt) hlabels hsize).2 hnode

end Rows

theorem exists_labelled_iff : (∃ labels, m.Labelled labels) ↔ ∀ c ∈ m.classes, IsLabel c :=
  exists_forall₂_iff

/-! ### The tree -/

theorem tree_eq (h0 : m.size ≠ 0) :
    m.tree = m.checkLengths >>= fun _ => m.classes.mapM label >>= fun labels =>
      (m.rows.zipIdx.mapM fun (r, id) => node labels m.size id r) >>= fun nodes =>
        (Tree.ofNodes nodes.toArray).mapError .malformed := by
  rw [tree, if_neg h0]

theorem Aligned.tree_eq (h : m.Aligned) :
    m.tree = m.classes.mapM label >>= fun labels =>
      (m.rows.zipIdx.mapM fun (r, id) => node labels m.size id r) >>= fun nodes =>
        (Tree.ofNodes nodes.toArray).mapError .malformed := by
  rw [Fitted.tree_eq h.size_ne, checkLengths_eq_ok_iff.2 h.lengths]
  rfl

theorem Aligned.tree_eq_of_labelled {labels : List Label} (h : m.Aligned)
    (hlabels : m.Labelled labels) :
    m.tree = (m.rows.zipIdx.mapM fun (r, id) => node labels m.size id r) >>= fun nodes =>
      (Tree.ofNodes nodes.toArray).mapError .malformed := by
  rw [h.tree_eq, labelled_iff.2 hlabels]
  rfl

theorem Sound.tree_eq {nodes : Array Node} (h : m.Sound nodes) (hsize : m.size ≤ 2 ^ 32) :
    m.tree = (Tree.ofNodes nodes).mapError .malformed := by
  obtain ⟨labels, hlabels⟩ := exists_labelled_iff.2 h.classes
  have hnodes : nodes.toList.length = m.size ∧ ∀ i n, nodes.toList[i]? = some n → m.Holds i n :=
    ⟨h.size_eq, fun i n hn => h.holds i n (by rwa [Array.getElem?_toList] at hn)⟩
  have hlengths := checkLengths_eq_ok_iff.2 h.lengths
  rw [h.tree_eq_of_labelled hlabels, (mapM_node_eq_ok_iff hlengths hlabels hsize).2 hnodes]
  rfl

theorem tree_eq_error_iff (hsize : m.size ≤ 2 ^ 32) : m.tree = .error e ↔ m.Refused e := by
  constructor
  · intro h
    by_cases h0 : m.size = 0
    · rw [tree, if_pos h0] at h
      cases h
      exact .noNodes h0
    · rw [tree_eq h0] at h
      rcases bind_eq_error.1 h with h | ⟨⟨⟩, hlengths, h⟩
      · obtain ⟨_, hfirst, rfl⟩ := checkLengths_eq_error_iff.1 h
        exact .lengthMismatch h0 hfirst
      · have haligned : m.Aligned := ⟨h0, checkLengths_eq_ok_iff.1 hlengths⟩
        rcases bind_eq_error.1 h with h | ⟨labels, hlabels, h⟩
        · obtain ⟨c, hfirst, rfl⟩ := mapM_label_eq_error_iff.1 h
          exact .invalidClass haligned hfirst
        · rw [labelled_iff] at hlabels
          have hclasses := exists_labelled_iff.1 ⟨labels, hlabels⟩
          rcases bind_eq_error.1 h with h | ⟨nodes, hnodes, h⟩
          · obtain ⟨i, hd, hbefore⟩ := (mapM_node_eq_error_iff hlengths hlabels).1 h
            exact .node haligned hclasses hd hbefore
          · obtain ⟨e', he, rfl⟩ := mapError_eq_error.1 h
            obtain ⟨hlength, hholds⟩ := (mapM_node_eq_ok_iff hlengths hlabels hsize).1 hnodes
            exact .malformed ⟨haligned, hclasses, hlength, by simpa using hholds⟩
              (ofNodes_eq_error.1 he)
  · intro h
    cases h with
    | noNodes h0 =>
        rw [tree, if_pos h0]
        rfl
    | lengthMismatch h0 hfirst =>
        rw [tree_eq h0]
        exact bind_eq_error.2 (.inl (checkLengths_eq_error_iff.2 ⟨_, hfirst, rfl⟩))
    | invalidClass haligned hfirst =>
        rw [haligned.tree_eq]
        exact bind_eq_error.2 (.inl (mapM_label_eq_error_iff.2 ⟨_, hfirst, rfl⟩))
    | node haligned hclasses hd hbefore =>
        obtain ⟨labels, hlabels⟩ := exists_labelled_iff.2 hclasses
        have hlengths := checkLengths_eq_ok_iff.2 haligned.lengths
        rw [haligned.tree_eq_of_labelled hlabels]
        exact bind_eq_error.2 (.inl ((mapM_node_eq_error_iff hlengths hlabels).2 ⟨_, hd, hbefore⟩))
    | malformed hsound he =>
        rw [hsound.tree_eq hsize]
        exact mapError_eq_error.2 ⟨_, ofNodes_eq_error.2 he, rfl⟩

/-- The classifiers that are accepted are those whose nodes have no defect and form a tree. -/
theorem tree_eq_ok_iff (hsize : m.size ≤ 2 ^ 32) {t : Tree} :
    m.tree = .ok t ↔ m.Sound t.nodes := by
  constructor
  · intro h
    obtain ⟨hlengths, labels, hlabels, hnodes⟩ := tree_eq_ok h
    have h0 : m.size ≠ 0 := fun h0 => by
      rw [tree, if_pos h0] at h
      cases h
    have hlabelled := labelled_iff.1 (mapM_eq_ok.2 hlabels)
    obtain ⟨hlength, hholds⟩ :=
      (mapM_node_eq_ok_iff hlengths hlabelled hsize).1 (mapM_eq_ok.2 hnodes)
    exact ⟨⟨h0, checkLengths_eq_ok_iff.1 hlengths⟩, exists_labelled_iff.1 ⟨labels, hlabelled⟩,
      hlength, by simpa using hholds⟩
  · intro h
    rw [h.tree_eq hsize]
    exact mapError_eq_ok.2 (Tree.ofNodes_eq_ok_iff.2 rfl)

theorem Sound.lt_of_child? {nodes : Array Node} (h : m.Sound nodes) {id c : NodeId} {side : Side}
    (hc : child? nodes id side = some c) : c.toNat < nodes.size := by
  obtain ⟨node, hn, hc⟩ := child?_eq_some_iff.1 hc
  rw [h.size_eq]
  cases h.holds _ _ hn with
  | leaf => cases hc
  | split _ hl hr =>
      cases side with
      | left =>
          cases hc
          exact hl
      | right =>
          cases hc
          exact hr

/-- Sound nodes can only be refused for the form that they have together. -/
theorem Sound.validate_eq_error {nodes : Array Node} (h : m.Sound nodes) {e : TreeError}
    (he : validate nodes = .error e) :
    e ≠ .noNodes ∧ ∀ id side c n, e ≠ .childOutOfBounds id side c n := by
  rcases TernaryRules.validate_eq_error he with ⟨h0, -⟩ | ⟨h0, hw | ⟨final, i, -, rfl, -⟩⟩
  · exact absurd (h.size_eq.symm.trans h0) h.size_ne
  · -- what the walk reports is true, and these two reports are not
    have hroot : (0 : NodeId).toNat < nodes.size := h0
    have hd := Validation.Standing.start.diagnosis hroot (Nat.lt_succ_self _) hw
    refine ⟨?_, ?_⟩
    · rintro rfl
      cases hd with
      | noNodes hempty => exact absurd (h.size_eq.symm.trans hempty) h.size_ne
    · rintro id side c n rfl
      cases hd with
      | childOutOfBounds _ hc hout => exact absurd (h.lt_of_child? hc) (Nat.not_lt.2 hout)
  · exact ⟨nofun, nofun⟩

/-- **A fitted classifier is refused for the first reason that applies, and accepted without one.**
Validation finds no child out of bounds, and no position is past the end of an array. -/
theorem tree_refused_iff (hsize : m.size ≤ 2 ^ 32) :
    (∀ e, m.tree = .error e ↔ m.Refused e) ∧
      (∀ t, m.tree = .ok t ↔ m.Sound t.nodes) ∧
      ((∃ t, m.tree = .ok t) ↔ ∀ e, ¬ m.Refused e) ∧
      (∀ e, m.tree = .error (.malformed e) →
        e ≠ .noNodes ∧ ∀ id side c n, e ≠ .childOutOfBounds id side c n) ∧
      m.treeByPosition = check m.tree := by
  refine ⟨fun e => tree_eq_error_iff hsize, fun t => tree_eq_ok_iff hsize, ?_, fun e he => ?_,
    treeByPosition_eq m⟩
  · simp only [← tree_eq_error_iff hsize]
    cases m.tree with
    | error e => simp
    | ok t => simp
  · cases (tree_eq_error_iff hsize).1 he with
    | node _ _ hd => cases hd
    | malformed hsound hv => exact hsound.validate_eq_error hv

/-- The right child of node 0 is not among the nodes, and node 1 has no counts. -/
def misfit : Fitted :=
  { stump with childrenRight := [3, -1, -1], value := [[], [], []] }

/-- The defect of node 0 comes first. -/
theorem refused_misfit : misfit.Refused (.invalidChild 0 3 3) := by
  have hclasses : ∀ c ∈ misfit.classes, IsLabel c :=
    ((tree_eq_ok_iff (by decide)).1 tree_stump).classes
  have hbranches : misfit.BranchesAt 0 1 3 := ⟨rfl, rfl, by decide⟩
  have hright : ¬ misfit.IsNode 3 := fun h => absurd h.2 (by decide)
  refine .node ⟨by decide, by decide⟩ hclasses ?_ fun j hj => absurd hj (Nat.not_lt_zero j)
  exact .rightChild hbranches ⟨by decide, by decide⟩ hright

theorem tree_refused_iff_misfit :
    misfit.size ≤ 2 ^ 32 ∧ misfit.Refused (.invalidChild 0 3 3) ∧
      misfit.tree = .error (.invalidChild 0 3 3) := by
  have hsize : misfit.size ≤ 2 ^ 32 := by decide
  exact ⟨hsize, refused_misfit, ((tree_refused_iff hsize).1 _).2 refused_misfit⟩

end TernaryRules.Fitted
