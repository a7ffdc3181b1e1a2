import TernaryRules.Fitted
import TernaryRules.Proofs.Double
import TernaryRules.Proofs.Evaluation
import TernaryRules.Proofs.Extraction
import TernaryRules.Proofs.Outcome

/-!
# Fitted classifiers keep their classification

The arrays of a fitted classifier are walked as scikit-learn walks them: from node 0, comparing
coordinates with thresholds as numbers, until the two children of a node are equal (`Stops`), unless
the point lacks a coordinate on the way (`Lacks`).  The tree made from the arrays has the same nodes
at the same positions (`tree_nodes`), and a whole number is at most a threshold exactly when it is
at most the whole part of it.  So its walk is that of the arrays, and the class of a leaf is that of
the first of its largest counts (`exists_firstMaximum`).
-/

namespace TernaryRules.Fitted

/-! ### Thresholds and classes -/

/-- A threshold is rounded down. -/
theorem wholeThreshold_eq_ok {id : Nat} {threshold : Double} {whole : UInt64}
    (h : wholeThreshold id threshold = .ok whole) :
    ∃ q : ℚ, threshold.rat? = some q ∧ 0 ≤ q ∧ whole.toNat = ⌊q⌋₊ := by
  unfold wholeThreshold at h
  split at h
  · cases h
  · next units hunits =>
      split at h
      · next hrange =>
          cases h
          obtain ⟨hnonneg, hlt⟩ := hrange
          have hquot : units / Double.one < 2 ^ 64 :=
            Int.ediv_lt_of_lt_mul (Int.natCast_pos.2 Double.one_pos) hlt
          have hword : (units / Double.one).toNat < 2 ^ 64 := by omega
          refine ⟨_, Double.rat?_of_units hunits, ?_, ?_⟩
          · exact div_nonneg (Int.cast_nonneg hnonneg) Double.cast_one_pos.le
          · rw [← Int.floor_toNat, Rat.floor_intCast_div_natCast]
            exact UInt64.toNat_ofNat_of_lt' hword
      · cases h

/-- A class is the whole number that it is given as. -/
theorem label_eq_ok {value : Double} {l : Label} (h : label value = .ok l) :
    value.rat? = some (l.toNat : ℚ) := by
  unfold label at h
  split at h
  · cases h
  · next units hunits =>
      split at h
      · next hrange =>
          cases h
          obtain ⟨hnonneg, hle, hmod⟩ := hrange
          have hone : (0 : Int) < Double.one := Int.natCast_pos.2 Double.one_pos
          have hquot : units / Double.one ≤ 4294967295 := Int.ediv_le_of_le_mul hone hle
          obtain ⟨k, hk⟩ := Int.eq_ofNat_of_zero_le (Int.ediv_nonneg hnonneg hone.le)
          have hunits' : units = (k : Int) * Double.one := by
            rw [← hk, Int.ediv_mul_cancel_of_emod_eq_zero hmod]
          have hlabel : (units / Double.one).toNat.toUInt32.toNat = k := by
            rw [hk] at hquot ⊢
            exact UInt32.toNat_ofNat_of_lt' (by omega : k < 2 ^ 32)
          rw [Double.rat?_of_units hunits, hlabel, hunits', Int.cast_mul, Int.cast_natCast,
            Int.cast_natCast, mul_div_cancel_right₀ _ Double.cast_one_pos.ne']
      · cases h

/-! ### Leaves -/

/-- Position `k` holds the first of the largest counts. -/
def FirstMaximum (counts : List Double) (k : Nat) : Prop :=
  ∃ c, counts[k]? = some c ∧ (∀ d ∈ counts, d.extended ≤ c.extended) ∧
    ∀ j < k, ∀ d, counts[j]? = some d → d.extended < c.extended

/-- The scan keeps the first of the largest counts. -/
theorem exists_majority {best : Double × Label} {rest : List (Double × Label)}
    (h : ∀ p ∈ best :: rest, p.1 ≠ .nan) :
    ∃ before c after, best :: rest = before ++ (c, majority best rest) :: after ∧
      (∀ p ∈ best :: rest, p.1.extended ≤ c.extended) ∧
        ∀ p ∈ before, p.1.extended < c.extended := by
  induction rest generalizing best with
  | nil =>
      refine ⟨[], best.1, [], rfl, fun p hp => ?_, List.forall_mem_nil _⟩
      exact List.mem_singleton.1 hp ▸ le_rfl
  | cons next rest ih =>
      obtain ⟨hbest, hnext, hrest⟩ : best.1 ≠ .nan ∧ next.1 ≠ .nan ∧ ∀ p ∈ rest, p.1 ≠ .nan := by
        simpa using h
      have hlt := Double.lt_iff hbest hnext
      rw [majority]
      split
      · next hless =>
          -- what stands before the next count was below the best of it, and so is that best
          obtain ⟨before, c, after, heq, hmax, hbefore⟩ :=
            ih (List.forall_mem_cons.2 ⟨hnext, hrest⟩)
          have hbelow : best.1.extended < c.extended :=
            (hlt.1 hless).trans_le (hmax next List.mem_cons_self)
          refine ⟨best :: before, c, after, by rw [heq, List.cons_append], ?_, ?_⟩
          · exact List.forall_mem_cons.2 ⟨hbelow.le, hmax⟩
          · exact List.forall_mem_cons.2 ⟨hbelow, hbefore⟩
      · next hless =>
          obtain ⟨before, c, after, heq, hmax, hbefore⟩ :=
            ih (List.forall_mem_cons.2 ⟨hbest, hrest⟩)
          have hle : next.1.extended ≤ best.1.extended := not_lt.1 (mt hlt.2 hless)
          obtain ⟨hmaxBest, hmaxRest⟩ := List.forall_mem_cons.1 hmax
          have hmax' : ∀ p ∈ best :: next :: rest, p.1.extended ≤ c.extended :=
            List.forall_mem_cons.2 ⟨hmaxBest, List.forall_mem_cons.2 ⟨hle.trans hmaxBest, hmaxRest⟩⟩
          generalize majority best rest = label at heq ⊢
          cases before with
          | nil =>
              obtain ⟨rfl, rfl⟩ := List.cons.inj heq
              exact ⟨[], c, next :: rest, rfl, hmax', List.forall_mem_nil _⟩
          | cons first before =>
              obtain ⟨rfl, rfl⟩ := List.cons.inj heq
              obtain ⟨hfirst, hothers⟩ := List.forall_mem_cons.1 hbefore
              refine ⟨best :: next :: before, c, after, rfl, hmax', ?_⟩
              exact List.forall_mem_cons.2
                ⟨hfirst, List.forall_mem_cons.2 ⟨hle.trans_lt hfirst, hothers⟩⟩

/-- A leaf is assigned the class with the first of its largest counts. -/
theorem leafLabel_eq_ok {labels : List Label} {id : Nat} {value : List (List Double)} {l : Label}
    (h : leafLabel labels id value = .ok l) :
    ∃ counts others, value = counts :: others ∧
      ((∀ c ∈ counts, c ≠ .nan) → ∃ k, FirstMaximum counts k ∧ labels[k]? = some l) := by
  unfold leafLabel at h
  split at h
  · cases h
  · cases h
  · next counts others hne =>
      refine ⟨counts, others, rfl, fun hnan => ?_⟩
      split at h
      · next hlength =>
          split at h
          · cases h
          · next best rest hzip =>
              cases h
              have hcounts : (counts.zip labels).map Prod.fst = counts :=
                List.map_fst_zip hlength.le
              have hlabels : (counts.zip labels).map Prod.snd = labels :=
                List.map_snd_zip hlength.ge
              have hpairs : ∀ p ∈ best :: rest, p.1 ≠ .nan := fun p hp =>
                hnan p.1 (hcounts ▸ List.mem_map_of_mem (hzip ▸ hp))
              obtain ⟨before, c, after, heq, hmax, hbefore⟩ := exists_majority hpairs
              rw [hzip, heq] at hcounts hlabels
              refine ⟨before.length, ⟨c, ?_, fun d hd => ?_, fun j hj d hd => ?_⟩, ?_⟩
              · simp [← hcounts]
              · rw [← hcounts, ← heq] at hd
                obtain ⟨p, hp, rfl⟩ := List.mem_map.1 hd
                exact hmax p hp
              · rw [← hcounts, List.map_append, List.getElem?_append_left (by simpa using hj),
                  List.getElem?_map] at hd
                obtain ⟨p, hp, rfl⟩ := Option.map_eq_some_iff.1 hd
                exact hbefore p (List.mem_of_getElem? hp)
              · simp [← hlabels]
      · cases h

/-! ### Nodes -/

/-- The entries of a row stand in the arrays at its position. -/
theorem getElem?_rows {m : Fitted} {i : Nat} {r : Row} :
    m.rows[i]? = some r ↔ m.childrenLeft[i]? = some r.left ∧ m.childrenRight[i]? = some r.right ∧
      m.feature[i]? = some r.feature ∧ m.threshold[i]? = some r.threshold ∧
        m.value[i]? = some r.value := by
  rw [rows, List.getElem?_map, Option.map_eq_some_iff]
  constructor
  · rintro ⟨⟨left, right, feature, threshold, value⟩, h, rfl⟩
    simpa only [List.getElem?_zip_eq_some] using h
  · intro h
    exact ⟨⟨r.left, r.right, r.feature, r.threshold, r.value⟩, by
      simpa only [List.getElem?_zip_eq_some] using h, rfl⟩

/-- The arrays that must be as long as the first one, by name. -/
def lengths (m : Fitted) : List (String × Nat) :=
  [("children_right", m.childrenRight.length), ("feature", m.feature.length),
    ("threshold", m.threshold.length), ("value", m.value.length)]

theorem checkLengths_eq (m : Fitted) : m.checkLengths =
    (m.lengths.find? fun p => p.2 != m.size).elim (.ok ()) fun p =>
      .error (.lengthMismatch p.1 p.2 m.size) := by
  unfold checkLengths lengths size
  dsimp only
  split
  next array length hfind => rw [hfind, Option.elim_some]
  next hnone => rw [hnone, Option.elim_none]

theorem checkLengths_eq_ok_iff {m : Fitted} :
    m.checkLengths = .ok () ↔ ∀ p ∈ m.lengths, p.2 = m.size := by
  have hnone : m.checkLengths = .ok () ↔ m.lengths.find? (fun p => p.2 != m.size) = none := by
    rw [checkLengths_eq]
    cases m.lengths.find? fun p => p.2 != m.size <;> simp
  simp [hnone]

/-- The arrays are of one length. -/
theorem length_rows {m : Fitted} (h : m.checkLengths = .ok ()) : m.rows.length = m.size := by
  have hlengths := checkLengths_eq_ok_iff.1 h
  simp only [lengths, List.forall_mem_cons] at hlengths
  simp [rows, hlengths, size]

theorem toNat_toUInt32_of_nonneg {i : Int} (h : 0 ≤ i) (hlt : i < 2 ^ 32) :
    (i.toNat.toUInt32.toNat : Int) = i := by
  have hword : i.toNat.toUInt32.toNat = i.toNat :=
    UInt32.toNat_ofNat_of_lt' (by omega : i.toNat < 2 ^ 32)
  rw [hword, Int.toNat_of_nonneg h]

theorem child_eq_ok {nodes id : Nat} {i : Int} {c : NodeId} (hnodes : nodes ≤ 2 ^ 32)
    (h : child nodes id i = .ok c) : i = (c.toNat : Int) := by
  unfold child at h
  split at h
  · next hrange =>
      cases h
      exact (toNat_toUInt32_of_nonneg hrange.1 (by omega)).symm
  · cases h

theorem featureId_eq_ok {id : Nat} {i : Int} {k : FeatureId} (h : featureId id i = .ok k) :
    i = (k.toNat : Int) := by
  unfold featureId at h
  split at h
  · next hrange =>
      cases h
      exact (toNat_toUInt32_of_nonneg hrange.1 hrange.2).symm
  · cases h

/-- The arrays mark a node as a leaf by equal children. -/
def LeafAt (m : Fitted) (i : Nat) : Prop :=
  ∃ c, m.childrenLeft[i]? = some c ∧ m.childrenRight[i]? = some c

/-- The arrays have a test at a node: of feature `k` against the number `q`. -/
structure SplitsAt (m : Fitted) (i l r k : Nat) (q : ℚ) : Prop where
  left : m.childrenLeft[i]? = some (l : Int)
  right : m.childrenRight[i]? = some (r : Int)
  ne : l ≠ r
  feature : m.feature[i]? = some (k : Int)
  threshold : ∃ t, m.threshold[i]? = some t ∧ t.rat? = some q

/-- What the arrays say about a node of the tree. -/
def Describes (m : Fitted) (i : Nat) : Node → Prop
  | .leaf label => m.LeafAt i ∧ ∃ counts others, m.value[i]? = some (counts :: others) ∧
      ((∀ c ∈ counts, c ≠ .nan) → ∃ k c, FirstMaximum counts k ∧ m.classes[k]? = some c ∧
        c.rat? = some (label.toNat : ℚ))
  | .split condition left right => ∃ q, 0 ≤ q ∧ condition.threshold.toNat = ⌊q⌋₊ ∧
      m.SplitsAt i left.toNat right.toNat condition.feature.toNat q

theorem describes_of_node_eq_ok {m : Fitted} {labels : List Label} {i : Nat} {r : Row} {n : Node}
    (hsize : m.size ≤ 2 ^ 32)
    (hlabels : List.Forall₂ (fun c l => label c = .ok l) m.classes labels)
    (hr : m.rows[i]? = some r) (hn : node labels m.size i r = .ok n) : m.Describes i n := by
  obtain ⟨hleft, hright, hfeature, hthreshold, hvalue⟩ := getElem?_rows.1 hr
  unfold node at hn
  split at hn
  · next heq =>
      obtain ⟨l, hl, hn⟩ := bind_eq_ok.1 hn
      cases hn
      obtain ⟨counts, others, hcounts, hmax⟩ := leafLabel_eq_ok hl
      refine ⟨⟨r.left, hleft, heq ▸ hright⟩, counts, others, hcounts ▸ hvalue, fun hnan => ?_⟩
      obtain ⟨k, hk, hl⟩ := hmax hnan
      obtain ⟨c, hc, hlabel⟩ := exists_getElem?_of_forall₂ hlabels hl
      exact ⟨k, c, hk, hc, label_eq_ok hlabel⟩
  · next hne =>
      obtain ⟨left, hl, hn⟩ := bind_eq_ok.1 hn
      obtain ⟨right, hri, hn⟩ := bind_eq_ok.1 hn
      obtain ⟨feature, hf, hn⟩ := bind_eq_ok.1 hn
      obtain ⟨threshold, ht, hn⟩ := bind_eq_ok.1 hn
      cases hn
      obtain ⟨q, hq, hnonneg, hfloor⟩ := wholeThreshold_eq_ok ht
      have hl' := child_eq_ok hsize hl
      have hr' := child_eq_ok hsize hri
      refine ⟨q, hnonneg, hfloor, hl' ▸ hleft, hr' ▸ hright, fun heq => hne ?_,
        featureId_eq_ok hf ▸ hfeature, r.threshold, hthreshold, hq⟩
      rw [hl', hr', heq]

/-- There are no more nodes than positions. -/
theorem size_le_of_tree (t : Tree) : t.size ≤ 2 ^ 32 := by
  by_contra hsize
  obtain ⟨s, hs⟩ := t.exists_shape
  obtain ⟨id, -, hid⟩ := hs.mem_ids (2 ^ 32) (Nat.lt_of_not_le hsize)
  have hlt := id.toNat_lt
  omega

theorem tree_eq_ok {m : Fitted} {t : Tree} (h : m.tree = .ok t) :
    m.checkLengths = .ok () ∧
      (∃ labels, List.Forall₂ (fun c l => label c = .ok l) m.classes labels ∧
        List.Forall₂ (fun r n => node labels m.size r.2 r.1 = .ok n) m.rows.zipIdx
          t.nodes.toList) := by
  unfold tree at h
  split at h
  · cases h
  · obtain ⟨⟨⟩, hlengths, h⟩ := bind_eq_ok.1 h
    obtain ⟨labels, hlabels, h⟩ := bind_eq_ok.1 h
    obtain ⟨nodes, hnodes, h⟩ := bind_eq_ok.1 h
    rw [Tree.ofNodes_eq_ok_iff.1 (mapError_eq_ok.1 h)]
    exact ⟨hlengths, labels, mapM_eq_ok.1 hlabels, mapM_eq_ok.1 hnodes⟩

/-- The tree has the nodes that the arrays describe, at the same positions. -/
theorem tree_nodes {m : Fitted} {t : Tree} (h : m.tree = .ok t) :
    t.size = m.size ∧ ∀ i n, t.nodes[i]? = some n → m.Describes i n := by
  obtain ⟨hlengths, labels, hlabels, hnodes⟩ := tree_eq_ok h
  have hsize : t.size = m.size := by
    rw [← length_rows hlengths, Tree.size, ← Array.length_toList, ← hnodes.length_eq,
      List.length_zipIdx]
  refine ⟨hsize, fun i n hn => ?_⟩
  rw [← Array.getElem?_toList] at hn
  obtain ⟨⟨r, j⟩, hr, hnode⟩ := exists_getElem?_of_forall₂ hnodes hn
  rw [List.getElem?_zipIdx] at hr
  obtain ⟨r', hrow, heq⟩ := Option.map_eq_some_iff.1 hr
  cases heq
  rw [Nat.zero_add] at hnode
  exact describes_of_node_eq_ok (hsize ▸ size_le_of_tree t) hlabels hrow hnode

/-! ### Walks -/

/-- The walk of the arrays from node `i` ends at node `l`. -/
inductive Stops (m : Fitted) (point : List Nat) : Nat → Nat → Prop where
  | leaf {i : Nat} : m.LeafAt i → Stops m point i i
  | left {i l r k v stop : Nat} {q : ℚ} : m.SplitsAt i l r k q → point[k]? = some v → (v : ℚ) ≤ q →
      Stops m point l stop → Stops m point i stop
  | right {i l r k v stop : Nat} {q : ℚ} : m.SplitsAt i l r k q → point[k]? = some v → q < (v : ℚ) →
      Stops m point r stop → Stops m point i stop

/-- The walk of the arrays from node `i` comes to a test of a coordinate that the point lacks. -/
inductive Lacks (m : Fitted) (point : List Nat) : Nat → Prop where
  | here {i l r k : Nat} {q : ℚ} : m.SplitsAt i l r k q → point[k]? = none → Lacks m point i
  | left {i l r k v : Nat} {q : ℚ} : m.SplitsAt i l r k q → point[k]? = some v → (v : ℚ) ≤ q →
      Lacks m point l → Lacks m point i
  | right {i l r k v : Nat} {q : ℚ} : m.SplitsAt i l r k q → point[k]? = some v → q < (v : ℚ) →
      Lacks m point r → Lacks m point i

variable {m : Fitted} {t : Tree} {point : List Nat} {i l r k v : Nat} {q : ℚ}

theorem LeafAt.not_splitsAt (h : m.LeafAt i) : ¬ m.SplitsAt i l r k q := by
  rintro ⟨hleft, hright, hne, -, -⟩
  obtain ⟨c, hl, hr⟩ := h
  rw [hl] at hleft
  rw [hr] at hright
  exact hne (Int.ofNat.inj ((Option.some.inj hleft).symm.trans (Option.some.inj hright)))

theorem SplitsAt.unique {l' r' k' : Nat} {q' : ℚ} (h : m.SplitsAt i l r k q)
    (h' : m.SplitsAt i l' r' k' q') : l = l' ∧ r = r' ∧ k = k' ∧ q = q' := by
  obtain ⟨hl, hr, -, hk, t, ht, hq⟩ := h
  obtain ⟨hl', hr', -, hk', t', ht', hq'⟩ := h'
  rw [hl] at hl'
  rw [hr] at hr'
  rw [hk] at hk'
  rw [ht] at ht'
  cases ht'
  rw [hq] at hq'
  exact ⟨Int.ofNat.inj (Option.some.inj hl'), Int.ofNat.inj (Option.some.inj hr'),
    Int.ofNat.inj (Option.some.inj hk'), Option.some.inj hq'⟩

theorem stops_leaf_iff (h : m.LeafAt i) {stop : Nat} : m.Stops point i stop ↔ stop = i := by
  constructor
  · rintro (_ | ⟨hs, -, -, -⟩ | ⟨hs, -, -, -⟩)
    · rfl
    · exact absurd hs h.not_splitsAt
    · exact absurd hs h.not_splitsAt
  · rintro rfl
    exact .leaf h

theorem not_lacks_leaf (h : m.LeafAt i) : ¬ m.Lacks point i := by
  rintro (⟨hs, -⟩ | ⟨hs, -, -, -⟩ | ⟨hs, -, -, -⟩) <;> exact h.not_splitsAt hs

theorem stops_split_iff (h : m.SplitsAt i l r k q) {stop : Nat} :
    m.Stops point i stop ↔ ∃ v, point[k]? = some v ∧
      (((v : ℚ) ≤ q ∧ m.Stops point l stop) ∨ (q < (v : ℚ) ∧ m.Stops point r stop)) := by
  constructor
  · rintro (hleaf | ⟨hs, hv, hle, hstop⟩ | ⟨hs, hv, hlt, hstop⟩)
    · exact absurd h hleaf.not_splitsAt
    · obtain ⟨rfl, rfl, rfl, rfl⟩ := h.unique hs
      exact ⟨_, hv, .inl ⟨hle, hstop⟩⟩
    · obtain ⟨rfl, rfl, rfl, rfl⟩ := h.unique hs
      exact ⟨_, hv, .inr ⟨hlt, hstop⟩⟩
  · rintro ⟨v, hv, ⟨hle, hstop⟩ | ⟨hlt, hstop⟩⟩
    · exact .left h hv hle hstop
    · exact .right h hv hlt hstop

theorem lacks_split_iff (h : m.SplitsAt i l r k q) :
    m.Lacks point i ↔ point[k]? = none ∨ ∃ v, point[k]? = some v ∧
      (((v : ℚ) ≤ q ∧ m.Lacks point l) ∨ (q < (v : ℚ) ∧ m.Lacks point r)) := by
  constructor
  · rintro (⟨hs, hv⟩ | ⟨hs, hv, hle, hlacks⟩ | ⟨hs, hv, hlt, hlacks⟩) <;>
      obtain ⟨rfl, rfl, rfl, rfl⟩ := h.unique hs
    · exact .inl hv
    · exact .inr ⟨_, hv, .inl ⟨hle, hlacks⟩⟩
    · exact .inr ⟨_, hv, .inr ⟨hlt, hlacks⟩⟩
  · rintro (hv | ⟨v, hv, ⟨hle, hlacks⟩ | ⟨hlt, hlacks⟩⟩)
    · exact .here h hv
    · exact .left h hv hle hlacks
    · exact .right h hv hlt hlacks

/-- A whole number is at most a threshold exactly when it is at most its whole part. -/
theorem goesLeft_iff {condition : Split} (hq : 0 ≤ q) (h : condition.threshold.toNat = ⌊q⌋₊) :
    condition.goesLeft v = true ↔ (v : ℚ) ≤ q := by
  rw [Split.goesLeft, decide_eq_true_iff, h, Nat.le_floor_iff hq]

/-- Each step down the shape is a step of the arrays. -/
theorem stops_iff_descend {nodes : Array Node} (h : ∀ i n, nodes[i]? = some n → m.Describes i n)
    {s : Shape} (hs : s.StoredIn nodes) (stop : Nat) :
    (m.Stops point s.root.toNat stop ↔ (s.descend point).map UInt32.toNat = some stop) ∧
      (m.Lacks point s.root.toNat ↔ s.descend point = none) := by
  induction s with
  | leaf id label =>
      have hleaf : m.LeafAt id.toNat := (h _ _ hs).1
      rw [Shape.root_leaf, stops_leaf_iff hleaf, Shape.descend, Option.map_some, Option.some.injEq]
      exact ⟨eq_comm, iff_of_false (not_lacks_leaf hleaf) (Option.some_ne_none id)⟩
  | split id condition left right ihl ihr =>
      obtain ⟨hn, hl, hr⟩ := hs
      obtain ⟨q, hq, hfloor, hsplit⟩ := h _ _ hn
      obtain ⟨hstopsl, hlacksl⟩ := ihl hl
      obtain ⟨hstopsr, hlacksr⟩ := ihr hr
      rw [Shape.root_split, stops_split_iff hsplit, lacks_split_iff hsplit, hstopsl, hstopsr,
        hlacksl, hlacksr, Shape.descend]
      cases hv : point[condition.feature.toNat]? with
      | none => simp
      | some v =>
          have hside := goesLeft_iff (v := v) hq hfloor
          by_cases hle : (v : ℚ) ≤ q
          · simp [hle, hside.2 hle]
          · have hright : condition.goesLeft v = false := by simpa using mt hside.1 hle
            simp [hle, hright, not_le.1 hle]

/-- The class of a point is that of the first of the largest counts of its leaf. -/
theorem evaluate_of_leafFor (h : m.tree = .ok t) {leaf : NodeId}
    (hleaf : t.leafFor point = some leaf) :
    ∃ counts others, m.value[leaf.toNat]? = some (counts :: others) ∧
      ((∀ c ∈ counts, c ≠ .nan) → ∃ k c label, FirstMaximum counts k ∧ m.classes[k]? = some c ∧
        c.rat? = some (label.toNat : ℚ) ∧ t.evaluate point = some label) := by
  obtain ⟨label, hnode⟩ := Tree.exists_label_of_leafFor hleaf
  obtain ⟨-, counts, others, hvalue, hmax⟩ := (tree_nodes h).2 _ _ hnode
  have heval : t.evaluate point = some label := by
    rw [Tree.evaluate, hleaf, Option.bind_some, hnode]
    rfl
  refine ⟨counts, others, hvalue, fun hnan => ?_⟩
  obtain ⟨k, c, hk, hc, hlabel⟩ := hmax hnan
  exact ⟨k, c, label, hk, hc, hlabel, heval⟩

/-- **The tree classifies as the arrays do.**  It has the nodes of the arrays, the walks stop at the
same nodes and lack the same coordinates, and the class of a leaf is that of the first of its
largest counts.  The number of nodes needs no bound, as a tree has no more nodes than positions. -/
theorem tree_classifies (h : m.tree = .ok t) :
    (t.size = m.size ∧ ∀ i n, t.nodes[i]? = some n → m.Describes i n) ∧
      ∀ point : List Nat,
        (∀ stop, m.Stops point 0 stop ↔ (t.leafFor point).map UInt32.toNat = some stop) ∧
        (m.Lacks point 0 ↔ t.leafFor point = none) ∧
        ∀ leaf, t.leafFor point = some leaf →
          ∃ counts others, m.value[leaf.toNat]? = some (counts :: others) ∧
            ((∀ c ∈ counts, c ≠ .nan) → ∃ k c label, FirstMaximum counts k ∧
              m.classes[k]? = some c ∧ c.rat? = some (label.toNat : ℚ) ∧
                t.evaluate point = some label) := by
  refine ⟨tree_nodes h, fun point => ?_⟩
  obtain ⟨s, hs⟩ := t.exists_shape
  have hwalk : ∀ stop, _ ∧ (m.Lacks point _ ↔ _) := stops_iff_descend (tree_nodes h).2 hs.stored
  rw [hs.root_eq, ← hs.leafFor_eq] at hwalk
  exact ⟨fun stop => (hwalk stop).1, (hwalk 0).2, fun leaf hleaf => evaluate_of_leafFor h hleaf⟩

/-- A test of one coordinate against 7.5; the counts of the left leaf are equal. -/
def stump : Fitted where
  childrenLeft := [1, -1, -1]
  childrenRight := [2, -1, -1]
  feature := [0, -2, -2]
  threshold := [.finite false 8444249301319680 (-50) (by decide), .zero false, .zero false]
  value := [[[.ofNat 3, .ofNat 4]], [[.ofNat 2, .ofNat 2]], [[.ofNat 1, .ofNat 2]]]
  classes := [.ofNat 4, .ofNat 9]

theorem tree_stump : stump.tree = .ok (.stump 7 4 9) := by
  have hnodes : stump.tree.toOption.map Tree.nodes = some (Tree.stump 7 4 9).nodes := by
    decide +kernel
  cases h : stump.tree with
  | error e =>
      rw [h] at hnodes
      cases hnodes
  | ok t =>
      rw [h] at hnodes
      obtain ⟨nodes, valid⟩ := t
      cases Option.some.inj hnodes
      rfl

/-- The numbers 7 and 8 lie on different sides, and of the equal counts the first one decides. -/
theorem tree_classifies_stump :
    stump.tree = .ok (.stump 7 4 9) ∧ stump.Stops [7] 0 1 ∧ stump.Stops [8] 0 2 ∧
      stump.Lacks [] 0 ∧ ∃ k c label, FirstMaximum [.ofNat 2, .ofNat 2] k ∧
        stump.classes[k]? = some c ∧ c.rat? = some (label.toNat : ℚ) ∧
          (Tree.stump 7 4 9).evaluate [7] = some label := by
  obtain ⟨-, hwalk⟩ := tree_classifies tree_stump
  refine ⟨tree_stump, ((hwalk [7]).1 1).2 rfl, ((hwalk [8]).1 2).2 rfl, (hwalk []).2.1.2 rfl, ?_⟩
  obtain ⟨counts, others, hvalue, hmax⟩ := (hwalk [7]).2.2 1 rfl
  cases hvalue
  exact hmax (by decide)

end TernaryRules.Fitted
