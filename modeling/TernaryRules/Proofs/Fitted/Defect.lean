import TernaryRules.Proofs.Fitted

/-!
# The nodes of fitted classifiers

The parts of a node are looked at one after another, each only when those before it are in order.
So a node has at most one defect that counts (`Fitted.Defect`), and its row is refused for that
(`node_eq_error_iff`).  A node without a defect is the one that the arrays hold (`Fitted.Holds`),
with its numbers read as they are: children, features and classes as whole numbers in their ranges,
and thresholds rounded down (`node_eq_ok_iff`).
-/

namespace TernaryRules.Fitted

variable {m : Fitted} {i : Nat} {e : FittedError}

/-! ### Numbers that stand for something -/

/-- A number names a class. -/
def IsLabel (c : Double) : Prop := ∃ l : Label, c.rat? = some (l.toNat : ℚ)

/-- A number can be compared with keys. -/
def IsThreshold (t : Double) : Prop := ∃ q, t.rat? = some q ∧ 0 ≤ q ∧ q < 2 ^ 64

def IsFeature (f : Int) : Prop := 0 ≤ f ∧ f < 2 ^ 32

/-- A number is the position of a node. -/
def IsNode (m : Fitted) (c : Int) : Prop := 0 ≤ c ∧ c < m.size

theorem label_eq_ok_iff {c : Double} {l : Label} :
    label c = .ok l ↔ c.rat? = some (l.toNat : ℚ) := by
  refine ⟨label_eq_ok, fun h => ?_⟩
  obtain ⟨units, hunits, hq⟩ := Option.map_eq_some_iff.1 (c.rat?_eq ▸ h)
  have hone : (Double.one : Int) ≠ 0 := Int.natCast_ne_zero.2 Double.one_pos.ne'
  have heq : units = (l.toNat : Int) * Double.one := by
    rw [div_eq_iff Double.cast_one_pos.ne'] at hq
    refine Int.cast_injective (α := ℚ) ?_
    rw [Int.cast_mul, Int.cast_natCast, Int.cast_natCast]
    exact hq
  have hquot : units / Double.one = (l.toNat : Int) := by rw [heq, Int.mul_ediv_cancel _ hone]
  have hle : (l.toNat : Int) ≤ 4294967295 := by
    have := l.toNat_lt
    omega
  have hrange : 0 ≤ units ∧ units ≤ 4294967295 * Double.one ∧ units % Double.one = 0 := by
    rw [heq]
    refine ⟨Int.mul_nonneg ?_ ?_, Int.mul_le_mul_of_nonneg_right hle ?_, Int.mul_emod_left _ _⟩
    all_goals exact Int.natCast_nonneg _
  have hlabel : (units / Double.one).toNat.toUInt32 = l := by
    rw [hquot, Int.toNat_natCast]
    exact UInt32.ofNat_toNat
  rw [label, hunits]
  simp only [if_pos hrange, hlabel]

theorem label_eq_error_iff {c : Double} :
    label c = .error e ↔ ¬ IsLabel c ∧ e = .invalidClass c := by
  have hok : IsLabel c ↔ ∃ l, label c = .ok l := exists_congr fun l => label_eq_ok_iff.symm
  have herror : ∀ e', label c = .error e' → e' = .invalidClass c := fun e' h => by
    unfold label at h
    split at h
    · exact (Except.error.inj h).symm
    · split at h
      · cases h
      · exact (Except.error.inj h).symm
  rw [hok]
  cases h : label c with
  | ok l => simp
  | error e' => simp [herror e' h, eq_comm]

theorem wholeThreshold_eq_error_iff {t : Double} :
    wholeThreshold i t = .error e ↔ ¬ IsThreshold t ∧ e = .invalidThreshold i t := by
  unfold wholeThreshold
  cases hunits : t.units? with
  | none =>
      have hnone : t.rat? = none := by rw [t.rat?_eq, hunits, Option.map_none]
      simp [IsThreshold, hnone, eq_comm]
  | some units =>
      have hrange : IsThreshold t ↔ 0 ≤ units ∧ units < 2 ^ 64 * Double.one := by
        have hone : (0 : ℚ) < (Double.one : ℚ) := Double.cast_one_pos
        have hlt : (units : ℚ) < 2 ^ 64 * (Double.one : ℚ) ↔ units < 2 ^ 64 * Double.one := by
          rw [← Int.cast_lt (R := ℚ), Int.cast_mul, Int.cast_natCast, Int.cast_pow, Int.cast_ofNat]
        simp only [IsThreshold, Double.rat?_of_units hunits, Option.some.injEq, exists_eq_left',
          le_div_iff₀ hone, zero_mul, Int.cast_nonneg_iff, div_lt_iff₀ hone, hlt]
      rw [hrange]
      exact ite_eq_error

theorem wholeThreshold_eq_ok_iff {t : Double} {w : UInt64} :
    wholeThreshold i t = .ok w ↔ ∃ q : ℚ, t.rat? = some q ∧ 0 ≤ q ∧ w.toNat = ⌊q⌋₊ := by
  refine ⟨wholeThreshold_eq_ok, ?_⟩
  -- a number whose whole part is a key can be compared with keys, so it is not refused
  rintro ⟨q, hq, hnonneg, hfloor⟩
  cases h : wholeThreshold i t with
  | ok w' =>
      obtain ⟨q', hq', -, hfloor'⟩ := wholeThreshold_eq_ok h
      obtain rfl := Option.some.inj (hq.symm.trans hq')
      rw [UInt64.toNat_inj.1 (hfloor.trans hfloor'.symm)]
  | error e =>
      refine absurd ⟨q, hq, hnonneg, ?_⟩ (wholeThreshold_eq_error_iff.1 h).1
      have hword : ⌊q⌋₊ < 2 ^ 64 := hfloor ▸ w.toNat_lt
      exact_mod_cast (Nat.floor_lt hnonneg).1 hword

theorem child_eq_error_iff {c : Int} :
    child m.size i c = .error e ↔ ¬ m.IsNode c ∧ e = .invalidChild i c m.size :=
  ite_eq_error

theorem child_eq_ok_iff (hsize : m.size ≤ 2 ^ 32) {c : Int} {id : NodeId} :
    child m.size i c = .ok id ↔ c = (id.toNat : Int) ∧ id.toNat < m.size := by
  constructor
  · intro h
    have hc := child_eq_ok hsize h
    refine ⟨hc, ?_⟩
    by_contra hlt
    have hnot : ¬ m.IsNode c := fun hnode => hlt (by exact_mod_cast hc ▸ hnode.2)
    rw [child_eq_error_iff.2 ⟨hnot, rfl⟩] at h
    cases h
  · rintro ⟨rfl, hlt⟩
    rw [child, if_pos ⟨Int.natCast_nonneg _, Int.ofNat_lt.2 hlt⟩, Int.toNat_natCast]
    exact congrArg Except.ok UInt32.ofNat_toNat

theorem featureId_eq_error_iff {f : Int} :
    featureId i f = .error e ↔ ¬ IsFeature f ∧ e = .invalidFeature i f :=
  ite_eq_error

theorem featureId_eq_ok_iff {f : Int} {k : FeatureId} :
    featureId i f = .ok k ↔ f = (k.toNat : Int) := by
  refine ⟨featureId_eq_ok, ?_⟩
  rintro rfl
  rw [featureId, if_pos ⟨Int.natCast_nonneg _, by exact_mod_cast k.toNat_lt⟩, Int.toNat_natCast]
  exact congrArg Except.ok UInt32.ofNat_toNat

/-! ### Nodes -/

/-- The arrays have two different children at a node. -/
structure BranchesAt (m : Fitted) (i : Nat) (l r : Int) : Prop where
  left : m.childrenLeft[i]? = some l
  right : m.childrenRight[i]? = some r
  ne : l ≠ r

/-- The defect of a node; of several parts that are wrong it is that of the first. -/
inductive Defect (m : Fitted) (i : Nat) : FittedError → Prop
  | noCounts {value : List (List Double)} : m.LeafAt i → m.value[i]? = some value →
      (value = [] ∨ ∃ others, value = [] :: others) → Defect m i (.noCounts i)
  | countMismatch {counts : List Double} {others : List (List Double)} : m.LeafAt i →
      m.value[i]? = some (counts :: others) → counts ≠ [] → counts.length ≠ m.classes.length →
        Defect m i (.countMismatch i counts.length m.classes.length)
  | leftChild {l r : Int} : m.BranchesAt i l r → ¬ m.IsNode l →
      Defect m i (.invalidChild i l m.size)
  | rightChild {l r : Int} : m.BranchesAt i l r → m.IsNode l → ¬ m.IsNode r →
      Defect m i (.invalidChild i r m.size)
  | feature {l r f : Int} : m.BranchesAt i l r → m.IsNode l → m.IsNode r →
      m.feature[i]? = some f → ¬ IsFeature f → Defect m i (.invalidFeature i f)
  | threshold {l r f : Int} {t : Double} : m.BranchesAt i l r → m.IsNode l → m.IsNode r →
      m.feature[i]? = some f → IsFeature f → m.threshold[i]? = some t → ¬ IsThreshold t →
        Defect m i (.invalidThreshold i t)

/-- The classes are these labels. -/
def Labelled (m : Fitted) (labels : List Label) : Prop :=
  List.Forall₂ (fun c l => c.rat? = some (l.toNat : ℚ)) m.classes labels

/-- The node that the arrays hold at a position without a defect. -/
inductive Holds (m : Fitted) (i : Nat) : Node → Prop
  | leaf {counts : List Double} {others : List (List Double)} {labels : List Label}
      {first : Double × Label} {rest : List (Double × Label)} :
      m.LeafAt i → m.value[i]? = some (counts :: others) → m.Labelled labels →
        counts.length = labels.length → counts.zip labels = first :: rest →
          Holds m i (.leaf (majority first rest))
  | split {l r : NodeId} {condition : Split} {q : ℚ} :
      m.SplitsAt i l.toNat r.toNat condition.feature.toNat q → l.toNat < m.size →
        r.toNat < m.size → 0 ≤ q → condition.threshold.toNat = ⌊q⌋₊ →
          Holds m i (.split condition l r)

theorem labelled_iff {labels : List Label} :
    m.classes.mapM label = .ok labels ↔ m.Labelled labels := by
  simp only [mapM_eq_ok, label_eq_ok_iff, Labelled]

theorem Labelled.unique {labels labels' : List Label} (h : m.Labelled labels)
    (h' : m.Labelled labels') : labels = labels' :=
  Except.ok.inj ((labelled_iff.2 h).symm.trans (labelled_iff.2 h'))

/-! ### Leaves and branches -/

theorem LeafAt.not_branchesAt {l r : Int} (h : m.LeafAt i) : ¬ m.BranchesAt i l r := by
  rintro ⟨hl, hr, hne⟩
  obtain ⟨c, hc, hc'⟩ := h
  exact hne ((Option.some.inj (hl.symm.trans hc)).trans (Option.some.inj (hc'.symm.trans hr)))

theorem BranchesAt.unique {l r l' r' : Int} (h : m.BranchesAt i l r)
    (h' : m.BranchesAt i l' r') : l = l' ∧ r = r' :=
  ⟨Option.some.inj (h.left.symm.trans h'.left), Option.some.inj (h.right.symm.trans h'.right)⟩

theorem defect_iff_of_leafAt (hleaf : m.LeafAt i) {value : List (List Double)}
    (hvalue : m.value[i]? = some value) :
    m.Defect i e ↔ (value = [] ∨ ∃ others, value = [] :: others) ∧ e = .noCounts i ∨
      ∃ counts others, value = counts :: others ∧ counts ≠ [] ∧
        counts.length ≠ m.classes.length ∧
          e = .countMismatch i counts.length m.classes.length := by
  constructor
  · intro h
    cases h with
    | noCounts _ hv hnone =>
        obtain rfl := Option.some.inj (hvalue.symm.trans hv)
        exact .inl ⟨hnone, rfl⟩
    | countMismatch _ hv hcounts hmismatch =>
        exact .inr ⟨_, _, Option.some.inj (hvalue.symm.trans hv), hcounts, hmismatch, rfl⟩
    | _ hb => exact absurd hb hleaf.not_branchesAt
  · rintro (⟨hnone, rfl⟩ | ⟨counts, others, rfl, hcounts, hmismatch, rfl⟩)
    · exact .noCounts hleaf hvalue hnone
    · exact .countMismatch hleaf hvalue hcounts hmismatch

/-- The parts of a branch are looked at in order: the children, the feature, the threshold. -/
theorem defect_iff_of_branchesAt {l r f : Int} {t : Double} (hb : m.BranchesAt i l r)
    (hfeature : m.feature[i]? = some f) (hthreshold : m.threshold[i]? = some t) :
    m.Defect i e ↔ ¬ m.IsNode l ∧ e = .invalidChild i l m.size ∨ m.IsNode l ∧
      (¬ m.IsNode r ∧ e = .invalidChild i r m.size ∨ m.IsNode r ∧
        (¬ IsFeature f ∧ e = .invalidFeature i f ∨ IsFeature f ∧
          ¬ IsThreshold t ∧ e = .invalidThreshold i t)) := by
  constructor
  · intro h
    cases h with
    | noCounts hleaf => exact absurd hb hleaf.not_branchesAt
    | countMismatch hleaf => exact absurd hb hleaf.not_branchesAt
    | leftChild hb' hl =>
        obtain ⟨rfl, rfl⟩ := hb.unique hb'
        exact .inl ⟨hl, rfl⟩
    | rightChild hb' hl hr =>
        obtain ⟨rfl, rfl⟩ := hb.unique hb'
        exact .inr ⟨hl, .inl ⟨hr, rfl⟩⟩
    | feature hb' hl hr hf hno =>
        obtain ⟨rfl, rfl⟩ := hb.unique hb'
        obtain rfl := Option.some.inj (hfeature.symm.trans hf)
        exact .inr ⟨hl, .inr ⟨hr, .inl ⟨hno, rfl⟩⟩⟩
    | threshold hb' hl hr hf hyes ht hno =>
        obtain ⟨rfl, rfl⟩ := hb.unique hb'
        obtain rfl := Option.some.inj (hfeature.symm.trans hf)
        obtain rfl := Option.some.inj (hthreshold.symm.trans ht)
        exact .inr ⟨hl, .inr ⟨hr, .inr ⟨hyes, hno, rfl⟩⟩⟩
  · rintro (⟨hl, rfl⟩ | ⟨hl, ⟨hr, rfl⟩ | ⟨hr, ⟨hf, rfl⟩ | ⟨hf, ht, rfl⟩⟩⟩)
    · exact .leftChild hb hl
    · exact .rightChild hb hl hr
    · exact .feature hb hl hr hfeature hf
    · exact .threshold hb hl hr hfeature hf hthreshold ht

theorem holds_iff_of_leafAt (hleaf : m.LeafAt i) {value : List (List Double)}
    (hvalue : m.value[i]? = some value) {labels : List Label} (hlabels : m.Labelled labels)
    {n : Node} :
    m.Holds i n ↔ ∃ counts others first rest, value = counts :: others ∧
      counts.length = labels.length ∧ counts.zip labels = first :: rest ∧
        n = .leaf (majority first rest) := by
  constructor
  · intro h
    cases h with
    | leaf _ hv hlabels' hlength hzip =>
        obtain rfl := hlabels.unique hlabels'
        exact ⟨_, _, _, _, Option.some.inj (hvalue.symm.trans hv), hlength, hzip, rfl⟩
    | split hs => exact absurd hs hleaf.not_splitsAt
  · rintro ⟨counts, others, first, rest, rfl, hlength, hzip, rfl⟩
    exact .leaf hleaf hvalue hlabels hlength hzip

theorem holds_iff_of_branchesAt {l r f : Int} {t : Double} (hb : m.BranchesAt i l r)
    (hfeature : m.feature[i]? = some f) (hthreshold : m.threshold[i]? = some t) {n : Node} :
    m.Holds i n ↔ ∃ left right condition q, (l = (left.toNat : Int) ∧ left.toNat < m.size) ∧
      (r = (right.toNat : Int) ∧ right.toNat < m.size) ∧ f = (condition.feature.toNat : Int) ∧
        (t.rat? = some q ∧ 0 ≤ q ∧ condition.threshold.toNat = ⌊q⌋₊) ∧
          n = .split condition left right := by
  constructor
  · intro h
    cases h with
    | leaf hleaf => exact absurd hb hleaf.not_branchesAt
    | split hs hl hr hnonneg hfloor =>
        obtain ⟨hleft, hright, -, hf, _, ht, hq⟩ := hs
        obtain rfl := Option.some.inj (hthreshold.symm.trans ht)
        exact ⟨_, _, _, _, ⟨Option.some.inj (hb.left.symm.trans hleft), hl⟩,
          ⟨Option.some.inj (hb.right.symm.trans hright), hr⟩,
          Option.some.inj (hfeature.symm.trans hf), ⟨hq, hnonneg, hfloor⟩, rfl⟩
  · rintro ⟨left, right, condition, q, ⟨rfl, hl⟩, ⟨rfl, hr⟩, rfl, ⟨hq, hnonneg, hfloor⟩, rfl⟩
    have hne : left.toNat ≠ right.toNat := fun e => hb.ne (congrArg Nat.cast e)
    exact .split ⟨hb.left, hb.right, hne, hfeature, t, hthreshold, hq⟩ hl hr hnonneg hfloor

/-! ### Rows -/

theorem leafLabel_eq_error_iff {labels : List Label} {value : List (List Double)} :
    leafLabel labels i value = .error e ↔
      (value = [] ∨ ∃ others, value = [] :: others) ∧ e = .noCounts i ∨
      ∃ counts others, value = counts :: others ∧ counts ≠ [] ∧ counts.length ≠ labels.length ∧
        e = .countMismatch i counts.length labels.length := by
  match value with
  | [] => simp [leafLabel, eq_comm]
  | [] :: others => simp [leafLabel, eq_comm]
  | (count :: counts) :: others =>
      by_cases hlength : (count :: counts).length = labels.length
      · obtain ⟨l, labels, rfl⟩ := List.exists_cons_of_length_eq_add_one hlength.symm
        simp_all [leafLabel]
      · simp only [leafLabel, if_neg hlength]
        simpa [eq_comm] using fun _ => hlength

theorem leafLabel_eq_ok_iff {labels : List Label} {value : List (List Double)} {l : Label} :
    leafLabel labels i value = .ok l ↔ ∃ counts others first rest, value = counts :: others ∧
      counts.length = labels.length ∧ counts.zip labels = first :: rest ∧
        majority first rest = l := by
  match value with
  | [] => simp [leafLabel]
  | [] :: others => simp [leafLabel]
  | (count :: counts) :: others =>
      by_cases hlength : (count :: counts).length = labels.length
      · obtain ⟨l, labels, rfl⟩ := List.exists_cons_of_length_eq_add_one hlength.symm
        simp_all [leafLabel]
      · simp_all [leafLabel]

section Row

variable {r : Row} {labels : List Label} (hr : m.rows[i]? = some r) (hlabels : m.Labelled labels)
include hr hlabels

/-- A row is refused for the defect of its node. -/
theorem node_eq_error_iff : node labels m.size i r = .error e ↔ m.Defect i e := by
  obtain ⟨hleft, hright, hfeature, hthreshold, hvalue⟩ := getElem?_rows.1 hr
  by_cases heq : r.left = r.right
  · have hleaf : m.LeafAt i := ⟨r.left, hleft, heq ▸ hright⟩
    rw [defect_iff_of_leafAt hleaf hvalue, node, if_pos heq, hlabels.length_eq,
      ← leafLabel_eq_error_iff, bind_eq_error]
    exact or_iff_left fun ⟨l, _, h⟩ => nomatch h
  · rw [defect_iff_of_branchesAt ⟨hleft, hright, heq⟩ hfeature hthreshold, node, if_neg heq]
    simp only [bind_eq_error, child_eq_error_iff, featureId_eq_error_iff,
      wholeThreshold_eq_error_iff, pure, Except.pure, reduceCtorEq, and_false, exists_false,
      or_false, exists_and_right, exists_eq_ok_iff child_eq_error_iff,
      exists_eq_ok_iff featureId_eq_error_iff]

/-- A row without a defect is that of the node that the arrays hold. -/
theorem node_eq_ok_iff (hsize : m.size ≤ 2 ^ 32) {n : Node} :
    node labels m.size i r = .ok n ↔ m.Holds i n := by
  obtain ⟨hleft, hright, hfeature, hthreshold, hvalue⟩ := getElem?_rows.1 hr
  by_cases heq : r.left = r.right
  · have hleaf : m.LeafAt i := ⟨r.left, hleft, heq ▸ hright⟩
    rw [holds_iff_of_leafAt hleaf hvalue hlabels, node, if_pos heq, bind_eq_ok]
    simp only [leafLabel_eq_ok_iff]
    constructor
    · rintro ⟨_, ⟨counts, others, first, rest, hcons, hlength, hzip, rfl⟩, hn⟩
      exact ⟨counts, others, first, rest, hcons, hlength, hzip, (Except.ok.inj hn).symm⟩
    · rintro ⟨counts, others, first, rest, hcons, hlength, hzip, rfl⟩
      exact ⟨_, ⟨counts, others, first, rest, hcons, hlength, hzip, rfl⟩, rfl⟩
  · rw [holds_iff_of_branchesAt ⟨hleft, hright, heq⟩ hfeature hthreshold, node, if_neg heq]
    simp only [bind_eq_ok, child_eq_ok_iff hsize, featureId_eq_ok_iff, wholeThreshold_eq_ok_iff]
    constructor
    · rintro ⟨left, hl, right, hri, feature, hf, threshold, ⟨q, hq⟩, hn⟩
      exact ⟨left, right, ⟨feature, threshold⟩, q, hl, hri, hf, hq, (Except.ok.inj hn).symm⟩
    · rintro ⟨left, right, condition, q, hl, hri, hf, hq, rfl⟩
      exact ⟨left, hl, right, hri, _, hf, _, ⟨q, hq⟩, rfl⟩

end Row

end TernaryRules.Fitted
