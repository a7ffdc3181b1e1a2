import TernaryRules.Proofs.Fitted

/-!
# Fitted classifiers, position by position

The arrays of a fitted classifier can also be read one position at a time.  Then each reading may
find that the position is past the end of its array (`Fitted.entry`), and so may the scan for the
largest count, which keeps the position of the largest count so far (`scan`).  The tree that is made
in this way is the one that is made from the rows, and so are the refusals (`treeByPosition_eq`): as
the lengths of the arrays are compared first, no position is past the end of an array.
-/

namespace TernaryRules.Fitted

/-- Why the reading of arrays stops: at a position that an array does not have, or with a
refusal. -/
inductive Stop where
  | outOfRange (e : OutOfRange)
  | refused (e : FittedError)

def entry {α : Type} (items : List α) (i : Nat) : Except Stop α :=
  (itemAt items i).mapError .outOfRange

/-- A check, as a part of the reading. -/
def check {α : Type} (x : Except FittedError α) : Except Stop α := x.mapError .refused

/-- The position of the largest count, the first of several; the given one unless another has
more. -/
def scan (counts : List Double) : Nat → List (Double × Nat) → Except Stop Nat
  | best, [] => .ok best
  | best, (count, i) :: rest => do
      let largest ← entry counts best
      scan counts (if largest.lt count then i else best) rest

def leafLabelAt (labels : List Label) (id : Nat) (value : List (List Double)) :
    Except Stop Label :=
  match value with
  | [] | [] :: _ => .error (.refused (.noCounts id))
  | counts :: _ =>
      if counts.length = labels.length then do
        let best ← scan counts 0 counts.zipIdx.tail
        entry labels best
      else .error (.refused (.countMismatch id counts.length labels.length))

def nodeAt (m : Fitted) (labels : List Label) (id : Nat) : Except Stop Node := do
  let left ← entry m.childrenLeft id
  let right ← entry m.childrenRight id
  if left = right then
    let value ← entry m.value id
    return .leaf (← leafLabelAt labels id value)
  else
    let left ← check (child m.size id left)
    let right ← check (child m.size id right)
    let feature ← check (featureId id (← entry m.feature id))
    let threshold ← check (wholeThreshold id (← entry m.threshold id))
    return .split ⟨feature, threshold⟩ left right

/-- The decision tree, by reading the arrays at one position after another. -/
def treeByPosition (m : Fitted) : Except Stop Tree := do
  if m.size = 0 then throw (.refused .noNodes)
  check m.checkLengths
  let labels ← check (m.classes.mapM label)
  let nodes ← (List.range m.size).mapM (m.nodeAt labels)
  check ((Tree.ofNodes nodes.toArray).mapError .malformed)

theorem entry_eq_ok {α : Type} {items : List α} {i : Nat} {a : α} (h : items[i]? = some a) :
    entry items i = .ok a := by
  simp only [entry, itemAt, h]
  rfl

theorem entry_bind {α β : Type} {items : List α} {i : Nat} {a : α} (h : items[i]? = some a)
    (f : α → Except Stop β) : (entry items i >>= f) = f a := by
  rw [entry_eq_ok h]
  rfl

theorem check_bind {α β : Type} (x : Except FittedError α) (f : α → Except FittedError β) :
    check (x >>= f) = check x >>= fun a => check (f a) := by
  cases x with
  | error e => rfl
  | ok a => rfl

/-- The scan keeps the position of the count that the majority is decided by. -/
theorem scan_eq {counts : List Double} {labels : List Label} {rest : List (Double × Nat)}
    {pairs : List (Double × Label)} {best : Nat} {first : Double × Label}
    (h : List.Forall₂ (fun p q => p.1 = q.1 ∧ counts[p.2]? = some q.1 ∧ labels[p.2]? = some q.2)
      rest pairs)
    (hcount : counts[best]? = some first.1) (hlabel : labels[best]? = some first.2) :
    (scan counts best rest >>= entry labels) = .ok (majority first pairs) := by
  -- the largest count so far stands at the position that is kept, with its class
  induction h generalizing best first with
  | nil => exact entry_eq_ok hlabel
  | @cons p q rest pairs hpq _ ih =>
      obtain ⟨count, i⟩ := p
      obtain ⟨rfl, hcount', hlabel'⟩ := hpq
      have hstep : scan counts best ((q.1, i) :: rest) =
          scan counts (if first.1.lt q.1 then i else best) rest := entry_bind hcount _
      rw [hstep, majority]
      split
      · exact ih hcount' hlabel'
      · exact ih hcount hlabel

/-- The counts and the classes stand at the same positions. -/
theorem forall₂_zipIdx_zip {counts : List Double} {labels : List Label}
    (hlength : counts.length = labels.length) :
    List.Forall₂ (fun p q => p.1 = q.1 ∧ counts[p.2]? = some q.1 ∧ labels[p.2]? = some q.2)
      counts.zipIdx (counts.zip labels) := by
  refine List.forall₂_iff_get.2 ⟨by simp [hlength], fun i hi hi' => ?_⟩
  have hcount : i < counts.length := by simpa using hi
  have hlabel : i < labels.length := hlength ▸ hcount
  simp [hcount, hlabel]

theorem leafLabelAt_eq (labels : List Label) (id : Nat) :
    ∀ value, leafLabelAt labels id value = check (leafLabel labels id value)
  | [] => rfl
  | [] :: others => rfl
  | (count :: counts) :: others => by
      simp only [leafLabelAt, leafLabel]
      by_cases hlength : (count :: counts).length = labels.length
      · rw [if_pos hlength, if_pos hlength]
        have hpairs := forall₂_zipIdx_zip hlength
        cases labels with
        | nil => cases hlength
        | cons l labels =>
            -- the scan begins behind the first count, which is the largest so far
            rw [List.zipIdx_cons, List.zip_cons_cons] at hpairs
            exact scan_eq (List.forall₂_cons.1 hpairs).2 rfl rfl
      · rw [if_neg hlength, if_neg hlength]
        rfl

/-- Reading the arrays at a position is reading the row there. -/
theorem nodeAt_eq {m : Fitted} {i : Nat} {r : Row} (hr : m.rows[i]? = some r)
    (labels : List Label) : m.nodeAt labels i = check (node labels m.size i r) := by
  obtain ⟨hleft, hright, hfeature, hthreshold, hvalue⟩ := getElem?_rows.1 hr
  rw [nodeAt, entry_bind hleft, entry_bind hright, node]
  by_cases heq : r.left = r.right
  · rw [if_pos heq, if_pos heq, entry_bind hvalue, check_bind, leafLabelAt_eq]
    rfl
  · rw [if_neg heq, if_neg heq]
    simp only [entry_bind hfeature, entry_bind hthreshold, check_bind]
    rfl

/-- As all arrays reach as far as the first one, each position has a row. -/
theorem mapM_nodeAt_eq {m : Fitted} (h : m.checkLengths = .ok ()) (labels : List Label) :
    (List.range m.size).mapM (m.nodeAt labels) =
      check (m.rows.zipIdx.mapM fun (r, id) => node labels m.size id r) := by
  have hrange : List.range m.size = m.rows.zipIdx.map Prod.snd := by
    rw [List.zipIdx_map_snd, length_rows h, List.range_eq_range']
  rw [hrange, List.mapM_map, check, ← mapM_mapError]
  refine mapM_congr fun p hp => ?_
  exact nodeAt_eq (List.mem_zipIdx_iff_getElem?.1 hp) labels

/-- **No position is past the end of an array.**  Reading the arrays at one position after another
makes the same tree as reading their rows, with the same refusals. -/
theorem treeByPosition_eq (m : Fitted) : m.treeByPosition = check m.tree := by
  by_cases hsize : m.size = 0
  · rw [treeByPosition, tree, if_pos hsize, if_pos hsize]
    rfl
  · rw [treeByPosition, tree, if_neg hsize, if_neg hsize]
    cases hlengths : m.checkLengths with
    | error e => rfl
    | ok u =>
        show (check (m.classes.mapM label) >>= fun labels => _) = check (m.classes.mapM label >>= _)
        simp only [check_bind, mapM_nodeAt_eq hlengths]

end TernaryRules.Fitted
