import TernaryRules.Proofs.Outcome
import TernaryRules.Proofs.Way

/-!
# The defects that validation reports

A list of nodes may have several defects, and validation reports the first one its walk meets.
`Diagnosis` says what each report means, and every report is true (`ofNodes_diagnosis`).

The marks carry the argument (`Standing`).  When the walk stands before a node, at the end of a way
from node 0, the active nodes are those that the way passes.  A node that is done was explored
together with all below it: it lies on no cycle, and another way leads to it, which does not begin
with the present one.  So meeting an active node closes a cycle, and meeting a node that is done
shows a second way.  When the walk stands before a child, this still holds (`Standing.child`), and
so it does when it comes back from one (`Standing.explored`).
-/

namespace TernaryRules

/-- The nodes that are reached from node 0 form one strict binary tree with root 0. -/
structure StrictPart (nodes : Array Node) : Prop where
  inBounds : ∀ i, Reachable nodes i → i < nodes.size
  rootFree : ∀ id side, Reachable nodes id.toNat → child? nodes id side ≠ some 0
  once : ∀ c : NodeId, Reachable nodes c.toNat → c ≠ 0 →
    ∃! slot : NodeId × Side,
      Reachable nodes slot.1.toNat ∧ child? nodes slot.1 slot.2 = some c

/-- What an error says about the nodes. -/
inductive Diagnosis (nodes : Array Node) : TreeError → Prop
  | noNodes : nodes.size = 0 → Diagnosis nodes .noNodes
  | selfLoop {id : NodeId} {side : Side} :
      Reachable nodes id.toNat → child? nodes id side = some id → Diagnosis nodes (.selfLoop id)
  | childOutOfBounds {id c : NodeId} {side : Side} :
      Reachable nodes id.toNat → child? nodes id side = some c → nodes.size ≤ c.toNat →
        (side = .right → ∃ left, child? nodes id .left = some left ∧ left.toNat < nodes.size) →
          Diagnosis nodes (.childOutOfBounds id side c nodes.size)
  | cycle {id other : NodeId} {there back : List Side} :
      Reachable nodes id.toNat → other ≠ id → follow nodes there id = some other →
        follow nodes back other = some id → Diagnosis nodes (.cycle id)
  | secondPath {id : NodeId} {turns turns' : List Side} :
      turns ≠ turns' → follow nodes turns 0 = some id → follow nodes turns' 0 = some id →
        ¬ OnCycle nodes id → Diagnosis nodes (.secondPath id)
  | unreachable {id : NodeId} :
      id.toNat < nodes.size → ¬ Reachable nodes id.toNat →
        (∀ i < id.toNat, Reachable nodes i) → StrictPart nodes → Diagnosis nodes (.unreachable id)

variable {nodes : Array Node}

/-! ### The part that is reached -/

namespace Shape

variable {s : Shape}

theorem StoredIn.strictPart (h : s.StoredIn nodes) (hn : s.ids.Nodup) (hroot : s.root = 0) :
    StrictPart nodes := by
  have hinj : ∀ {turns turns' : List Side} {stop : NodeId}, follow nodes turns 0 = some stop →
      follow nodes turns' 0 = some stop → turns = turns' := fun hf hf' =>
    h.follow_inj hn (hroot ▸ hf) (hroot ▸ hf')
  have hslot : ∀ {id c : NodeId} {side : Side}, Reachable nodes id.toNat →
      child? nodes id side = some c → ∃ turns, follow nodes turns 0 = some id ∧
        follow nodes (turns ++ [side]) 0 = some c := fun hr hc => by
    obtain ⟨turns, id', hf, e⟩ := TernaryRules.reachable_iff.1 hr
    obtain rfl := UInt32.toNat_inj.1 e
    exact ⟨turns, hf, by rw [follow_concat, hf]; exact hc⟩
  refine ⟨fun i hi => ?_, fun id side hr hc => ?_, fun c hr hne => ?_⟩
  · obtain ⟨id, hid, rfl⟩ := (h.reachable_iff hroot).1 hi
    exact h.lt_of_mem id hid
  · obtain ⟨turns, -, hf⟩ := hslot hr hc
    simpa using hinj hf (follow_nil 0)
  · obtain ⟨turns, c', hf, e⟩ := TernaryRules.reachable_iff.1 hr
    obtain rfl := UInt32.toNat_inj.1 e
    rcases List.eq_nil_or_concat turns with rfl | ⟨before, side, rfl⟩
    · exact absurd (Option.some.inj hf).symm hne
    · rw [List.concat_eq_append] at hf
      obtain ⟨id, hid, hc⟩ := Option.bind_eq_some_iff.1 (follow_concat before side 0 ▸ hf)
      refine ⟨(id, side), ⟨Reachable.follow .root hid, hc⟩, ?_⟩
      rintro ⟨id', side'⟩ ⟨hr', hc'⟩
      obtain ⟨before', hid', hf'⟩ := hslot hr' hc'
      obtain ⟨rfl, hside⟩ := List.append_inj' (hinj hf' hf) rfl
      exact Prod.ext (Option.some.inj (hid'.symm.trans hid)) (List.singleton_inj.1 hside)

end Shape

namespace Validation

/-! ### The steps of a walk that fails -/

variable {marks marks' : Vector Mark nodes.size} {turns : List Side} {id : NodeId}

theorem walk_enter_eq_error_iff {id : Fin nodes.size} {rest : List (Visit nodes.size)}
    {e : TreeError} :
    walk nodes marks (.enter id :: rest) = .error e ↔
      (getElem marks id id.isLt = .active ∧ e = .cycle id.val.toUInt32) ∨
      (getElem marks id id.isLt = .done ∧ e = .secondPath id.val.toUInt32) ∨
      getElem marks id id.isLt = .fresh ∧ (children nodes id = .error e ∨
        ∃ next, children nodes id = .ok next ∧
          walk nodes (marks.set id .active id.isLt) (next ++ .leave id :: rest) = .error e) := by
  rw [walk]
  split
  next h => simp [h, eq_comm]
  next h => simp [h, eq_comm]
  next h =>
    split
    next e' hc => simp [h, hc]
    next next hc => simp [h, hc]

theorem children_eq_error_iff {id : Fin nodes.size} {e : TreeError} :
    children nodes id = .error e ↔ ∃ condition left right,
      getElem nodes id id.isLt = .split condition left right ∧
        ((left = id.val.toUInt32 ∨ right = id.val.toUInt32) ∧ e = .selfLoop id.val.toUInt32 ∨
        ¬ (left = id.val.toUInt32 ∨ right = id.val.toUInt32) ∧
          (nodes.size ≤ left.toNat ∧
              e = .childOutOfBounds id.val.toUInt32 .left left nodes.size ∨
            left.toNat < nodes.size ∧ nodes.size ≤ right.toNat ∧
              e = .childOutOfBounds id.val.toUInt32 .right right nodes.size)) := by
  unfold children
  split
  next label h => simp [h]
  next condition left right h =>
    simp only [h, Node.split.injEq]
    split
    next hs => simp; grind
    next hs =>
      split
      next hl =>
        split
        next hr => simp; grind
        next hr => simp; grind
      next hl => simp; grind

theorem walk_enter_fresh {id : Fin nodes.size} {next : List (Visit nodes.size)}
    (hf : getElem marks id id.isLt = .fresh) (hc : children nodes id = .ok next)
    (rest : List (Visit nodes.size)) :
    walk nodes marks (.enter id :: rest) =
      walk nodes (marks.set id .active id.isLt) (next ++ .leave id :: rest) := by
  rw [walk]
  split
  next h => cases hf.symm.trans h
  next h => cases hf.symm.trans h
  next h =>
    split
    next e he => cases hc.symm.trans he
    next next' hn =>
      obtain rfl := Except.ok.inj (hn.symm.trans hc)
      rfl

/-- A walk goes through its visits part by part. -/
theorem walk_append (marks : Vector Mark nodes.size) (first second : List (Visit nodes.size)) :
    walk nodes marks (first ++ second) =
      walk nodes marks first >>= fun marks' => walk nodes marks' second := by
  fun_induction walk nodes marks first with
  | case1 marks => rfl
  | case2 marks id rest _ ih => rw [List.cons_append, walk_leave, ih]
  | case3 marks id rest h => exact walk_enter_eq_error_iff.2 (.inl ⟨h, rfl⟩)
  | case4 marks id rest h => exact walk_enter_eq_error_iff.2 (.inr (.inl ⟨h, rfl⟩))
  | case5 marks id rest h e hc => exact walk_enter_eq_error_iff.2 (.inr (.inr ⟨h, .inl hc⟩))
  | case6 marks id rest h next hc _ _ ih =>
      rw [← ih, List.cons_append, walk_enter_fresh h hc, List.append_assoc, List.cons_append]

/-- A walk that fails below a split fails below the left child, or below the right one after it has
explored the left one. -/
theorem walk_children_eq_error {left right : NodeId} {id : Fin nodes.size} {e : TreeError}
    (hl : left.toNat < nodes.size) (hr : right.toNat < nodes.size)
    (hw : walk nodes marks ([.enter ⟨left.toNat, hl⟩, .enter ⟨right.toNat, hr⟩] ++ [.leave id]) =
      .error e) :
    walk nodes marks [.enter ⟨left.toNat, hl⟩] = .error e ∨
      ∃ s marks', Explored marks marks' left s ∧
        walk nodes marks' [.enter ⟨right.toNat, hr⟩] = .error e := by
  rw [List.cons_append, List.cons_append, List.nil_append, ← List.singleton_append, walk_append,
    bind_eq_error] at hw
  rcases hw with hw | ⟨marks₁, hw₁, hw⟩
  · exact .inl hw
  · obtain ⟨s, marks₂, he, hw₂⟩ := exists_explored hl (Nat.lt_succ_self _) hw₁
    rw [walk] at hw₂
    cases hw₂
    rw [← List.singleton_append, walk_append, bind_eq_error] at hw
    rcases hw with hw | ⟨marks₃, -, hw⟩
    · exact .inr ⟨s, marks₁, he, hw⟩
    · rw [walk_leave, walk] at hw
      cases hw

/-! ### The marks along a way -/

/-- The walk stands before node `id`, at the end of a way from node 0.  The active nodes are passed
by the way, and its last step came from another node.  The nodes that are done lie on no cycle, and
are reached by ways that do not begin with this one. -/
structure Standing (nodes : Array Node) (marks : Vector Mark nodes.size) (turns : List Side)
    (id : NodeId) : Prop where
  leads : follow nodes turns 0 = some id
  parent_ne : ∀ before side, turns = before ++ [side] → follow nodes before 0 ≠ some id
  active : ∀ i : NodeId, marks[i.toNat]? = some .active →
    ∃ before after, after ≠ [] ∧ turns = before ++ after ∧ follow nodes before 0 = some i
  done : ∀ i : NodeId, marks[i.toNat]? = some .done →
    ¬ OnCycle nodes i ∧ ∃ other, ¬ turns <+: other ∧ follow nodes other 0 = some i

theorem Standing.start : Standing nodes (Vector.replicate nodes.size .fresh) [] 0 where
  leads := rfl
  parent_ne := by simp
  active i hi := by simp [Vector.getElem?_replicate] at hi
  done i hi := by simp [Vector.getElem?_replicate] at hi

/-- The walk stands before a child of a node that it has entered. -/
theorem Standing.child (inv : Standing nodes marks turns id) (h : id.toNat < nodes.size)
    {side : Side} {c : NodeId} (hc : child? nodes id side = some c) (hne : c ≠ id) :
    Standing nodes (marks.set id.toNat .active) (turns ++ [side]) c where
  leads := by rw [follow_concat, inv.leads]; exact hc
  parent_ne before side' heq hf := by
    obtain ⟨rfl, -⟩ := List.append_inj' heq rfl
    exact hne (Option.some.inj (hf.symm.trans inv.leads))
  active i hi := by
    by_cases heq : i = id
    · subst heq
      exact ⟨turns, [side], by simp, rfl, inv.leads⟩
    · rw [Vector.getElem?_set_ne _ fun e => heq (UInt32.toNat_inj.1 e).symm] at hi
      obtain ⟨before, after, hafter, rfl, hf⟩ := inv.active i hi
      exact ⟨before, after ++ [side], by simp, List.append_assoc .., hf⟩
  done i hi := by
    by_cases heq : i = id
    · subst heq
      simp [h] at hi
    · rw [Vector.getElem?_set_ne _ fun e => heq (UInt32.toNat_inj.1 e).symm] at hi
      obtain ⟨hcycle, other, hother, hf⟩ := inv.done i hi
      exact ⟨hcycle, other, fun hp => hother ((List.prefix_append ..).trans hp), hf⟩

/-- The walk still stands there when it has explored a node to which another way leads. -/
theorem Standing.explored (inv : Standing nodes marks turns id) {other : List Side} {c : NodeId}
    {s : Shape} (he : Explored marks marks' c s) (hc : follow nodes other 0 = some c)
    (hother : ∀ more, ¬ turns <+: other ++ more) : Standing nodes marks' turns id where
  leads := inv.leads
  parent_ne := inv.parent_ne
  active i hi := by
    rw [he.after] at hi
    split at hi
    · cases hi
    · exact inv.active i hi
  done i hi := by
    rw [he.after] at hi
    split at hi
    next hm =>
      obtain ⟨j, hj, e⟩ := List.mem_map.1 hm
      obtain rfl := UInt32.toNat_inj.1 e
      obtain ⟨more, hf⟩ := he.stored.exists_follow hj
      refine ⟨he.stored.not_onCycle he.nodup hj, other ++ more, hother more, ?_⟩
      rw [follow_append, hc, ← hf, he.root_eq]
      rfl
    next => exact inv.done i hi

/-- Meeting an active node closes a cycle, as its child on the way is another node. -/
theorem Standing.diagnosis_of_active (inv : Standing nodes marks turns id)
    (ha : marks[id.toNat]? = some .active) : Diagnosis nodes (.cycle id) := by
  obtain ⟨before, after, hafter, rfl, hf⟩ := inv.active id ha
  have hback : follow nodes after id = some id := by
    have := inv.leads
    rwa [follow_append, hf] at this
  rcases List.eq_nil_or_concat after with rfl | ⟨there, side, rfl⟩
  · exact absurd rfl hafter
  · rw [List.concat_eq_append, follow_append] at hback
    obtain ⟨other, hthere, hother⟩ := Option.bind_eq_some_iff.1 hback
    refine .cycle (reachable_iff.2 ⟨_, id, hf, rfl⟩) (fun e => ?_) hthere hother
    -- the way would stand at the node one turn before its end
    refine inv.parent_ne (before ++ there) side (by simp) ?_
    rw [follow_append, hf]
    exact hthere.trans (congrArg some e)

theorem Standing.diagnosis_of_done (inv : Standing nodes marks turns id)
    (hd : marks[id.toNat]? = some .done) : Diagnosis nodes (.secondPath id) := by
  obtain ⟨hcycle, other, hother, hf⟩ := inv.done id hd
  refine .secondPath (fun e => hother ?_) inv.leads hf hcycle
  exact e ▸ List.prefix_refl turns

/-- A node whose children are not visited has a defect of its own. -/
theorem Standing.diagnosis_of_children (inv : Standing nodes marks turns id)
    (h : id.toNat < nodes.size) {e : TreeError} (he : children nodes ⟨id.toNat, h⟩ = .error e) :
    Diagnosis nodes e := by
  have hreach : Reachable nodes id.toNat := reachable_iff.2 ⟨turns, id, inv.leads, rfl⟩
  obtain ⟨condition, left, right, hn, he⟩ := children_eq_error_iff.1 he
  have hnode : nodes[id.toNat]? = some (.split condition left right) :=
    (Array.getElem?_eq_getElem h).trans (congrArg some hn)
  have hleft : child? nodes id .left = some left := child?_eq_some_iff.2 ⟨_, hnode, rfl⟩
  have hright : child? nodes id .right = some right := child?_eq_some_iff.2 ⟨_, hnode, rfl⟩
  have hid : id.toNat.toUInt32 = id := UInt32.ofNat_toNat
  simp only [hid] at he
  rcases he with ⟨rfl | rfl, rfl⟩ | ⟨-, ⟨hout, rfl⟩ | ⟨hin, hout, rfl⟩⟩
  · exact .selfLoop hreach hleft
  · exact .selfLoop hreach hright
  · exact .childOutOfBounds hreach hleft hout nofun
  · exact .childOutOfBounds hreach hright hout fun _ => ⟨left, hleft, hin⟩

/-- **A walk that fails reports a defect**, of the node that it stands before or of one below. -/
theorem Standing.diagnosis {bound : Nat} {e : TreeError} (inv : Standing nodes marks turns id)
    (h : id.toNat < nodes.size) (hb : unmet marks < bound)
    (hw : walk nodes marks [.enter ⟨id.toNat, h⟩] = .error e) : Diagnosis nodes e := by
  -- each visit has marks of its own, so the induction is on a bound of the nodes not met
  induction bound generalizing marks turns id with
  | zero => omega
  | succ bound ih =>
      have hmark : marks[id.toNat]? = some marks[id.toNat] := Vector.getElem?_eq_getElem h
      have hid : id.toNat.toUInt32 = id := UInt32.ofNat_toNat
      have hstep := walk_enter_eq_error_iff.1 hw
      simp only [hid] at hstep
      rcases hstep with ⟨ha, rfl⟩ | ⟨hd, rfl⟩ | ⟨hf, hc | ⟨next, hc, hw⟩⟩
      · exact inv.diagnosis_of_active (hmark.trans (congrArg some ha))
      · exact inv.diagnosis_of_done (hmark.trans (congrArg some hd))
      · exact inv.diagnosis_of_children h hc
      · have hlt : unmet (marks.set id.toNat .active) < bound :=
          (unmet_set_active_lt h (hmark.trans (congrArg some hf))).trans_le (Nat.le_of_lt_succ hb)
        obtain ⟨label, -, rfl⟩ | ⟨condition, left, right, hn, hl, hr, hinl, hinr, rfl⟩ :=
          children_eq_ok_iff.1 hc
        · rw [List.nil_append, walk_leave, walk] at hw
          cases hw
        · have hnode : nodes[id.toNat]? = some (.split condition left right) :=
            (Array.getElem?_eq_getElem h).trans (congrArg some hn)
          have hleft : child? nodes id .left = some left := child?_eq_some_iff.2 ⟨_, hnode, rfl⟩
          have hright : child? nodes id .right = some right :=
            child?_eq_some_iff.2 ⟨_, hnode, rfl⟩
          simp only [hid] at hl hr
          have invl := inv.child h hleft hl
          have invr := inv.child h hright hr
          rcases walk_children_eq_error hinl hinr hw with hw | ⟨s, marks₁, he, hw⟩
          · exact ih invl hinl hlt hw
          · have invr' := invr.explored he invl.leads (by simp)
            exact ih invr' hinr (he.unmet_le.trans_lt hlt) hw

end Validation

open Validation

/-! ### What is reported -/

/-- Validation fails on an empty list, in its walk, or for the first node that is still fresh after
the walk. -/
theorem validate_eq_error {e : TreeError} (h : validate nodes = .error e) :
    (nodes.size = 0 ∧ e = .noNodes) ∨ ∃ h0 : 0 < nodes.size,
      walk nodes (Vector.replicate nodes.size .fresh) [.enter ⟨0, h0⟩] = .error e ∨
      ∃ (final : Vector Validation.Mark nodes.size) (i : Nat),
        walk nodes (Vector.replicate nodes.size .fresh) [.enter ⟨0, h0⟩] = .ok final ∧
          e = .unreachable i.toUInt32 ∧ final[i]? = some .fresh ∧
            ∀ j < i, final[j]? ≠ some .fresh := by
  unfold validate at h
  split at h
  next h0 =>
    refine .inr ⟨h0, ?_⟩
    cases hw : walk nodes (Vector.replicate nodes.size .fresh) [.enter ⟨0, h0⟩] with
    | error e' =>
        simp only [hw, Except.error.injEq] at h
        exact .inl (congrArg Except.error h)
    | ok final =>
        simp only [hw] at h
        split at h
        next i hi =>
          cases h
          obtain ⟨hlt, hfresh, hbefore⟩ := Array.findIdx?_eq_some_iff_getElem.1 hi
          have hsize : i < nodes.size := by simpa using hlt
          refine .inr ⟨final, i, rfl, rfl, ?_, fun j hj hfresh' => ?_⟩
          · exact Vector.getElem?_eq_some_iff.2 ⟨hsize, by simpa using hfresh⟩
          · obtain ⟨_, hfresh'⟩ := Vector.getElem?_eq_some_iff.1 hfresh'
            exact hbefore j hj (by simpa using hfresh')
        next => cases h
  next h0 =>
    cases h
    exact .inl ⟨Nat.eq_zero_of_not_pos h0, rfl⟩

/-- A walk that has come to its end has explored what is reached from node 0. -/
theorem unreachable_of_walk (hsize : nodes.size ≤ 2 ^ 32) (h0 : 0 < nodes.size)
    {final : Vector Validation.Mark nodes.size} {i : Nat}
    (hw : walk nodes (Vector.replicate nodes.size .fresh) [.enter ⟨0, h0⟩] = .ok final)
    (hi : final[i]? = some .fresh) (hbefore : ∀ j < i, final[j]? ≠ some .fresh) :
    Diagnosis nodes (.unreachable i.toUInt32) := by
  have hroot : (0 : NodeId).toNat < nodes.size := h0
  obtain ⟨s, marks, he, hend⟩ := exists_explored hroot (Nat.lt_succ_self _) hw
  rw [walk] at hend
  cases hend
  have hreach (j : Nat) : Reachable nodes j ↔ j ∈ s.ids.map UInt32.toNat := by
    rw [he.stored.reachable_iff he.root_eq, List.mem_map]
  have hlt : i < nodes.size := (Vector.getElem?_eq_some_iff.1 hi).1
  have hid : i.toUInt32.toNat = i := UInt32.toNat_ofNat_of_lt' (hlt.trans_le hsize)
  refine .unreachable (by rwa [hid]) ?_ (fun j hj => ?_) (he.stored.strictPart he.nodup he.root_eq)
  · rw [hid, hreach]
    intro hm
    rw [he.after, if_pos hm] at hi
    cases hi
  · rw [hid] at hj
    rw [hreach]
    by_contra hm
    refine hbefore j hj ?_
    rw [he.after, if_neg hm, Vector.getElem?_replicate, if_pos (hj.trans hlt)]

theorem ofNodes_eq_error {e : TreeError} :
    Tree.ofNodes nodes = .error e ↔ validate nodes = .error e := by
  unfold Tree.ofNodes
  split
  next h => simp [h]
  next e' h => simp [h]

/-- **Validation reports defects that are there.**  The error of a list that is refused is true of
the list, and the empty list is refused for being empty. -/
theorem ofNodes_diagnosis (hsize : nodes.size ≤ 2 ^ 32) :
    (∀ e, Tree.ofNodes nodes = .error e → Diagnosis nodes e) ∧
      (Tree.ofNodes nodes = .error .noNodes ↔ nodes.size = 0) := by
  have hdiagnosis : ∀ e, Tree.ofNodes nodes = .error e → Diagnosis nodes e := fun e he => by
    rcases validate_eq_error (ofNodes_eq_error.1 he) with
      ⟨h0, rfl⟩ | ⟨h0, hw | ⟨final, i, hw, rfl, hi, hbefore⟩⟩
    · exact .noNodes h0
    · have hroot : (0 : NodeId).toNat < nodes.size := h0
      exact Standing.start.diagnosis hroot (Nat.lt_succ_self _) hw
    · exact unreachable_of_walk hsize h0 hw hi hbefore
  refine ⟨hdiagnosis, fun he => ?_, fun h0 => ?_⟩
  · cases hdiagnosis _ he with
    | noNodes h0 => exact h0
  · rw [ofNodes_eq_error, validate, dif_neg (Nat.not_lt.2 h0.le)]

/-- Node 1 is a child of node 0 and has it as a child; node 2 has itself as a child, and node 3 is
a child of both. -/
def tangle : Array Node :=
  #[.split ⟨0, 5⟩ 1 2, .split ⟨0, 3⟩ 3 0, .split ⟨1, 8⟩ 2 3, .leaf 4]

/-- The cycle through node 1 is met before the other defects. -/
theorem ofNodes_diagnosis_tangle :
    Tree.ofNodes tangle = .error (.cycle 0) ∧ Diagnosis tangle (.cycle 0) := by
  have hv : validate tangle = .error (.cycle 0) := by cbv
  have h : Tree.ofNodes tangle = .error (.cycle 0) := ofNodes_eq_error.2 hv
  exact ⟨h, (ofNodes_diagnosis (by decide)).1 _ h⟩

end TernaryRules
