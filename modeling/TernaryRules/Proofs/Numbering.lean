import TernaryRules.Proofs.Plan

/-!
# Priorities

The rules of a compilation are numbered by position.  `Counter` is the same numbering carried out
in words, one rule after the other: it stops where a sum or a difference is no word.  A compilation
checks once, before any rule, that the last priority is a word, and then the counter never stops
(`Counter.next?_eq`, `Counter.priorities?_eq`).

The priorities are consecutive (`map_priority_number`): they run up from the base, or down to it.
The direction has no other effect (`compile_withOrder`).
-/

namespace TernaryRules

/-! ### Counting in words -/

/-- A sum, when it is a word. -/
def sum? (m n : Nat) : Option Nat := if m + n ≤ maxKey then some (m + n) else none

/-- A difference, when it is not below zero. -/
def difference? (m n : Nat) : Option Nat := if n ≤ m then some (m - n) else none

theorem sum?_eq {m n : Nat} (h : m + n ≤ maxKey) : sum? m n = some (m + n) := if_pos h

theorem difference?_eq {m n : Nat} (h : n ≤ m) : difference? m n = some (m - n) := if_pos h

/-- A counter that numbers `total` rules from a base on and has numbered `index` of them. -/
structure Counter where
  base : Nat
  order : PriorityOrder
  total : Nat
  index : Nat

/-- The counter of the settings after some of the rules. -/
def Settings.counter (s : Settings) (total index : Nat) : Counter :=
  ⟨s.priorityBase, s.priorityOrder, total, index⟩

namespace Counter

/-- How far above the base the next priority is. -/
def offset? (c : Counter) : Option Nat :=
  match c.order with
  | .ascending => some c.index
  | .descending => do
      let top ← difference? c.total 1
      difference? top c.index

/-- The next priority, and the counter after it. -/
def next? (c : Counter) : Option (Nat × Counter) := do
  let offset ← c.offset?
  let index ← sum? c.index 1
  let priority ← sum? c.base offset
  return (priority, { c with index })

/-- The next `n` priorities. -/
def priorities? : Nat → Counter → Option (List Nat)
  | 0, _ => some []
  | n + 1, c => do
      let (priority, c) ← c.next?
      let rest ← priorities? n c
      return priority :: rest

variable {s : Settings} {total : Nat}

/-- **One step of the counter**: while rules are left to number, it gives the priority of the
position and goes on. -/
theorem next?_eq {index : Nat} (hi : index < total) (ht : total ≤ maxKey)
    (hp : s.priorityBase + (total - 1) ≤ maxKey) :
    (s.counter total index).next? = some (s.priority total index, s.counter total (index + 1)) := by
  have hindex : sum? index 1 = some (index + 1) := sum?_eq (Nat.le_trans hi ht)
  cases ho : s.priorityOrder with
  | ascending =>
      have hsum : sum? s.priorityBase index = some (s.priorityBase + index) := sum?_eq (by omega)
      simp [next?, offset?, Settings.counter, Settings.priority, ho, hindex, hsum]
  | descending =>
      have htop : difference? total 1 = some (total - 1) := difference?_eq (by omega)
      have hoffset : difference? (total - 1) index = some (total - 1 - index) :=
        difference?_eq (by omega)
      have hsum : sum? s.priorityBase (total - 1 - index) =
          some (s.priorityBase + (total - 1 - index)) := sum?_eq (by omega)
      simp [next?, offset?, Settings.counter, Settings.priority, ho, hindex, htop, hoffset, hsum]

/-- A run of the counter gives the priorities of the positions in order. -/
theorem priorities?_eq {n index : Nat} (hi : index + n ≤ total) (ht : total ≤ maxKey)
    (hp : s.priorityBase + (total - 1) ≤ maxKey) :
    (s.counter total index).priorities? n =
      some ((List.range' index n).map (s.priority total)) := by
  induction n generalizing index with
  | zero => rfl
  | succ n ih =>
      rw [priorities?, next?_eq (by omega) ht hp]
      show (do
        let rest ← (s.counter total (index + 1)).priorities? n
        return s.priority total index :: rest) = _
      rw [ih (by omega), List.range'_succ]
      rfl

end Counter

/-! ### The sequence of priorities -/

variable {s : Settings} {tree : Tree} {table : FeatureTable}

theorem map_priority_number (rules : Nat) (bodies : List RuleBody) :
    (number s rules bodies).map Rule.priority =
      (List.range bodies.length).map (s.priority rules) := by
  rw [number, List.map_map, List.range_eq_range', ← List.zipIdx_map_snd 0 bodies, List.map_map]
  rfl

/-- The priorities of `n` rules run through `n` numbers from the base on. -/
theorem map_priority_range (s : Settings) (n : Nat) :
    (List.range n).map (s.priority n) =
      match s.priorityOrder with
      | .ascending => List.range' s.priorityBase n
      | .descending => (List.range' s.priorityBase n).reverse := by
  cases ho : s.priorityOrder with
  | ascending =>
      rw [List.range'_eq_map_range]
      refine List.map_congr_left fun k _ => ?_
      rw [Settings.priority, ho]
  | descending =>
      rw [List.reverse_range']
      refine List.map_congr_left fun k hk => ?_
      have hlt := List.mem_range.1 hk
      simp only [Settings.priority, ho]
      omega

/-- Rules that are numbered as the settings ask for. -/
structure Numbered (s : Settings) (rules : List Rule) : Prop where
  /-- A counter in words numbers them and does not stop. -/
  counted : (s.counter rules.length 0).priorities? rules.length = some (rules.map Rule.priority)
  priority_eq : ∀ (k : Nat) (r : Rule), rules[k]? = some r →
    r.priority = match s.priorityOrder with
      | .ascending => s.priorityBase + k
      | .descending => s.priorityBase + (rules.length - 1 - k)
  nodup : (rules.map Rule.priority).Nodup
  /-- They fill the numbers from the base on. -/
  mem_iff : ∀ v, v ∈ rules.map Rule.priority ↔
    s.priorityBase ≤ v ∧ v ≤ s.priorityBase + (rules.length - 1)
  le_maxKey : ∀ v ∈ rules.map Rule.priority, v ≤ maxKey
  monotone : match s.priorityOrder with
    | .ascending => (rules.map Rule.priority).Pairwise (· < ·)
    | .descending => (rules.map Rule.priority).Pairwise (· > ·)

/-- Rules are numbered when there are some and the last priority is a word. -/
theorem numbered_number {bodies : List RuleBody} (hpos : 0 < bodies.length)
    (hn : bodies.length ≤ maxKey) (hp : s.priorityBase + (bodies.length - 1) ≤ maxKey) :
    Numbered s (number s bodies.length bodies) := by
  have hmap := map_priority_number (s := s) bodies.length bodies
  have hrange := hmap.trans (map_priority_range s bodies.length)
  have hmem : ∀ v, v ∈ (number s bodies.length bodies).map Rule.priority ↔
      s.priorityBase ≤ v ∧ v ≤ s.priorityBase + (bodies.length - 1) := by
    intro v
    rw [hrange]
    cases s.priorityOrder with
    | ascending =>
        rw [List.mem_range'_1]
        omega
    | descending =>
        rw [List.mem_reverse, List.mem_range'_1]
        omega
  refine {
    counted := ?_
    priority_eq := ?_
    nodup := ?_
    mem_iff := ?_
    le_maxKey := fun v hv => ((hmem v).1 hv).2.trans hp
    monotone := ?_ }
  · rw [length_number, hmap, List.range_eq_range']
    exact Counter.priorities?_eq (by omega) hn hp
  · intro k r hr
    have hlt : k < bodies.length := by
      have := (List.getElem?_eq_some_iff.1 hr).1
      rwa [length_number] at this
    have hk := congrArg (fun priorities : List Nat => priorities[k]?) hmap
    simp only [List.getElem?_map, hr, List.getElem?_range hlt, Option.map_some,
      Option.some.injEq] at hk
    rw [hk, length_number]
    rfl
  · rw [hrange]
    cases s.priorityOrder with
    | ascending => exact List.nodup_range'
    | descending => exact List.nodup_reverse.2 List.nodup_range'
  · rw [length_number]
    exact hmem
  · rw [hrange]
    cases s.priorityOrder with
    | ascending => exact List.pairwise_lt_range'
    | descending => exact List.pairwise_reverse.2 List.pairwise_lt_range'

/-! ### The two directions -/

/-- The settings with another direction. -/
def Settings.withOrder (s : Settings) (order : PriorityOrder) : Settings :=
  { s with priorityOrder := order }

/-- The output with its rules numbered by other settings. -/
def Output.renumber (output : Output) (s : Settings) : Output :=
  { output with rules := number s output.stats.rules (output.rules.map Rule.body) }

theorem Output.map_body_renumber (output : Output) (s : Settings) :
    (output.renumber s).rules.map Rule.body = output.rules.map Rule.body :=
  map_body_number _ _

/-- The direction has no effect but on the numbers of the rules. -/
theorem compile_withOrder (order : PriorityOrder) :
    compile (s.withOrder order) tree table =
      (compile s tree table).map fun output => output.renumber (s.withOrder order) := by
  rw [compile, compile]
  simp only [map_bind]
  refine bind_congr fun p => bind_congr fun _ => bind_congr fun _ => bind_congr fun bodies => ?_
  show Except.ok _ = Except.ok (Output.renumber _ (s.withOrder order))
  rw [Output.renumber, map_body_number]

/-- The priorities of the two directions are each other's reversed. -/
theorem map_priority_reverse (s : Settings) (bodies : List RuleBody) :
    (number (s.withOrder .ascending) bodies.length bodies).map Rule.priority =
      ((number (s.withOrder .descending) bodies.length bodies).map Rule.priority).reverse := by
  rw [map_priority_number, map_priority_number, map_priority_range, map_priority_range]
  exact (List.reverse_reverse _).symm

/-- The rules of a compilation are as many as planned, and numbered as the settings ask for. -/
theorem compile_numbered (hn : tree.ruleCount table ≤ maxKey) {output : Output}
    (h : compile s tree table = .ok output) :
    output.rules.length = output.stats.rules ∧ Numbered s output.rules := by
  obtain ⟨extraction, bodies, he, -, hlengths, hcheck, rfl⟩ := compile_planned h
  have hlen : tree.ruleCount table = bodies.flatten.length :=
    (length_flatten_eq he hn hlengths).symm
  have hpos := Tree.one_le_ruleCount he
  rw [clamp_of_le hn] at hcheck ⊢
  constructor
  · rw [length_number, ← hlen]
    exact (clamp_of_le hn).symm
  · -- the number that was checked is the number of the rules, so the check bounds the last priority
    rw [hlen] at hpos hn hcheck ⊢
    exact numbered_number hpos hn (le_of_checkPriorities hpos hcheck)

/-- **Rules are numbered consecutively**, upwards or downwards from the base, and the counter that
numbers them in words does not stop.  Compilations that differ in the direction only fail with the
same errors, or have the same rules in the same order with the numbers reversed. -/
theorem compile_numbers (hn : tree.ruleCount table ≤ maxKey) :
    (∀ output, compile s tree table = .ok output →
      output.rules.length = output.stats.rules ∧ Numbered s output.rules) ∧
    (∀ e, compile (s.withOrder .ascending) tree table = .error e ↔
      compile (s.withOrder .descending) tree table = .error e) ∧
    ∀ up down, compile (s.withOrder .ascending) tree table = .ok up →
      compile (s.withOrder .descending) tree table = .ok down →
      up.rules.map Rule.body = down.rules.map Rule.body ∧
      up.rules.map Rule.priority = (down.rules.map Rule.priority).reverse := by
  refine ⟨fun output h => compile_numbered hn h, ?_, ?_⟩
  · intro e
    rw [compile_withOrder, compile_withOrder, map_eq_error, map_eq_error]
  · intro up down hup hdown
    rw [compile_withOrder] at hup hdown
    -- both are renumberings of one output, that of the settings themselves
    obtain ⟨output, h, rfl⟩ := map_eq_ok.1 hup
    obtain ⟨output', h', rfl⟩ := map_eq_ok.1 hdown
    obtain rfl := Except.ok.inj (h.symm.trans h')
    have hlen : output.stats.rules = (output.rules.map Rule.body).length := by
      rw [List.length_map, (compile_numbered hn h).1]
    constructor
    · rw [Output.map_body_renumber, Output.map_body_renumber]
    · rw [Output.renumber, Output.renumber, hlen]
      exact map_priority_reverse s _

/-- Numbers four rules from the largest word downwards. -/
def Settings.topmost : Settings :=
  { Settings.default with priorityBase := maxKey - 3, priorityOrder := .descending }

theorem compile_numbers_stump :
    ∃ output, compile .topmost (Tree.stump 7 4 9) .nibble = .ok output ∧
      output.rules.map Rule.priority = [maxKey, maxKey - 1, maxKey - 2, maxKey - 3] ∧
      Numbered .topmost output.rules := by
  have hn : (Tree.stump 7 4 9).ruleCount .nibble ≤ maxKey := by
    rw [Tree.ruleCount_stump]
    decide
  have hpriorities : (compile .topmost (Tree.stump 7 4 9) .nibble).toOption.map
      (fun output => output.rules.map Rule.priority) =
        some [maxKey, maxKey - 1, maxKey - 2, maxKey - 3] := by decide +kernel
  cases h : compile .topmost (Tree.stump 7 4 9) .nibble with
  | error e =>
      rw [h] at hpriorities
      cases hpriorities
  | ok output =>
      rw [h] at hpriorities
      exact ⟨output, rfl, Option.some.inj hpriorities, ((compile_numbers hn).1 output h).2⟩

end TernaryRules
