import Mathlib.Data.List.Forall2
import Mathlib.Data.List.Nodup
import Mathlib.Data.List.Perm.Subperm
import Mathlib.Tactic.Common

/-!
# Partitions

A list of items with points is *exclusive* when no point belongs to two of the items: the blocks of
a cover, the tuples of a product, the regions of a tree and the rules of a compilation are.  A point
of an exclusive list is at exactly one position (`Exclusive.existsUnique_position`), and for any list
that is a matter of counting (`existsUnique_position_iff`).

When the items of another list refine an exclusive one and still have all its points, the other list
is at least as long (`Refines.length_le`), and of the same length only if it has the same items
(`Refines.perm`): every part has an item of its own, so with no item to spare the item is the
whole part.
-/

namespace TernaryRules

variable {α β : Type} {mem : α → β → Prop}

/-- No point belongs to two items. -/
def Exclusive (mem : α → β → Prop) (items : List α) : Prop :=
  items.Pairwise fun a b => ∀ p, ¬ (mem a p ∧ mem b p)

theorem exists_of_mem_right {R : α → β → Prop} {items : List α} {others : List β}
    (h : List.Forall₂ R items others) {b : β} (hb : b ∈ others) : ∃ a ∈ items, R a b := by
  induction h with
  | nil => cases hb
  | cons hr _ ih =>
      rcases List.mem_cons.1 hb with rfl | hb
      · exact ⟨_, List.mem_cons_self, hr⟩
      · obtain ⟨a, ha, hr⟩ := ih hb
        exact ⟨a, List.mem_cons_of_mem _ ha, hr⟩

theorem exists_of_mem_left {R : α → β → Prop} {items : List α} {others : List β}
    (h : List.Forall₂ R items others) {a : α} (ha : a ∈ items) : ∃ b ∈ others, R a b :=
  exists_of_mem_right h.flip ha

/-- An item with some property is at exactly one position when one such item is counted. -/
theorem existsUnique_position_iff {test : α → Bool} {items : List α} :
    (∃! k : Nat, ∃ a, items[k]? = some a ∧ test a = true) ↔ items.countP test = 1 := by
  induction items with
  | nil => simp
  | cons a items ih =>
      by_cases ha : test a = true
      · rw [List.countP_cons_of_pos ha, Nat.add_eq_right, List.countP_eq_zero]
        constructor
        · rintro ⟨k, -, hk⟩ b hb htest
          obtain ⟨j, hj⟩ := List.getElem?_of_mem hb
          exact Nat.succ_ne_zero j ((hk (j + 1) ⟨b, hj, htest⟩).trans (hk 0 ⟨a, rfl, ha⟩).symm)
        · refine fun hnone => ⟨0, ⟨a, rfl, ha⟩, fun k ⟨b, hk, htest⟩ => ?_⟩
          cases k with
          | zero => rfl
          | succ k => exact absurd htest (hnone b (List.mem_of_getElem? hk))
      · rw [List.countP_cons_of_neg ha, ← ih]
        constructor
        · rintro ⟨k, ⟨b, hb, htest⟩, hk⟩
          cases k with
          | zero => exact absurd (Option.some.inj hb ▸ htest) ha
          | succ k => exact ⟨k, ⟨b, hb, htest⟩, fun j hj => Nat.succ.inj (hk (j + 1) hj)⟩
        · rintro ⟨k, hb, hk⟩
          refine ⟨k + 1, hb, fun j ⟨b, hj, htest⟩ => ?_⟩
          cases j with
          | zero => exact absurd (Option.some.inj hj ▸ htest) ha
          | succ j => exact congrArg Nat.succ (hk j ⟨b, hj, htest⟩)

namespace Exclusive

theorem position_eq {items : List α} (h : Exclusive mem items) {j k : Nat} {a b : α}
    (hj : items[j]? = some a) (hk : items[k]? = some b) {p : β} (ha : mem a p) (hb : mem b p) :
    j = k := by
  obtain ⟨hjl, rfl⟩ := List.getElem?_eq_some_iff.1 hj
  obtain ⟨hkl, rfl⟩ := List.getElem?_eq_some_iff.1 hk
  rcases Nat.lt_trichotomy j k with hlt | rfl | hlt
  · exact absurd ⟨ha, hb⟩ (List.pairwise_iff_getElem.1 h j k hjl hkl hlt p)
  · rfl
  · exact absurd ⟨hb, ha⟩ (List.pairwise_iff_getElem.1 h k j hkl hjl hlt p)

theorem eq_of_mem {items : List α} (h : Exclusive mem items) {a b : α} (ha : a ∈ items)
    (hb : b ∈ items) {p : β} (hpa : mem a p) (hpb : mem b p) : a = b := by
  obtain ⟨j, hj⟩ := List.getElem?_of_mem ha
  obtain ⟨k, hk⟩ := List.getElem?_of_mem hb
  obtain rfl := h.position_eq hj hk hpa hpb
  exact Option.some.inj (hj.symm.trans hk)

/-- A point that belongs to an item belongs to the item at exactly one position. -/
theorem existsUnique_position {items : List α} (h : Exclusive mem items) {p : β}
    (hp : ∃ a ∈ items, mem a p) : ∃! k : Nat, ∃ a, items[k]? = some a ∧ mem a p := by
  obtain ⟨a, ha, hpa⟩ := hp
  obtain ⟨k, hk⟩ := List.getElem?_of_mem ha
  exact ⟨k, ⟨a, hk, hpa⟩, fun j ⟨b, hj, hpb⟩ => h.position_eq hj hk hpb hpa⟩

theorem nodup {items : List α} (h : Exclusive mem items) (hp : ∀ a ∈ items, ∃ p, mem a p) :
    items.Nodup := by
  refine List.Pairwise.imp_of_mem (fun {a b} ha _ hab => ?_) h
  rintro rfl
  obtain ⟨p, hpa⟩ := hp a ha
  exact hab p ⟨hpa, hpa⟩

/-- Exclusive lists, each within a member of an exclusive list of groups, are exclusive when put
together. -/
theorem flatten {γ : Type} {within : γ → β → Prop} {groups : List γ} {lists : List (List α)}
    (hg : Exclusive within groups)
    (h : List.Forall₂ (fun g items =>
      Exclusive mem items ∧ ∀ a ∈ items, ∀ p, mem a p → within g p) groups lists) :
    Exclusive mem lists.flatten := by
  induction h with
  | nil => exact .nil
  | @cons g items groups lists hi hrest ih =>
      obtain ⟨hapart, hgroups⟩ := List.pairwise_cons.1 hg
      refine List.pairwise_append.2 ⟨hi.1, ih hgroups, fun a ha b hb p hp => ?_⟩
      obtain ⟨items', hitems, hb⟩ := List.mem_flatten.1 hb
      obtain ⟨g', hg', hin⟩ := exists_of_mem_right hrest hitems
      exact hapart g' hg' p ⟨hi.2 a ha p hp.1, hin.2 b hb p hp.2⟩

end Exclusive

/-- The items of `finer` lie in those of `parts`, and have all their points. -/
structure Refines (mem : α → β → Prop) (finer parts : List α) : Prop where
  inside : ∀ t ∈ finer, ∃ c ∈ parts, ∀ p, mem t p → mem c p
  covered : ∀ c ∈ parts, ∀ p, mem c p → ∃ t ∈ finer, mem t p

namespace Refines

variable {finer parts : List α}

/-- Each part of a partition contains an item of its own. -/
theorem exists_subset_map (h : Refines mem finer parts) (he : Exclusive mem parts)
    (hp : ∀ c ∈ parts, ∃ p, mem c p) :
    ∃ part : α → α, (∀ t ∈ finer, part t ∈ parts ∧ ∀ p, mem t p → mem (part t) p) ∧
      parts ⊆ finer.map part := by
  have hinside : ∀ t, ∃ c, t ∈ finer → c ∈ parts ∧ ∀ p, mem t p → mem c p := by
    intro t
    by_cases ht : t ∈ finer
    · obtain ⟨c, hc, hsub⟩ := h.inside t ht
      exact ⟨c, fun _ => ⟨hc, hsub⟩⟩
    · exact ⟨t, fun ht' => absurd ht' ht⟩
  choose part hpart using hinside
  refine ⟨part, hpart, fun c hc => ?_⟩
  obtain ⟨p, hcp⟩ := hp c hc
  obtain ⟨t, ht, htp⟩ := h.covered c hc p hcp
  obtain ⟨hmem, hsub⟩ := hpart t ht
  exact List.mem_map.2 ⟨t, ht, he.eq_of_mem hmem hc (hsub p htp) hcp⟩

/-- A refinement has at least as many items as there are parts. -/
theorem length_le (h : Refines mem finer parts) (he : Exclusive mem parts)
    (hp : ∀ c ∈ parts, ∃ p, mem c p) : parts.length ≤ finer.length := by
  obtain ⟨part, -, hsub⟩ := h.exists_subset_map he hp
  calc parts.length ≤ (finer.map part).length := ((he.nodup hp).subperm hsub).length_le
    _ = finer.length := List.length_map part

/-- A refinement with as many items as there are parts consists of the parts. -/
theorem perm (h : Refines mem finer parts) (he : Exclusive mem parts)
    (hp : ∀ c ∈ parts, ∃ p, mem c p)
    (hext : ∀ t ∈ finer, ∀ c ∈ parts, (∀ p, mem t p ↔ mem c p) → t = c)
    (hlen : finer.length = parts.length) : finer.Perm parts := by
  obtain ⟨part, hpart, hsub⟩ := h.exists_subset_map he hp
  have hperm : parts.Perm (finer.map part) :=
    ((he.nodup hp).subperm hsub).perm_of_length_le (Nat.le_of_eq (by rw [List.length_map, hlen]))
  have hnodup : (finer.map part).Nodup := hperm.nodup_iff.1 (he.nodup hp)
  have hself : ∀ t ∈ finer, part t = t := by
    intro t ht
    obtain ⟨hmem, hin⟩ := hpart t ht
    refine (hext t ht (part t) hmem fun p => ⟨hin p, fun hcp => ?_⟩).symm
    -- the item that has the point lies in the same part, so it is `t`
    obtain ⟨t', ht', hp'⟩ := h.covered (part t) hmem p hcp
    obtain ⟨hmem', hin'⟩ := hpart t' ht'
    have hsame : part t' = part t := he.eq_of_mem hmem' hmem (hin' p hp') hcp
    exact List.inj_on_of_nodup_map hnodup ht' ht hsame ▸ hp'
  have hmap : finer.map part = finer := by
    rw [List.map_congr_left hself, List.map_id']
  exact hmap ▸ hperm.symm

end Refines

end TernaryRules
