import TernaryRules.Proofs.Json.Number
import TernaryRules.Proofs.Json.Record
import TernaryRules.Proofs.StrictTree
import TernaryRules.Tree.Json

/-!
# Trees are read back

Every node is read back from its text, whatever it refers to: positions, features and classes are
words of 32 bits and thresholds words of 64, and those are what their fields have room for
(`Node.reads`).  So reading a list of nodes says about them exactly what validation says, and a text
leads to a tree only through validation.
-/

namespace TernaryRules

open Json Json.Reader

theorem reads_word32 (n : UInt32) : Reads word32 (writeNat n.toNat) (some n) := by
  have hbound : n.toNat ≤ 4294967295 := Nat.le_of_lt_succ n.toNat_lt
  have hread := (reads_natural "u32" (by decide : 4294967295 ≤ maxKey) n.toNat).map UInt32.ofNat
  rwa [if_pos hbound, Option.map_some, UInt32.ofNat_toNat] at hread

theorem reads_word64 (n : UInt64) : Reads word64 (writeNat n.toNat) (some n.toNat) := by
  have hbound : n.toNat ≤ maxKey := Nat.le_of_lt_succ n.toNat_lt
  have hread := reads_natural "u64" (Nat.le_refl maxKey) n.toNat
  rwa [if_pos hbound] at hread

theorem Split.reads (s : Split) : Reads reader s.json (some s) := by
  have hfields : record.Fills record.blank
      [writeField "feature" (writeNat s.feature.toNat),
        writeField "threshold" (writeNat s.threshold.toNat)]
      (some ⟨some s.feature, some (.ofNat s.threshold.toNat)⟩) :=
    .cons rfl rfl ((reads_word32 s.feature).map fun n => Parts.mk (some n) none) <|
      .single rfl rfl <|
        (reads_word64 s.threshold).map fun n => Parts.mk (some s.feature) (some (.ofNat n))
  rw [UInt64.ofNat_toNat] at hfields
  exact hfields.reads Parts.finish

namespace Node

/-- The key that a kind of node stands under. -/
def Kind.name : Kind → String
  | split => "split"
  | leaf => "leaf"

theorem parse?_kind (k : Kind) (rest : List Char) :
    parse? Kind.reader (writeText k.name ++ rest) = some (k, rest) := by
  rw [Kind.reader, parse?_bind, parse?_textFor]
  cases k <;> rfl

/-- A node stands under the key of its kind. -/
theorem reads_of_contents {k : Kind} {text : List Char} {node : Node}
    (h : Reads k.contents text (some node)) :
    Reads reader (writeRecord [writeField k.name text]) (some node) := by
  refine ⟨⟨'\x7b', _, rfl, rfl, by decide⟩, fun rest _ => ?_⟩
  have htext : writeRecord [writeField k.name text] ++ rest =
      '\x7b' :: (writeText k.name ++ ':' :: (text ++ '\x7d' :: rest)) := by
    simp [writeRecord, writeField]
  have hquote : parse? start (writeText k.name ++ ':' :: (text ++ '\x7d' :: rest)) =
      some ('"', writeText k.name ++ ':' :: (text ++ '\x7d' :: rest)) := parse?_start_cons rfl
  have hcontents := h.parse ('\x7d' :: rest) (delimited_cons (.inr (.inr rfl)))
  have hclose : parse? look ('\x7d' :: rest) = some (some '\x7d', '\x7d' :: rest) :=
    parse?_look_cons rfl
  rw [htext, reader, parse?_bind, parse?_start_cons rfl]
  simp [hquote, parse?_kind, parse?_colon, hcontents, hclose]

theorem reads (node : Node) : Reads reader node.json (some node) := by
  cases node with
  | leaf label => exact reads_of_contents (k := .leaf) ((reads_word32 label).map Node.leaf)
  | split condition left right =>
      have hfields : record.Fills record.blank
          [writeField "condition" condition.json, writeField "left" (writeNat left.toNat),
            writeField "right" (writeNat right.toNat)]
          (some ⟨some condition, some left, some right⟩) :=
        .cons rfl rfl (condition.reads.map fun s => Parts.mk (some s) none none) <|
        .cons rfl rfl ((reads_word32 left).map fun n => Parts.mk (some condition) (some n) none) <|
        .single rfl rfl <|
          (reads_word32 right).map fun n => Parts.mk (some condition) (some left) (some n)
      exact reads_of_contents (k := .split) (hfields.reads Parts.finish)

end Node

namespace Tree

theorem reads_nodesJson (nodes : List Node) :
    Reads (record.read (Record.require "nodes")) (nodesJson nodes) (some nodes) := by
  have hall : nodes.mapM some = some nodes :=
    (List.mapM_pure (m := Option) (l := nodes) (f := id)).trans (congrArg some (List.map_id nodes))
  have hitems : Reads (list Node.reader) (writeList (nodes.map Node.json)) (nodes.mapM some) :=
    reads_list fun node _ => node.reads
  have hfields : record.Fills record.blank [writeField "nodes" (writeList (nodes.map Node.json))]
      ((nodes.mapM some).map some) :=
    .single rfl rfl (hitems.map some)
  rw [hall] at hfields
  exact hfields.reads (Record.require "nodes")

/-- A node list is read as the tree it forms, or refused for the defect that validation meets. -/
theorem ofJson_nodesJson (nodes : List Node) :
    ofJson (String.ofList (nodesJson nodes)) =
      (ofNodes nodes.toArray).mapError fun e => .refused e.message :=
  (reads_nodesJson nodes).run_bind fun cs => by cases ofNodes nodes.toArray <;> rfl

/-- **A tree is read back from its text, and a node list is read as validation finds it**: as the
tree it forms, or with the message of its defect. -/
theorem ofJson_nodes :
    (∀ t : Tree, ofJson (String.ofList t.json) = .ok t) ∧
      (∀ nodes : List Node, (ofJson (String.ofList (nodesJson nodes))).mapError Fault.message =
        (ofNodes nodes.toArray).mapError TreeError.message) ∧
      ∀ text t, ofJson text = .ok t → StrictTree t.nodes := by
  refine ⟨fun t => ?_, fun nodes => ?_, fun text t _ => validate_eq_ok_iff_strictTree.1 t.valid⟩
  · rw [json, ofJson_nodesJson, Array.toArray_toList, ofNodes_eq_ok_iff.2 rfl]
    rfl
  · rw [ofJson_nodesJson]
    cases ofNodes nodes.toArray <;> rfl

end Tree

end TernaryRules
