import TernaryRules.Tree
import TernaryRules.Json.Record
import TernaryRules.Json.Writer

/-!
# Trees in JSON

A tree is a record with the list of its nodes, each of which is an object with one field: `leaf`
with a class, or `split` with a condition and two children. Only lists that form a tree are read.
-/

namespace TernaryRules

open Json

/-- A class, as a number. -/
def labelReader : Reader Label := Reader.word32

def labelJson (label : Label) : List Char := writeNat label.toNat

namespace Split

structure Parts where
  feature : Option FeatureId
  threshold : Option UInt64

def record : Record Parts where
  kind := "struct SplitCondition"
  blank := ⟨none, none⟩
  slots := [
    { name := "feature", required := true, filled := fun p => p.feature.isSome,
      read := fun p => return { p with feature := some (← Reader.word32) } },
    { name := "threshold", required := true, filled := fun p => p.threshold.isSome,
      read := fun p =>
        return { p with threshold := some (UInt64.ofNat (← Reader.word64)) } }]

def Parts.finish (p : Parts) : Except Fault Split := do
  let feature ← Record.require "feature" p.feature
  let threshold ← Record.require "threshold" p.threshold
  return { feature, threshold }

def reader : Reader Split := record.read Parts.finish

def json (s : Split) : List Char :=
  writeRecord [
    writeField "feature" (writeNat s.feature.toNat),
    writeField "threshold" (writeNat s.threshold.toNat)]

end Split

namespace Node

/-- The parts of a split node that have been read. -/
structure Parts where
  condition : Option Split
  left : Option NodeId
  right : Option NodeId

def record : Record Parts where
  kind := "struct variant Node::Split"
  blank := ⟨none, none, none⟩
  slots := [
    { name := "condition", required := true, filled := fun p => p.condition.isSome,
      read := fun p => return { p with condition := some (← Split.reader) } },
    { name := "left", required := true, filled := fun p => p.left.isSome,
      read := fun p => return { p with left := some (← Reader.word32) } },
    { name := "right", required := true, filled := fun p => p.right.isSome,
      read := fun p => return { p with right := some (← Reader.word32) } }]

def Parts.finish (p : Parts) : Except Fault Node := do
  let condition ← Record.require "condition" p.condition
  let left ← Record.require "left" p.left
  let right ← Record.require "right" p.right
  return .split condition left right

/-- The two kinds of node. -/
inductive Kind where
  | split
  | leaf

def Kind.reader : Reader Kind := do
  let name ← Reader.textFor "variant identifier"
  if name = "split" then return .split
  else if name = "leaf" then return .leaf
  else throw (.unknownVariant name ["split", "leaf"])

/-- What belongs to a node of a kind. -/
def Kind.contents : Kind → Reader Node
  | split => record.read Parts.finish
  | leaf => return .leaf (← labelReader)

/-- What a kind of node has to stand with. -/
def Kind.form : Kind → String
  | split => "struct variant"
  | leaf => "newtype variant"

def reader : Reader Node := do
  let c ← Reader.start
  if c = '\x7b' then
    Reader.skip
    if (← Reader.start) ≠ '"' then throw .keyNotText
    let kind ← Kind.reader
    Reader.colon
    let node ← kind.contents
    match ← Reader.look with
    | some '\x7d' => Reader.skip; return node
    | some _ => throw .expectedValue
    | none => throw (.ended .object)
  else if c = '"' then
    let kind ← Kind.reader
    throw (.wrongType .unitVariant kind.form)
  else throw .expectedValue

def json : Node → List Char
  | split condition left right =>
      writeRecord [writeField "split" (writeRecord [
        writeField "condition" condition.json,
        writeField "left" (writeNat left.toNat),
        writeField "right" (writeNat right.toNat)])]
  | leaf label => writeRecord [writeField "leaf" (labelJson label)]

end Node

namespace Tree

def record : Record (Option (List Node)) where
  kind := "struct RawTree"
  blank := none
  slots := [
    { name := "nodes", required := true, filled := Option.isSome,
      read := fun _ => return some (← Reader.list Node.reader) }]

def reader : Reader Tree := do
  match ofNodes (← record.read (Record.require "nodes")).toArray with
  | .ok t => return t
  | .error e => throw (.refused e.message)

/-- The tree that a text describes. -/
def ofJson (text : String) : Except Fault Tree := reader.run text

/-- A list of nodes as it is written, whether or not it forms a tree. -/
def nodesJson (nodes : List Node) : List Char :=
  writeRecord [writeField "nodes" (writeList (nodes.map Node.json))]

def json (t : Tree) : List Char := nodesJson t.nodes.toList

end Tree

end TernaryRules
