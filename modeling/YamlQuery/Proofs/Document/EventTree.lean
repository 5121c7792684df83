import YamlQuery.Proofs.Document.Naming
import YamlQuery.Proofs.Document.Ownership
/-!
Well-nested events as trees, and the nodes that a tree of events describes. Ids are given in pre-order: a collection
comes before what it holds, a key before its value.
-/
namespace YamlQuery.Yaml

/-- What a part of an event stream is: one node, the items of a sequence, or the pairs of a mapping from a key on or
from the value of a key on. -/
inductive Shape
  | node
  | items
  | pairs
  | value

inductive Tree : Shape → Type
  | scalar (text : String) (style : ScalarStyle) (anchor : AnchorId) (tag : Option Tag) : Tree .node
  | reference (anchor : AnchorId) : Tree .node
  | sequence (anchor : AnchorId) (tag : Option Tag) (items : Tree .items) : Tree .node
  | mapping (anchor : AnchorId) (tag : Option Tag) (pairs : Tree .pairs) : Tree .node
  | noItems : Tree .items
  | item (first : Tree .node) (rest : Tree .items) : Tree .items
  | noPairs : Tree .pairs
  | key (first : Tree .node) (rest : Tree .value) : Tree .pairs
  | value (first : Tree .node) (rest : Tree .pairs) : Tree .value

namespace Tree

variable {s : Shape}

def events : {s : Shape} → Tree s → List Event
  | _, scalar text style anchor tag => [.scalar text style anchor tag]
  | _, reference anchor => [.reference anchor]
  | _, sequence anchor tag items => .sequenceStart anchor tag :: (items.events ++ [.sequenceEnd])
  | _, mapping anchor tag pairs => .mappingStart anchor tag :: (pairs.events ++ [.mappingEnd])
  | _, noItems => []
  | _, item first rest => first.events ++ rest.events
  | _, noPairs => []
  | _, key first rest => first.events ++ rest.events
  | _, value first rest => first.events ++ rest.events

def size : {s : Shape} → Tree s → Nat
  | _, scalar .. => 1
  | _, reference .. => 1
  | _, sequence _ _ items => items.size + 1
  | _, mapping _ _ pairs => pairs.size + 1
  | _, noItems => 0
  | _, item first rest => first.size + rest.size
  | _, noPairs => 0
  | _, key first rest => first.size + rest.size
  | _, value first rest => first.size + rest.size

def tops : {s : Shape} → Nat → Tree s → List Nat
  | _, base, scalar .. => [base]
  | _, base, reference .. => [base]
  | _, base, sequence .. => [base]
  | _, base, mapping .. => [base]
  | _, _, noItems => []
  | _, base, item first rest => base :: rest.tops (base + first.size)
  | _, _, noPairs => []
  | _, base, key first rest => base :: rest.tops (base + first.size)
  | _, base, value first rest => base :: rest.tops (base + first.size)

def paired : List Nat → List (Nat × Nat)
  | k :: v :: ids => (k, v) :: paired ids
  | _ => []

end Tree

end YamlQuery.Yaml

namespace YamlQuery
open Yaml

namespace Assembly

def anchorOf? (names : List String) (anchor : AnchorId) : Option String :=
  if anchor > 0 then some (anchorName names anchor) else none

def register (names : List String) (anchor : AnchorId) (id : NodeId) (r : Registry) : Registry :=
  if anchor > 0 then r.insert (anchorName names anchor) id else r

end Assembly

namespace Yaml.Tree
open Assembly

def nodes (names : List String) : {s : Shape} → Option NodeId → Nat → Tree s → List Node
  | _, parent, _, scalar text style anchor tag =>
    [⟨.scalar text style, parent, anchorOf? names anchor, tag.map Tag.text⟩]
  | _, parent, _, reference anchor => [⟨.reference (anchorName names anchor), parent, none, none⟩]
  | _, parent, base, sequence anchor tag items =>
    ⟨.sequence (items.tops (base + 1)), parent, anchorOf? names anchor, tag.map Tag.text⟩ ::
      items.nodes names (some base) (base + 1)
  | _, parent, base, mapping anchor tag pairs =>
    ⟨.mapping (paired (pairs.tops (base + 1))), parent, anchorOf? names anchor, tag.map Tag.text⟩ ::
      pairs.nodes names (some base) (base + 1)
  | _, _, _, noItems => []
  | _, parent, base, item first rest =>
    first.nodes names parent base ++ rest.nodes names parent (base + first.size)
  | _, _, _, noPairs => []
  | _, parent, base, key first rest =>
    first.nodes names parent base ++ rest.nodes names parent (base + first.size)
  | _, parent, base, value first rest =>
    first.nodes names parent base ++ rest.nodes names parent (base + first.size)

def register (names : List String) : {s : Shape} → Nat → Tree s → Registry → Registry
  | _, base, scalar _ _ anchor _, r => Assembly.register names anchor base r
  | _, _, reference _, r => r
  | _, base, sequence anchor _ items, r => items.register names (base + 1) (Assembly.register names anchor base r)
  | _, base, mapping anchor _ pairs, r => pairs.register names (base + 1) (Assembly.register names anchor base r)
  | _, _, noItems, r => r
  | _, base, item first rest, r => rest.register names (base + first.size) (first.register names base r)
  | _, _, noPairs, r => r
  | _, base, key first rest, r => rest.register names (base + first.size) (first.register names base r)
  | _, base, value first rest, r => rest.register names (base + first.size) (first.register names base r)

variable {s : Shape} {names : List String}

theorem length_nodes (t : Tree s) (parent : Option NodeId) (base : Nat) : (t.nodes names parent base).length = t.size := by
  induction t generalizing parent base with
  | scalar | reference | noItems | noPairs => rfl
  | sequence _ _ _ ih | mapping _ _ _ ih => simp [nodes, size, ih]
  | item _ _ ih₁ ih₂ | key _ _ ih₁ ih₂ | value _ _ ih₁ ih₂ => simp [nodes, size, ih₁, ih₂]

theorem tops_node (t : Tree .node) (base : Nat) : t.tops base = [base] := by
  cases t <;> rfl

end Yaml.Tree
end YamlQuery
