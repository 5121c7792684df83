import Mathlib.Data.List.Forall2
import YamlQuery.Proofs.Document.Loading
/-!
Walking a loaded document in pre-order gives its events back.
-/
namespace YamlQuery.Yaml

inductive Visit
  | scalar (text : String) (style : ScalarStyle) (anchor tag : Option String)
  | reference (name : String)
  | sequenceStart (anchor tag : Option String)
  | sequenceEnd
  | mappingStart (anchor tag : Option String)
  | mappingEnd

namespace Event
open Assembly

def visit? (names : List String) : Event → Option Visit
  | documentStart | documentEnd => none
  | scalar text style anchor tag => some (.scalar text style (anchorOf? names anchor) (tag.map Tag.text))
  | reference anchor => some (.reference (anchorName names anchor))
  | sequenceStart anchor tag => some (.sequenceStart (anchorOf? names anchor) (tag.map Tag.text))
  | sequenceEnd => some .sequenceEnd
  | mappingStart anchor tag => some (.mappingStart (anchorOf? names anchor) (tag.map Tag.text))
  | mappingEnd => some .mappingEnd

def opensNode : Event → Bool
  | scalar .. | reference .. | sequenceStart .. | mappingStart .. => true
  | documentStart | documentEnd | sequenceEnd | mappingEnd => false

def Opens (names : List String) (e : Event) (n : Node) : Prop :=
  match e with
  | scalar text style anchor tag =>
    n.content = .scalar text style ∧ n.anchor = anchorOf? names anchor ∧ n.tag = tag.map Tag.text
  | reference anchor => n.content = .reference (anchorName names anchor) ∧ n.anchor = none ∧ n.tag = none
  | sequenceStart anchor tag =>
    n.content.kind = .sequence ∧ n.anchor = anchorOf? names anchor ∧ n.tag = tag.map Tag.text
  | mappingStart anchor tag =>
    n.content.kind = .mapping ∧ n.anchor = anchorOf? names anchor ∧ n.tag = tag.map Tag.text
  | documentStart | documentEnd | sequenceEnd | mappingEnd => False

end Event

namespace Tree
variable {s : Shape} {names : List String}

/-- The nodes of a tree are those that its events open, in their order. -/
theorem opens_nodes (names : List String) (t : Tree s) (parent : Option NodeId) (base : Nat) :
    List.Forall₂ (Event.Opens names) (t.events.filter Event.opensNode) (t.nodes names parent base) := by
  induction t generalizing parent base with
  | scalar text style anchor tag => exact .cons ⟨rfl, rfl, rfl⟩ .nil
  | reference anchor => exact .cons ⟨rfl, rfl, rfl⟩ .nil
  | sequence anchor tag items ih | mapping anchor tag items ih =>
    have hinner := ih (some base) (base + 1)
    simp only [events, nodes, List.filter_cons, Event.opensNode, ↓reduceIte, List.filter_append, List.filter_nil,
      List.append_nil, Bool.false_eq_true]
    exact .cons ⟨rfl, rfl, rfl⟩ hinner
  | noItems | noPairs => exact .nil
  | item first rest ih ih' | key first rest ih ih' | value first rest ih ih' =>
    simp only [events, nodes, List.filter_append]
    exact List.rel_append (ih parent base) (ih' parent (base + first.size))

end Tree
end YamlQuery.Yaml

namespace YamlQuery
open Yaml

def Document.walk (d : Document) : Nat → NodeId → List Visit
  | 0, _ => []
  | levels + 1, id =>
    match d.node? id with
    | none => []
    | some n =>
      match n.content with
      | .scalar text style => [.scalar text style n.anchor n.tag]
      | .reference name => [.reference name]
      | .sequence items => .sequenceStart n.anchor n.tag :: (items.flatMap (d.walk levels) ++ [.sequenceEnd])
      | .mapping pairs =>
        .mappingStart n.anchor n.tag ::
          (pairs.flatMap (fun p => d.walk levels p.1 ++ d.walk levels p.2) ++ [.mappingEnd])

namespace Yaml.Tree
variable {s : Shape} {names : List String} {d : Document} {base : Nat}

def Stands (names : List String) (d : Document) (parent : Option NodeId) (base : Nat) (t : Tree s) : Prop :=
  ∀ i, i < t.size → d.node? (base + i) = (t.nodes names parent base)[i]?

theorem stands_append {first : Tree .node} {rest : Tree s} {parent : Option NodeId}
    (h : ∀ i, i < first.size + rest.size → d.node? (base + i) =
      (first.nodes names parent base ++ rest.nodes names parent (base + first.size))[i]?) :
    Stands names d parent base first ∧ Stands names d parent (base + first.size) rest := by
  have hlen := @length_nodes _ names first parent base
  constructor
  · intro i hi
    rw [h i (by omega), List.getElem?_append_left (by omega)]
  · intro i hi
    rw [Nat.add_assoc, h (first.size + i) (by omega), List.getElem?_append_right (by omega)]
    congr 1
    omega

theorem stands_tail {n : Node} {t : Tree s} (h : ∀ i, i < t.size + 1 → d.node? (base + i) =
      (n :: t.nodes names (some base) (base + 1))[i]?) :
    d.node? base = some n ∧ Stands names d (some base) (base + 1) t := by
  constructor
  · exact h 0 (by omega)
  · intro i hi
    have hi' := h (i + 1) (by omega)
    rwa [List.getElem?_cons_succ, Nat.add_comm i 1, ← Nat.add_assoc] at hi'

theorem flatMap_paired (t : Tree .pairs) (f : NodeId → List Visit) :
    (paired (t.tops base)).flatMap (fun p => f p.1 ++ f p.2) = (t.tops base).flatMap f := by
  have hpaired : (paired (t.tops base)).flatMap (fun p => [p.1, p.2]) = t.tops base := t.paired_tops base
  conv_rhs => rw [← hpaired, List.flatMap_assoc]
  simp

/-- Walking the nodes at the top of a tree gives its events. -/
theorem walk_tops (t : Tree s) {parent : Option NodeId} {levels : Nat} (hd : Stands names d parent base t)
    (hl : t.size ≤ levels) : (t.tops base).flatMap (d.walk levels) = t.events.filterMap (Event.visit? names) := by
  induction t generalizing base parent levels with
  | scalar text style anchor tag =>
    obtain ⟨m, rfl⟩ := Nat.exists_eq_add_of_le' hl
    have hn : d.node? base = _ := hd 0 (Nat.lt_succ_self _)
    simp [tops, Document.walk, size, hn, nodes, events, Event.visit?]
  | reference anchor =>
    obtain ⟨m, rfl⟩ := Nat.exists_eq_add_of_le' hl
    have hn : d.node? base = _ := hd 0 (Nat.lt_succ_self _)
    simp [tops, Document.walk, size, hn, nodes, events, Event.visit?]
  | sequence anchor tag items ih =>
    obtain ⟨hn, hitems⟩ := stands_tail hd
    obtain ⟨m, rfl⟩ := Nat.exists_eq_add_of_le' (Nat.le_trans (Nat.succ_pos items.size) hl)
    have hwalk := ih hitems (Nat.le_of_succ_le_succ hl)
    simp [tops, Document.walk, hn, hwalk, events, Event.visit?]
  | mapping anchor tag pairs ih =>
    obtain ⟨hn, hpairs⟩ := stands_tail hd
    obtain ⟨m, rfl⟩ := Nat.exists_eq_add_of_le' (Nat.le_trans (Nat.succ_pos pairs.size) hl)
    have hwalk := ih hpairs (Nat.le_of_succ_le_succ hl)
    simp [tops, Document.walk, hn, flatMap_paired, hwalk, events, Event.visit?]
  | noItems | noPairs => rfl
  | item first rest ih ih' | key first rest ih ih' | value first rest ih ih' =>
    obtain ⟨hfirst, hrest⟩ := stands_append hd
    have hl' : first.size + rest.size ≤ levels := hl
    have hwalk := ih hfirst (Nat.le_trans (Nat.le_add_right _ _) hl')
    have hwalk' := ih' hrest (Nat.le_trans (Nat.le_add_left _ _) hl')
    rw [tops_node, List.flatMap_singleton] at hwalk
    rw [tops, List.flatMap_cons, hwalk, hwalk', events, List.filterMap_append]

end Yaml.Tree

namespace Document

/-- Loading a well-nested stream builds the tree of its events. The ids are the places of the events that open nodes,
what a collection holds has it as parent and occurs in it once, the root is the first node and held by nothing, a name
stands for the youngest node with it, a walk in pre-order gives the events back, and what follows the end of the document
changes nothing. -/
theorem ofEvents_tree (names : List String) (t : Tree .node) (rest : List Event) :
    let d := ofEvents names (t.stream rest)
    d.root = some 0 ∧ d.parent? 0 = none ∧
      List.Forall₂ (Event.Opens names) (t.events.filter Event.opensNode) d.nodes.toList ∧
      (∀ c p, d.parent? c = some p ↔ c ∈ d.members p) ∧ (∀ p, (d.members p).Nodup) ∧
      (∀ name id, d.lookupAnchor? name = some id ↔
        d.anchor? id = some name ∧ ∀ j, d.anchor? j = some name → j ≤ id) ∧
      d.walk d.size 0 = t.events.filterMap (Event.visit? names) ∧
      d = ofEvents names (t.stream []) := by
  have howned := owned_ofEvents names (t.stream rest)
  have hnamed := named_ofEvents names (t.stream rest)
  have hstream := ofEvents_stream names t rest
  have hroot : (ofEvents names (t.stream rest)).root = some 0 := by rw [hstream]; rfl
  have hstands : t.Stands names (ofEvents names (t.stream rest)) none 0 := by
    intro i hi
    rw [hstream, Nat.zero_add]
    simp [ofList, node?]
  have hsize : (ofEvents names (t.stream rest)).size = t.size := by
    rw [hstream, size_ofList, Tree.length_nodes]
  have hwalk := t.walk_tops hstands (Nat.le_refl _)
  rw [Tree.tops_node, List.flatMap_singleton] at hwalk
  refine ⟨hroot, ?_, ?_, howned.parent_iff, howned.once, hnamed, ?_, ?_⟩
  · apply howned.free_orphan
    simp [hroot]
  · rw [hstream]
    exact t.opens_nodes names none 0
  · rw [hsize]
    exact hwalk
  · rw [hstream, ofEvents_stream names t []]

end Document
end YamlQuery
