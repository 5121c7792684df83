import Mathlib.Data.List.Basic
import YamlQuery.Path.Eval
import YamlQuery.Proofs.Document.Trail
/-!
Steps that go down. Each selects some children of every node it is applied to, and then follows the aliases among them.
-/
namespace YamlQuery
open YamlQuery.Path

namespace Document
variable {d : Document} {id c : NodeId}

theorem mem_members_of_children (h : c ∈ d.children id) : c ∈ d.members id := by
  unfold children at h
  unfold members
  cases hc : d.content? id with
  | none => simp [hc] at h
  | some content =>
    rw [hc] at h
    cases content with
    | scalar | reference => simp [Content.children] at h
    | sequence items => exact h
    | mapping pairs =>
      obtain ⟨q, hq, rfl⟩ := List.mem_map.1 h
      exact List.mem_flatMap.2 ⟨q, hq, by simp⟩

theorem children_of_items {items : List NodeId} (h : d.items? id = some items) : d.children id = items := by
  simp [children, content_of_items h, Content.children]

theorem children_of_pairs {pairs : List (NodeId × NodeId)} (h : d.pairs? id = some pairs) :
    d.children id = pairs.map (·.2) := by
  simp [children, content_of_pairs h, Content.children]

theorem mem_children_of_find? {pairs : List (NodeId × NodeId)} (h : d.pairs? id = some pairs)
    {p : NodeId × NodeId → Bool} (hc : (pairs.find? p).map (·.2) = some c) : c ∈ d.children id := by
  obtain ⟨q, hq, rfl⟩ := Option.map_eq_some_iff.1 hc
  rw [children_of_pairs h]
  exact List.mem_map_of_mem (List.mem_of_find?_eq_some hq)

theorem mem_children_of_lookupText {key : String} (h : d.lookupText? id key = some c) : c ∈ d.children id := by
  obtain ⟨pairs, hp, hfound⟩ := Option.bind_eq_some_iff.1 h
  exact mem_children_of_find? hp hfound

theorem mem_children_of_lookupKey {probe : Document} {key : NodeId} (h : d.lookupKey? id probe key = some c) :
    c ∈ d.children id := by
  obtain ⟨pairs, hp, hfound⟩ := Option.bind_eq_some_iff.1 h
  exact mem_children_of_find? hp hfound

end Document

namespace Path

def Step.isDownward : Step → Bool
  | everyChild | index _ | slice _ | mapKey _ => true
  | _ => false

namespace Walk
variable {w : Walk} {s : Step} {id c : NodeId} {levels : Nat}

def selected (w : Walk) (s : Step) (id : NodeId) : List NodeId :=
  match s with
  | .everyChild => w.doc.children id
  | .index i => ((w.doc.items? id).bind (itemAt? · i)).toList
  | .slice s =>
    match w.doc.items? id with
    | some items => (s.indices items.length).filterMap (items[·]?)
    | none => []
  | .mapKey key => (w.lookup? key id).toList
  | _ => []

theorem step_of_isDownward (hs : s.isDownward = true) (input : List NodeId) :
    w.step levels s input = w.resolveAll (levels + 1) (input.flatMap (w.selected s)) := by
  cases s with
  | everyChild | slice => rfl
  | index i =>
    rw [step, List.filterMap_eq_flatMap_toList]
    rfl
  | mapKey key =>
    rw [step, List.filterMap_eq_flatMap_toList]
    rfl
  | root | this | parent | everyDescendant | filterCollection | filterScalar | filterSequence | filterMapping
  | reference => cases hs

theorem itemAt_mem {items : List NodeId} {i : Int64} (h : itemAt? items i = some c) : c ∈ items := by
  unfold itemAt? at h
  generalize (if i < 0 then saturatingAdd i (Int64.ofNat items.length) else i) = place at h
  by_cases hneg : place < 0
  · simp [hneg] at h
  · simp only [hneg, if_false] at h
    exact List.mem_of_getElem? h

theorem mem_children_of_lookup {key : MapKey} (h : w.lookup? key id = some c) : c ∈ w.doc.children id := by
  cases key with
  | simple text => exact Document.mem_children_of_lookupText h
  | complex text key =>
    obtain ⟨probe, _, hfound⟩ := Option.bind_eq_some_iff.1 h
    exact Document.mem_children_of_lookupKey hfound

theorem mem_children_of_selected (h : c ∈ w.selected s id) : c ∈ w.doc.children id := by
  cases s with
  | everyChild => exact h
  | index i =>
    obtain ⟨items, hi, hat⟩ := Option.bind_eq_some_iff.1 (Option.mem_toList.1 h)
    rw [Document.children_of_items hi]
    exact itemAt_mem hat
  | slice s =>
    unfold selected at h
    cases hi : w.doc.items? id with
    | none => simp [hi] at h
    | some items =>
      simp only [hi] at h
      obtain ⟨i, _, hat⟩ := List.mem_filterMap.1 h
      rw [Document.children_of_items hi]
      exact List.mem_of_getElem? hat
  | mapKey key => exact mem_children_of_lookup (Option.mem_toList.1 h)
  | root | this | parent | everyDescendant | filterCollection | filterScalar | filterSequence | filterMapping
  | reference => cases h

end Walk
end Path
end YamlQuery
