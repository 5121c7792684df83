import YamlQuery.Document.Read
import YamlQuery.Proofs.Path.Targets
/-!
Documents that are loaded: no alias of theirs is broken. The name of an alias is that of an anchor in the text, and the
node of the anchor has registered it.
-/
namespace YamlQuery
open Yaml

theorem Yaml.Event.Opens.of_alias {names : List String} {e : Event} {n : Node} {name : String} (h : e.Opens names n)
    (hname : n.content.aliasName? = some name) : ∃ k, e = .reference k ∧ Assembly.anchorName names k = name := by
  have hkind : n.content.kind = .reference := by
    cases hc : n.content with
    | scalar | sequence | mapping => simp [hc, Content.aliasName?] at hname
    | reference => rfl
  cases e with
  | reference k =>
    rw [h.1] at hname
    exact ⟨k, rfl, Option.some.inj hname⟩
  | scalar | sequenceStart | mappingStart =>
    rw [h.1] at hkind
    cases hkind
  | documentStart | documentEnd | sequenceEnd | mappingEnd => exact h.elim

namespace Document

/-- Documents that are read from a text, or built from events whose aliases come after the anchors with their numbers. -/
inductive Loaded : Document → Prop
  | read {text : String} {d : Document} (h : read text = .ok d) : Loaded d
  | events (names : List String) {es : List Event} (h : Event.Grounded es) : Loaded (ofEvents names es)

def Grounded (d : Document) : Prop := ∀ id name, d.aliasName? id = some name → ∃ target, d.lookupAnchor? name = some target

variable {d : Document}

theorem Loaded.exists_events (h : Loaded d) : ∃ names es, Event.Grounded es ∧ d = ofEvents names es := by
  cases h with
  | @read text _ h =>
    obtain ⟨es, hes, rfl⟩ := Outcome.map_eq_ok.1 h
    exact ⟨_, es, (Event.wellNumbered_ofScanned hes).grounded, rfl⟩
  | events names h => exact ⟨names, _, h, rfl⟩

theorem grounded_ofEvents (names : List String) {es : List Event} (h : Event.Grounded es) :
    (ofEvents names es).Grounded := by
  intro id name hname
  have hopened := opened_ofEvents names es
  obtain ⟨content, hcontent, halias⟩ := Option.bind_eq_some_iff.1 hname
  obtain ⟨n, hn, rfl⟩ := Option.map_eq_some_iff.1 hcontent
  obtain ⟨e, he, ho⟩ := hopened.event hn
  obtain ⟨k, rfl, rfl⟩ := ho.of_alias halias
  obtain ⟨_, j, hj⟩ := Event.Grounded.exists_names h he
  exact (named_ofEvents names es).exists_lookup ((hopened.anchor_iff j).2 hj)

theorem Loaded.grounded (h : Loaded d) : d.Grounded := by
  obtain ⟨names, es, hes, rfl⟩ := h.exists_events
  exact grounded_ofEvents names hes

theorem Loaded.named (h : Loaded d) : d.Named := by
  obtain ⟨names, es, _, rfl⟩ := h.exists_events
  exact named_ofEvents names es

theorem Loaded.owned (h : Loaded d) : d.Owned d.root.toList := by
  obtain ⟨names, es, _, rfl⟩ := h.exists_events
  exact owned_ofEvents names es

end Document
end YamlQuery
