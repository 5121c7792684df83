import YamlQuery.Proofs.Document.EventWalk
import YamlQuery.Proofs.Document.Integrity
/-!
The nodes of the document of any events, well-nested or not: the place of a node is that of the event that opens it, and
the event tells its payload, its anchor and its tag.
-/
namespace YamlQuery
open Yaml

namespace Yaml.Event

def opening (es : List Event) : List Event := (es.takeWhile (· ≠ .documentEnd)).filter opensNode

theorem opening_cons {e : Event} (h : e ≠ .documentEnd) (es : List Event) :
    opening (e :: es) = [e].filter opensNode ++ opening es := by
  rw [opening, List.takeWhile_cons_of_pos (by simpa using h), ← List.singleton_append, List.filter_append]
  rfl

def anchor : Event → AnchorId
  | scalar _ _ anchor _ | sequenceStart anchor _ | mappingStart anchor _ => anchor
  | reference _ | documentStart | documentEnd | sequenceEnd | mappingEnd => 0

def starts : Event → Option NodeKind
  | sequenceStart .. => some .sequence
  | mappingStart .. => some .mapping
  | scalar .. | reference _ | documentStart | documentEnd | sequenceEnd | mappingEnd => none

variable {names : List String} {e : Event} {n : Node}

theorem Opens.anchor_eq (h : e.Opens names n) : n.anchor = Assembly.anchorOf? names e.anchor := by
  cases e with
  | scalar | sequenceStart | mappingStart => exact h.2.1
  | reference => exact h.2.1
  | documentStart | documentEnd | sequenceEnd | mappingEnd => exact h.elim

theorem Opens.adopted (h : e.Opens names n) (parent : Option NodeId) : e.Opens names { n with parent := parent } := by
  cases e <;> exact h

/-- A collection that is filled is still the one that its event opened. -/
theorem Opens.filled (h : e.Opens names n) {c : Content} (hk : e.starts = some c.kind) :
    e.Opens names { n with content := c } := by
  cases e with
  | sequenceStart | mappingStart => exact ⟨(Option.some.inj hk).symm, h.2⟩
  | scalar | reference | documentStart | documentEnd | sequenceEnd | mappingEnd => simp [starts] at hk

end Yaml.Event

def Frame.kind : Frame → NodeKind
  | sequence .. => .sequence
  | mapping .. => .mapping

theorem getElem?_snoc {α : Type} {xs : List α} {x y : α} {i : Nat} (h : (xs ++ [x])[i]? = some y) :
    xs[i]? = some y ∨ (i = xs.length ∧ x = y) := by
  by_cases hi : i < xs.length
  · rw [List.getElem?_append_left hi] at h
    exact .inl h
  · rw [List.getElem?_append_right (Nat.le_of_not_lt hi), List.getElem?_singleton] at h
    split at h
    · exact .inr ⟨by omega, Option.some.inj h⟩
    · cases h

namespace Document
variable {d d' : Document} {names : List String} {opened : List Event} {e : Event} {id : NodeId}

structure Opened (names : List String) (d : Document) (opened : List Event) : Prop where
  size : d.size = opened.length
  opens : ∀ i e, opened[i]? = some e → ∃ n, d.node? i = some n ∧ e.Opens names n

theorem Opened.lt (h : Opened names d opened) {i : Nat} (hi : opened[i]? = some e) : i < d.size := by
  rw [h.size]
  exact (List.getElem?_eq_some_iff.1 hi).1

theorem Opened.event (h : Opened names d opened) {i : Nat} {n : Node} (hn : d.node? i = some n) :
    ∃ e, opened[i]? = some e ∧ e.Opens names n := by
  obtain ⟨e, he⟩ : ∃ e, opened[i]? = some e := ⟨_, List.getElem?_eq_getElem (h.size ▸ node?_lt hn)⟩
  obtain ⟨n', hn', ho⟩ := h.opens i e he
  rw [hn, Option.some.injEq] at hn'
  exact ⟨e, he, hn' ▸ ho⟩

theorem Opened.setRoot (h : Opened names d opened) : Opened names (d.setRoot id) opened where
  size := (size_update d id _).trans h.size
  opens := by
    intro i e he
    obtain ⟨n, hn, ho⟩ := h.opens i e he
    rw [node?_setRoot, hn]
    split
    · exact ⟨_, rfl, ho.adopted none⟩
    · exact ⟨n, rfl, ho⟩

theorem Opened.fill (h : Opened names d opened) {c : Content} (hid : opened[id]? = some e) (hk : e.starts = some c.kind) :
    Opened names (d.fill id c) opened where
  size := (size_fill d id c).trans h.size
  opens := by
    intro i e' he
    obtain ⟨n, hn, ho⟩ := h.opens i e' he
    refine ⟨_, by rw [node?_fill, hn]; rfl, ?_⟩
    by_cases hi : i = id
    · obtain rfl : e = e' := by rw [hi, hid, Option.some.injEq] at he; exact he
      simp only [hi, if_true]
      exact (ho.filled hk).adopted _
    · simp only [hi, if_false]
      exact ho.adopted _

theorem node?_decorate {c : Content} (hc : c.members = []) (anchor : AnchorId) (tag : Option Tag) (x : NodeId) :
    (Assembly.decorate names anchor tag d.size (d.add c)).node? x =
      if x = d.size then some ⟨c, none, Assembly.anchorOf? names anchor, tag.map Tag.text⟩ else d.node? x := by
  have hadd := @Assembly.decorate_add names d.root d.anchors c hc anchor tag d.nodes.toList
  have hd : ofList d.nodes.toList d.root d.anchors = d := rfl
  rw [hd] at hadd
  rw [hadd, ofList, node?, List.getElem?_toArray]
  have hsize : d.size = d.nodes.toList.length := Array.length_toList.symm
  rcases Nat.lt_trichotomy x d.size with hlt | rfl | hgt
  · rw [if_neg (Nat.ne_of_lt hlt), List.getElem?_append_left (hsize ▸ hlt), Array.getElem?_toList]
    rfl
  · rw [if_pos rfl, hsize, List.getElem?_concat_length]
  · rw [if_neg (Nat.ne_of_gt hgt), node?_none (Nat.le_of_lt hgt), List.getElem?_eq_none]
    rw [List.length_append, ← hsize]
    exact hgt

theorem Opened.add (h : Opened names d opened) {c : Content} (hc : c.members = []) {anchor : AnchorId} {tag : Option Tag}
    (he : e.Opens names ⟨c, none, Assembly.anchorOf? names anchor, tag.map Tag.text⟩) :
    Opened names (Assembly.decorate names anchor tag d.size (d.add c)) (opened ++ [e]) where
  size := by
    rw [(Assembly.decorate_frame names anchor tag d.size (d.add c)).1, size_add hc, h.size, List.length_append,
      List.length_singleton]
  opens := by
    intro i e' hi
    rw [node?_decorate hc]
    rcases getElem?_snoc hi with hold | ⟨rfl, rfl⟩
    · rw [if_neg (Nat.ne_of_lt (h.lt hold))]
      exact h.opens i e' hold
    · exact ⟨_, if_pos h.size.symm, he⟩

end Document

namespace Assembly
open Document
variable {names : List String} {a : Assembly} {opened : List Event} {e : Event}

structure Tracks (names : List String) (a : Assembly) (opened : List Event) : Prop where
  nodes : Opened names a.doc opened
  frames : ∀ f ∈ a.frames, ∃ e, opened[f.id]? = some e ∧ e.starts = some f.kind

theorem Tracks.attach (h : Tracks names a opened) (id : NodeId) : Tracks names (attach id a) opened := by
  obtain ⟨d, frames, finished⟩ := a
  cases frames with
  | nil =>
    cases hr : d.root with
    | none =>
      simp only [Assembly.attach, hr, Option.isNone_none, if_true]
      exact ⟨h.nodes.setRoot, by simp⟩
    | some r =>
      simp only [Assembly.attach, hr, Option.isNone_some, Bool.false_eq_true, if_false]
      exact h
  | cons f fs =>
    rw [attach_receive]
    have hsame : (f.receive id).id = f.id ∧ (f.receive id).kind = f.kind := by
      cases f with
      | sequence => exact ⟨rfl, rfl⟩
      | mapping _ _ key => cases key <;> exact ⟨rfl, rfl⟩
    refine ⟨h.nodes, List.forall_mem_cons.2 ⟨?_, fun g hg => h.frames g (by simp [hg])⟩⟩
    rw [hsame.1, hsame.2]
    exact h.frames f (by simp)

theorem Tracks.close (h : Tracks names a opened) : Tracks names a.close opened := by
  obtain ⟨d, frames, finished⟩ := a
  cases frames with
  | nil => exact h
  | cons f fs =>
    obtain ⟨e, he, hk⟩ := h.frames f (by simp)
    have hrest : ∀ g ∈ fs, ∃ e, opened[g.id]? = some e ∧ e.starts = some g.kind := fun g hg => h.frames g (by simp [hg])
    cases f with
    | sequence id items =>
      have hfill : Tracks names ⟨d.fill id (.sequence items.reverse), fs, finished⟩ opened := ⟨h.nodes.fill he hk, hrest⟩
      exact hfill.attach id
    | mapping id pairs key =>
      have hfill : Tracks names ⟨d.fill id (.mapping pairs.reverse), fs, finished⟩ opened := ⟨h.nodes.fill he hk, hrest⟩
      exact hfill.attach id

theorem Tracks.leaf (h : Tracks names a opened) {c : Content} (hc : c.members = []) {anchor : AnchorId} {tag : Option Tag}
    (he : e.Opens names ⟨c, none, anchorOf? names anchor, tag.map Tag.text⟩) :
    Tracks names { a with doc := decorate names anchor tag a.doc.size (a.doc.add c) } (opened ++ [e]) where
  nodes := h.nodes.add hc he
  frames := by
    intro f hf
    obtain ⟨e', he', hk⟩ := h.frames f hf
    exact ⟨e', by rw [List.getElem?_append_left (List.getElem?_eq_some_iff.1 he').1, he'], hk⟩

theorem Tracks.push (h : Tracks names a opened) {f : Frame} (he : opened[f.id]? = some e) (hk : e.starts = some f.kind) :
    Tracks names { a with frames := f :: a.frames } opened :=
  ⟨h.nodes, List.forall_mem_cons.2 ⟨⟨e, he, hk⟩, h.frames⟩⟩

theorem Tracks.take (h : Tracks names a opened) (hf : a.finished = false) (he : e ≠ .documentEnd) :
    Tracks names (Assembly.take names a e) (opened ++ [e].filter Event.opensNode) := by
  obtain ⟨d, frames, finished⟩ := a
  obtain rfl : finished = false := hf
  have hsize : d.size = opened.length := h.nodes.size
  cases e with
  | documentStart =>
    have hsame : opened ++ [Event.documentStart].filter Event.opensNode = opened := List.append_nil opened
    rw [hsame]
    exact h
  | documentEnd => exact absurd rfl he
  | scalar text style anchor tag =>
    have hleaf := h.leaf (e := .scalar text style anchor tag) (c := .scalar text style) rfl ⟨rfl, rfl, rfl⟩
    exact hleaf.attach d.size
  | reference anchor =>
    have hleaf : Tracks names ⟨d.add (.reference (anchorName names anchor)), frames, false⟩ (opened ++ [.reference anchor]) :=
      @Tracks.leaf _ _ _ (.reference anchor) h (.reference (anchorName names anchor)) rfl 0 none ⟨rfl, rfl, rfl⟩
    exact hleaf.attach d.size
  | sequenceStart anchor tag =>
    have hleaf := h.leaf (e := .sequenceStart anchor tag) (c := .sequence []) rfl ⟨rfl, rfl, rfl⟩
    exact hleaf.push (f := .sequence d.size []) (e := .sequenceStart anchor tag) (by simp [Frame.id, hsize]) rfl
  | mappingStart anchor tag =>
    have hleaf := h.leaf (e := .mappingStart anchor tag) (c := .mapping []) rfl ⟨rfl, rfl, rfl⟩
    exact hleaf.push (f := .mapping d.size [] none) (e := .mappingStart anchor tag) (by simp [Frame.id, hsize]) rfl
  | sequenceEnd =>
    have hsame : opened ++ [Event.sequenceEnd].filter Event.opensNode = opened := List.append_nil opened
    rw [hsame]
    exact h.close
  | mappingEnd =>
    have hsame : opened ++ [Event.mappingEnd].filter Event.opensNode = opened := List.append_nil opened
    rw [hsame]
    exact h.close

theorem finished_attach (id : NodeId) (a : Assembly) : (attach id a).finished = a.finished := by
  unfold attach
  split
  · split <;> rfl
  · rfl
  · rfl
  · rfl

theorem finished_take (hf : a.finished = false) (he : e ≠ .documentEnd) : (take names a e).finished = false := by
  obtain ⟨d, frames, finished⟩ := a
  obtain rfl : finished = false := hf
  cases e with
  | documentStart | sequenceStart | mappingStart => rfl
  | documentEnd => exact absurd rfl he
  | scalar | reference => exact finished_attach _ _
  | sequenceEnd | mappingEnd =>
    cases frames with
    | nil => rfl
    | cons f fs => cases f <;> exact finished_attach _ _

theorem Tracks.run (h : Tracks names a opened) (hf : a.finished = false) (es : List Event) :
    Tracks names (es.foldl (Assembly.take names) a) (opened ++ Event.opening es) := by
  induction es generalizing a opened with
  | nil => simpa [Event.opening] using h
  | cons e es ih =>
    by_cases he : e = .documentEnd
    · obtain ⟨d, frames, finished⟩ := a
      obtain rfl : finished = false := hf
      have hnone : Event.opening (e :: es) = [] := by simp [Event.opening, he]
      -- behind the end of the document no event is taken
      rw [List.foldl_cons, hnone, List.append_nil, he]
      have hend : Assembly.take names ⟨d, frames, false⟩ .documentEnd = ⟨d, frames, true⟩ := rfl
      rw [hend, take_finished]
      exact ⟨h.nodes, h.frames⟩
    · rw [List.foldl_cons, Event.opening_cons he, ← List.append_assoc]
      exact ih (h.take hf he) (finished_take hf he)

end Assembly

theorem Document.opened_ofEvents (names : List String) (es : List Event) :
    Opened names (ofEvents names es) (Event.opening es) := by
  have hstart : Assembly.Tracks names {} [] := ⟨⟨rfl, by simp⟩, by simp⟩
  exact (hstart.run rfl es).nodes

end YamlQuery
