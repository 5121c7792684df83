import Mathlib.Data.List.Nodup
import Mathlib.Data.List.Lattice
import Mathlib.Data.List.Pairwise
import Mathlib.Data.List.Perm.Subperm
import YamlQuery.Document.Equality
import YamlQuery.Path.OfNode
import YamlQuery.Proofs.Document.Ownership
/-!
Trails from the root of a document: down sequences by item, down mappings by a key that its text singles out.
-/
namespace YamlQuery.Document

/-- Nodes reached from the root by the items of sequences and by the values of mappings, where the key of a value is an
untagged scalar whose text no other key of its mapping has. -/
inductive Reached (d : Document) : NodeId → Prop
  | root {r : NodeId} (h : d.root = some r) : Reached d r
  | item {p c : NodeId} {items : List NodeId} (hp : Reached d p) (h : d.items? p = some items) (hc : c ∈ items) :
    Reached d c
  | value {p k c : NodeId} {pairs : List (NodeId × NodeId)} {text : String} (hp : Reached d p)
    (h : d.pairs? p = some pairs) (hc : (k, c) ∈ pairs) (htext : d.text? k = some text) (htag : d.tag? k = none)
    (hone : ∀ q ∈ pairs, d.text? q.1 = some text → q.1 = k) : Reached d c

variable {d : Document} {free : List NodeId} {p k c : NodeId} {items : List NodeId} {pairs : List (NodeId × NodeId)}

theorem content_of_items (h : d.items? p = some items) : d.content? p = some (.sequence items) := by
  unfold items? at h
  split at h
  · next hc =>
    cases h
    exact hc
  · simp at h

theorem content_of_pairs (h : d.pairs? p = some pairs) : d.content? p = some (.mapping pairs) := by
  unfold pairs? at h
  split at h
  · next hc =>
    cases h
    exact hc
  · simp at h

theorem members_of_items (h : d.items? p = some items) : d.members p = items := by
  simp [members, content_of_items h, Content.members]

theorem members_of_pairs (h : d.pairs? p = some pairs) : d.members p = pairs.flatMap fun q => [q.1, q.2] := by
  simp [members, content_of_pairs h, Content.members]

theorem Owned.length_le (ho : Owned d free) (p : NodeId) : (d.members p).length ≤ d.size := by
  have hsub : d.members p ⊆ List.range d.size := by
    intro c hc
    exact List.mem_range.2 (parent?_lt ((ho.parent_iff c p).2 hc))
  have hlen := (List.subperm_of_subset (ho.once p) hsub).length_le
  rwa [List.length_range] at hlen

/-- A node belongs to one pair only. -/
theorem Owned.pair_unique (ho : Owned d free) (h : d.pairs? p = some pairs) {q r : NodeId × NodeId} (hq : q ∈ pairs)
    (hr : r ∈ pairs) {x : NodeId} (hxq : x = q.1 ∨ x = q.2) (hxr : x = r.1 ∨ x = r.2) : q = r := by
  have hone := ho.once p
  rw [members_of_pairs h, List.nodup_flatMap] at hone
  have hsymm : Std.Symm (Function.onFun List.Disjoint fun q : NodeId × NodeId => [q.1, q.2]) := ⟨fun _ _ => List.Disjoint.symm⟩
  by_contra hne
  have hdisj := hone.2.forall hq hr hne
  exact hdisj (by simpa using hxq) (by simpa using hxr)

theorem find?_of_unique {α : Type} {xs : List α} {f : α → Bool} {x : α} (hx : x ∈ xs) (hf : f x = true)
    (hone : ∀ y ∈ xs, f y = true → y = x) : xs.find? f = some x := by
  cases h : xs.find? f with
  | none => exact absurd hf (List.find?_eq_none.1 h x hx)
  | some y => rw [hone y (List.mem_of_find?_eq_some h) (List.find?_some h)]

theorem Owned.parent_item (ho : Owned d free) (h : d.items? p = some items) (hc : c ∈ items) : d.parent? c = some p := by
  rw [ho.parent_iff, members_of_items h]
  exact hc

theorem Owned.parent_value (ho : Owned d free) (h : d.pairs? p = some pairs) (hc : (k, c) ∈ pairs) :
    d.parent? c = some p := by
  rw [ho.parent_iff, members_of_pairs h]
  exact List.mem_flatMap.2 ⟨_, hc, by simp⟩

theorem Owned.segment_item (ho : Owned d free) (h : d.items? p = some items) {i : Nat} (hlt : i < items.length)
    (hget : items[i] = c) : d.segment? p c = some (toString i) := by
  have hone := ho.once p
  rw [members_of_items h] at hone
  have hfind : items.findIdx? (· == c) = some i := by
    rw [List.findIdx?_eq_some_iff_getElem]
    refine ⟨hlt, by simp [hget], ?_⟩
    intro j hj
    have hne := @List.Nodup.getElem_inj_iff _ _ hone j (Nat.lt_trans hj hlt) i hlt
    rw [hget] at hne
    simp only [beq_iff_eq, hne]
    exact Nat.ne_of_lt hj
  simp only [segment?, content_of_items h, hfind, Option.map_some]

theorem Owned.segment_value (ho : Owned d free) (h : d.pairs? p = some pairs) (hc : (k, c) ∈ pairs) :
    d.segment? p c = some (d.keySegment k) := by
  have hfind : (pairs.find? fun q => q.2 == c || q.1 == c) = some (k, c) := by
    refine find?_of_unique hc (by simp) ?_
    intro q hq hqc
    refine ho.pair_unique h hq hc ?_ (.inr rfl)
    cases Bool.or_eq_true_iff.1 hqc with
    | inl hqc => exact .inr (beq_iff_eq.1 hqc).symm
    | inr hqc => exact .inl (beq_iff_eq.1 hqc).symm
  simp only [segment?, content_of_pairs h, hfind, Option.map_some]

theorem Owned.lookup_value (ho : Owned d free) (h : d.pairs? p = some pairs) (hc : (k, c) ∈ pairs) {text : String}
    (htext : d.text? k = some text) (hone : ∀ q ∈ pairs, d.text? q.1 = some text → q.1 = k) :
    d.lookupText? p text = some c := by
  have hfind : (pairs.find? fun q => d.text? q.1 == some text) = some (k, c) := by
    refine find?_of_unique hc (by simp [htext]) ?_
    intro q hq hqt
    have hk := hone q hq (beq_iff_eq.1 hqt)
    exact ho.pair_unique h hq hc (.inl hk.symm) (.inl rfl)
  simp [lookupText?, h, hfind]

theorem segmentsTo_root (h : d.parent? c = none) (levels : Nat) : d.segmentsTo levels c = [] := by
  cases levels with
  | zero => rfl
  | succ levels => rw [segmentsTo, h]

theorem segmentsTo_of_parent {s : String} (h : d.parent? c = some p) (hs : d.segment? p c = some s) (levels : Nat) :
    d.segmentsTo (levels + 1) c = d.segmentsTo levels p ++ [s] := by
  simp only [segmentsTo, h, hs, Option.getD_some]

end YamlQuery.Document
