import YamlQuery.Proofs.Document.Preorder
import YamlQuery.Proofs.Document.Shown
import YamlQuery.Value.OfNode
/-!
Nodes that print in JSON as they are written. Their JSON text, read as YAML, is the node again but for tags, styles and the
order of fields.
-/
namespace YamlQuery

namespace JsonValue

variable {α : Type}

/-- A new key is put somewhere among the others. -/
theorem insert_map (f : α → String × JsonValue) (a : α) {as : List α} (h : (f a).1 ∉ as.map fun x => (f x).1) :
    ∃ bs : List α, bs.Perm (a :: as) ∧ insert (as.map f) (f a).1 (f a).2 = bs.map f := by
  induction as with
  | nil => exact ⟨[a], .refl _, rfl⟩
  | cons x as ih =>
    rw [List.map_cons, List.mem_cons, not_or] at h
    obtain ⟨bs, hperm, hbs⟩ := ih h.2
    rw [List.map_cons, insert]
    split
    · exact ⟨a :: x :: as, .refl _, rfl⟩
    · rw [if_neg (Ne.symm h.1), hbs]
      exact ⟨x :: bs, (hperm.cons x).trans (.swap a x as), rfl⟩

/-- Fields with different keys are all kept, in some order. -/
theorem ofFields_map (f : α → String × JsonValue) {as : List α} (h : (as.map fun x => (f x).1).Nodup) :
    ∃ bs : List α, bs.Perm as ∧ ofFields (as.map f) = object (bs.map f) := by
  have hfold : ∀ (as acc : List α), ((as ++ acc).map fun x => (f x).1).Nodup →
      ∃ bs : List α, bs.Perm (as ++ acc) ∧ (as.map f).foldl (fun m g => insert m g.1 g.2) (acc.map f) = bs.map f := by
    intro as
    induction as with
    | nil => exact fun acc _ => ⟨acc, .refl _, rfl⟩
    | cons a as ih =>
      intro acc h
      have hmem : (f a).1 ∉ acc.map fun x => (f x).1 := by
        rw [List.cons_append, List.map_cons, List.nodup_cons, List.map_append, List.mem_append, not_or] at h
        exact h.1.2
      obtain ⟨acc', hperm, hacc⟩ := insert_map f a hmem
      have hall : (as ++ acc').Perm (a :: as ++ acc) :=
        (hperm.append_left as).trans List.perm_middle
      obtain ⟨bs, hbs, hfields⟩ := ih acc' ((hall.map _).nodup_iff.2 h)
      refine ⟨bs, hbs.trans hall, ?_⟩
      rw [List.map_cons, List.foldl_cons, hacc, hfields]
  obtain ⟨bs, hperm, hbs⟩ := hfold as [] (by simpa using h)
  refine ⟨bs, by simpa using hperm, ?_⟩
  rw [ofFields, ← hbs]
  rfl

end JsonValue

namespace Document
open JsonValue

def untagged (d : Document) : Document := { d with nodes := d.nodes.map fun n => { n with tag := none } }

/-- A node whose JSON value is written in JSON as the node is written: its scalars are their own JSON text, and the keys of
its mappings are scalars with different texts. -/
inductive Verbatim (d : Document) : NodeId → Prop
  | scalar {id : NodeId} {text : String} {style : ScalarStyle} {v : ScalarValue} (hc : d.content? id = some (.scalar text style))
    (hv : ofScalar (.resolve text style (d.tag? id)) = .scalar v) (ht : readText v = text) : Verbatim d id
  | sequence {id : NodeId} {items : List NodeId} (hc : d.content? id = some (.sequence items))
    (h : ∀ c ∈ items, Verbatim d c) : Verbatim d id
  | mapping {id : NodeId} {pairs : List (NodeId × NodeId)} (hc : d.content? id = some (.mapping pairs))
    (hkeys : ∀ p ∈ pairs, (d.text? p.1).isSome) (hone : (pairs.map fun p => d.text? p.1).Nodup)
    (h : ∀ p ∈ pairs, Verbatim d p.2) : Verbatim d id

variable {d : Document} {id : NodeId} {n levels : Nat}

@[simp] theorem content?_untagged (d : Document) (id : NodeId) : d.untagged.content? id = d.content? id := by
  simp [content?, node?, untagged, Function.comp_def]

@[simp] theorem tag?_untagged (d : Document) (id : NodeId) : d.untagged.tag? id = none := by
  simp [tag?, node?, untagged]

@[simp] theorem text?_untagged (d : Document) (id : NodeId) : d.untagged.text? id = d.text? id := by
  simp [text?]

theorem jsonAt_scalar {text : String} {style : ScalarStyle} (hc : d.content? id = some (.scalar text style))
    (levels expansions : Nat) : d.jsonAt (levels + 1) expansions id = .ofScalar (.resolve text style (d.tag? id)) := by
  obtain ⟨n, hn, hc⟩ := Option.map_eq_some_iff.1 hc
  simp only [jsonAt, tag?, hn, hc, Option.bind_some]

theorem jsonAt_sequence {items : List NodeId} (hc : d.content? id = some (.sequence items)) (levels expansions : Nat) :
    d.jsonAt (levels + 1) expansions id = .array (items.map (d.jsonAt levels expansions)) := by
  obtain ⟨n, hn, hc⟩ := Option.map_eq_some_iff.1 hc
  simp only [jsonAt, hn, hc]

theorem jsonAt_mapping {pairs : List (NodeId × NodeId)} (hc : d.content? id = some (.mapping pairs))
    (levels expansions : Nat) : d.jsonAt (levels + 1) expansions id = .ofFields (pairs.map fun p =>
      ((d.text? p.1).getD (d.jsonAt levels expansions p.1).compact, d.jsonAt levels expansions p.2)) := by
  obtain ⟨n, hn, hc⟩ := Option.map_eq_some_iff.1 hc
  simp only [jsonAt, hn, hc]

theorem Shows.array_map {b : Document} {f : NodeId → JsonValue} {items : List NodeId}
    (hc : b.content? id = some (.sequence items)) (ht : b.tag? id = none) (h : ∀ c ∈ items, b.Shows c (f c)) :
    b.Shows id (.array (items.map f)) := by
  have hnodes : (items.map fun c => (c, f c)).map (·.1) = items := by
    rw [List.map_map]
    exact List.map_id items
  have hvalues : (items.map fun c => (c, f c)).map (·.2) = items.map f := by
    rw [List.map_map]
    rfl
  rw [← hvalues]
  rw [← hnodes] at hc
  exact .array _ hc ht (by simpa using h)

theorem Shows.object_map {b : Document} {f : NodeId × NodeId → String × JsonValue} {pairs ps : List (NodeId × NodeId)}
    (hc : b.content? id = some (.mapping pairs)) (ht : b.tag? id = none) (hp : ps.Perm pairs)
    (hkey : ∀ p ∈ pairs, b.text? p.1 = some (f p).1 ∧ b.tag? p.1 = none) (h : ∀ p ∈ pairs, b.Shows p.2 (f p).2) :
    b.Shows id (.object (ps.map f)) := by
  have hnodes : (ps.map fun p => (p, f p)).map (·.1) = ps := by
    rw [List.map_map]
    exact List.map_id ps
  have hvalues : (ps.map fun p => (p, f p)).map (·.2) = ps.map f := by
    rw [List.map_map]
    rfl
  have hmem : ∀ s ∈ ps.map fun p => (p, f p), ∃ p ∈ pairs, (p, f p) = s := by
    intro s hs
    obtain ⟨p, hps, rfl⟩ := List.mem_map.1 hs
    exact ⟨p, hp.mem_iff.1 hps, rfl⟩
  rw [← hvalues]
  rw [← hnodes] at hp
  refine .object _ hc ht hp ?_ ?_
  · intro s hs
    obtain ⟨p, hpairs, rfl⟩ := hmem s hs
    exact hkey p hpairs
  · intro s hs
    obtain ⟨p, hpairs, rfl⟩ := hmem s hs
    exact h p hpairs

/-- Without its tags, the node shows its JSON value. -/
theorem Verbatim.shows (h : d.Verbatim id) (hw : Within d.Holds n id) (hlt : n < levels) (expansions : Nat) :
    d.untagged.Shows id (d.jsonAt levels expansions id) := by
  induction h generalizing n levels with
  | scalar hc hv ht =>
    obtain ⟨levels, rfl⟩ : ∃ m, levels = m + 1 := ⟨levels - 1, by omega⟩
    rw [jsonAt_scalar hc, hv]
    rw [← ht] at hc
    exact .scalar (by simpa using hc) (by simp)
  | @sequence id items hc h ih =>
    obtain ⟨levels, rfl⟩ : ∃ m, levels = m + 1 := ⟨levels - 1, by omega⟩
    rw [jsonAt_sequence hc]
    refine .array_map (by simpa using hc) (by simp) ?_
    intro c hmem
    have hholds : d.Holds id c := by simpa [Holds, members, hc, Content.members] using hmem
    obtain ⟨m, hm, hbelow⟩ := hw.next hholds
    exact ih c hmem hbelow (by omega)
  | @mapping id pairs hc hkeys hone h ih =>
    obtain ⟨levels, rfl⟩ : ∃ m, levels = m + 1 := ⟨levels - 1, by omega⟩
    rw [jsonAt_mapping hc]
    have htext : ∀ p ∈ pairs, d.text? p.1 = some ((d.text? p.1).getD (d.jsonAt levels expansions p.1).compact) := by
      intro p hp
      obtain ⟨text, htext⟩ := Option.isSome_iff_exists.1 (hkeys p hp)
      rw [htext, Option.getD_some]
    have hdistinct : (pairs.map fun p => (d.text? p.1).getD (d.jsonAt levels expansions p.1).compact).Nodup := by
      rw [List.map_congr_left htext] at hone
      have hpairwise := hone
      rw [← Function.comp_def some, ← List.map_map] at hpairwise
      exact List.Pairwise.of_map some (fun _ _ hne he => hne (congrArg some he)) hpairwise
    obtain ⟨ps, hperm, hfields⟩ := ofFields_map (fun p : NodeId × NodeId =>
      ((d.text? p.1).getD (d.jsonAt levels expansions p.1).compact, d.jsonAt levels expansions p.2)) hdistinct
    rw [hfields]
    refine .object_map (by simpa using hc) (by simp) hperm (fun p hp => ⟨by simpa using htext p hp, by simp⟩) ?_
    intro p hp
    have hholds : d.Holds id p.2 := by
      rw [Holds, members, hc]
      exact List.mem_flatMap.2 ⟨p, hp, by simp⟩
    obtain ⟨m, hm, hbelow⟩ := hw.next hholds
    exact ih p hp hbelow (by omega)

theorem untagged_eq_withoutTags (d : Document) : d.untagged = d.withoutTags fun _ => true := by
  have hnodes : (d.nodes.map fun n => { n with tag := none }) = d.nodes.mapIdx fun _ n => { n with tag := none } := by
    apply Array.ext_getElem?
    simp
  simp only [untagged, withoutTags, if_true, hnodes]

/-- Every node is structurally equal to itself without tags. -/
theorem Intact.nodesEqual_untagged_self (h : d.Intact) (hid : id < d.size) : d.nodesEqual id d.untagged id = true := by
  rw [untagged_eq_withoutTags]
  exact h.nodesEqual_withoutTags _ (h.nodesEqual_self hid)

/-- Comparing with a node that shows the JSON value of another is comparing with that node without its tags. -/
theorem Verbatim.nodesEqual_eq (h : d.Verbatim id) (hi : d.Intact) {probe : Document} {y : NodeId}
    (hp : probe.Shows y (d.jsonValue id)) (x : NodeId) : d.nodesEqual x probe y = d.nodesEqual x d.untagged id := by
  have hlt : d.size < d.valueLevels := by
    have hvalue : d.valueLevels = maxExpansions * (d.size + 1) + (d.size + 1) := Nat.succ_mul _ _
    omega
  have hself : d.untagged.Shows id (d.jsonValue id) := h.shows (hi.within_holds id) hlt _
  rw [nodesEqual, nodesEqual, hp.equalWithin_eq, hself.equalWithin_eq]

end Document
end YamlQuery
