import YamlQuery.Document.Read
import YamlQuery.Proofs.Document.Building
import YamlQuery.Proofs.Document.Chain
import YamlQuery.Proofs.Document.Ownership
import YamlQuery.Proofs.Outcome
/-!
The integrity of documents that are read or built, and then edited. All ids stay inside the arena, what holds what has no
cycles, and a parent holds its children: a node may be held by several collections, and only the last to take it in can be
its parent.
-/
namespace YamlQuery
open Relation

namespace Registry
variable {r : Registry} {name : String} {id : NodeId}

theorem mem_insert {e : String × NodeId} (h : e ∈ (r.insert name id).entries) : e = (name, id) ∨ e ∈ r.entries := by
  unfold insert at h
  split at h
  · obtain ⟨old, hold, he⟩ := List.mem_map.1 h
    split at he
    · exact .inl he.symm
    · exact .inr (he ▸ hold)
  · rcases List.mem_append.1 h with he | he
    · exact .inr he
    · exact .inl (List.mem_singleton.1 he)

theorem mem_of_get? (h : r.get? name = some id) : (name, id) ∈ r.entries := by
  obtain ⟨before, after, he, _⟩ := List.lookup_eq_some_iff.1 h
  rw [he]
  simp

end Registry

namespace Document

inductive Made : Document → Prop
  | empty : Made .empty
  | read {text : String} {d : Document} (h : read text = .ok d) : Made d
  | edit {d d' : Document} (e : Edit) (h : Made d) (hd : e.perform? d = some d') : Made d'

def Holds (d : Document) (p c : NodeId) : Prop := c ∈ d.members p

def ChildOf (d : Document) (c p : NodeId) : Prop := d.parent? c = some p

/-- No id leads outside the arena, containment and parents have no cycles, and a parent is a collection that holds its
child. -/
structure Intact (d : Document) : Prop where
  member_lt : ∀ p c, c ∈ d.members p → c < d.size
  parent_lt : ∀ c p, d.parent? c = some p → p < d.size
  root_lt : ∀ r, d.root = some r → r < d.size
  anchor_lt : ∀ e ∈ d.anchors.entries, e.2 < d.size
  acyclic : ∀ n, ¬TransGen d.Holds n n
  lineage : ∀ n, ¬TransGen d.ChildOf n n
  held : ∀ c p, d.parent? c = some p → (∃ k, d.kind? p = some k ∧ k.isCollection = true) ∧ c ∈ d.members p

variable {d d' : Document} {id : NodeId}

theorem collection_of_member {p c : NodeId} (h : c ∈ d.members p) :
    p < d.size ∧ ∃ k, d.kind? p = some k ∧ k.isCollection = true := by
  cases hn : d.node? p with
  | none => simp [members, content?, hn] at h
  | some n =>
    refine ⟨node?_lt hn, n.content.kind, by simp [kind?, content?, hn], ?_⟩
    have hmem : c ∈ n.content.members := by simpa [members, content?, hn] using h
    cases hc : n.content with
    | scalar | reference => simp [hc, Content.members] at hmem
    | sequence | mapping => rfl

/-- It is enough that a parent holds its children: then what holds what has all other cycles too. -/
theorem intact_of_holds (hmember : ∀ p c, c ∈ d.members p → c < d.size) (hroot : ∀ r, d.root = some r → r < d.size)
    (hanchor : ∀ e ∈ d.anchors.entries, e.2 < d.size) (hacyclic : ∀ n, ¬TransGen d.Holds n n)
    (hheld : ∀ c p, d.parent? c = some p → c ∈ d.members p) : d.Intact where
  member_lt := hmember
  parent_lt := fun c p h => (collection_of_member (hheld c p h)).1
  root_lt := hroot
  anchor_lt := hanchor
  acyclic := hacyclic
  lineage := by
    intro n hcycle
    have hswap : TransGen (Function.swap d.Holds) n n := TransGen.mono hheld n n hcycle
    exact hacyclic n hswap.swap
  held := fun c p h => ⟨(collection_of_member (hheld c p h)).2, hheld c p h⟩

theorem Intact.lookup_lt (h : d.Intact) {name : String} (hl : d.lookupAnchor? name = some id) : id < d.size :=
  h.anchor_lt _ (Registry.mem_of_get? hl)

theorem Intact.within_holds (h : d.Intact) (id : NodeId) : Within d.Holds d.size id :=
  within_of_acyclic (fun _ _ hc => (collection_of_member hc).1) fun b _ => h.acyclic b

theorem Intact.within_childOf (h : d.Intact) (id : NodeId) : Within d.ChildOf d.size id :=
  within_of_acyclic (fun _ _ => parent?_lt) fun b _ => h.lineage b

theorem node?_added (d : Document) (c : Content) (x : NodeId) :
    (d.add c).node? x = if x = d.size then some { content := c } else (d.adopt d.size c.members).node? x := by
  have hpush : (d.add c).node? x = _ := Array.getElem?_push
  have hsize : (d.adopt d.size c.members).nodes.size = d.size := size_adopt d d.size c.members
  rw [hpush, hsize]
  rfl

theorem size_added (d : Document) (c : Content) : (d.add c).size = d.size + 1 := by
  have hpush : (d.add c).size = (d.adopt d.size c.members).size + 1 := Array.size_push _
  rw [hpush, size_adopt]

theorem members_added (d : Document) (c : Content) (x : NodeId) :
    (d.add c).members x = if x = d.size then c.members else d.members x := by
  unfold members content?
  rw [node?_added, node?_adopt]
  by_cases hx : x = d.size
  · simp [hx]
  · cases d.node? x with
    | none => simp [hx]
    | some n => by_cases hmem : x ∈ c.members <;> simp [hx, hmem]

theorem parent?_added {c : Content} (x : NodeId) {p : NodeId} (h : (d.add c).parent? x = some p) :
    (p = d.size ∧ x ∈ c.members) ∨ d.parent? x = some p := by
  unfold parent? at h ⊢
  rw [node?_added, node?_adopt] at h
  by_cases hx : x = d.size
  · simp [hx] at h
  · by_cases hmem : x ∈ c.members
    · cases hn : d.node? x with
      | none => simp [hx, hn] at h
      | some n =>
        have hp : d.size = p := by simpa [hx, hmem, hn] using h
        exact .inl ⟨hp.symm, hmem⟩
    · exact .inr (by simpa [hx, hmem] using h)

theorem holds_of_added {c : Content} (hmember : ∀ p c, c ∈ d.members p → c < d.size)
    (hc : ∀ x ∈ c.members, x < d.size) {a b : NodeId} (h : TransGen (d.add c).Holds a b) :
    b < d.size ∧ (a < d.size → TransGen d.Holds a b) := by
  have hstep : ∀ {a b}, (d.add c).Holds a b → b < d.size ∧ (a < d.size → d.Holds a b) := by
    intro a b hab
    unfold Holds at hab ⊢
    rw [members_added] at hab
    split at hab
    · next ha => exact ⟨hc b hab, fun hlt => absurd ha (Nat.ne_of_lt hlt)⟩
    · exact ⟨hmember a b hab, fun _ => hab⟩
  -- nothing holds the new node yet: a chain that starts at an old one stays among the old ones
  induction h with
  | single hab => exact ⟨(hstep hab).1, fun ha => .single ((hstep hab).2 ha)⟩
  | tail _ hbc ih => exact ⟨(hstep hbc).1, fun ha => (ih.2 ha).tail ((hstep hbc).2 ih.1)⟩

theorem Intact.add (h : d.Intact) {c : Content} (hc : ∀ x ∈ c.members, x < d.size) : (d.add c).Intact := by
  have hframe := adopt_frame d d.size c.members
  apply intact_of_holds
  case hmember =>
    intro p x hx
    rw [size_added]
    exact Nat.lt_succ_of_lt (holds_of_added h.member_lt hc (.single hx)).1
  case hroot =>
    intro r hr
    have hr' : d.root = some r := hframe.1 ▸ hr
    rw [size_added]
    exact Nat.lt_succ_of_lt (h.root_lt r hr')
  case hanchor =>
    intro e he
    have he' : e ∈ d.anchors.entries := hframe.2 ▸ he
    rw [size_added]
    exact Nat.lt_succ_of_lt (h.anchor_lt e he')
  case hacyclic =>
    intro n hcycle
    obtain ⟨hn, hold⟩ := holds_of_added h.member_lt hc hcycle
    exact h.acyclic n (hold hn)
  case hheld =>
    intro x p hp
    rw [members_added]
    rcases parent?_added x hp with ⟨rfl, hx⟩ | hold
    · rwa [if_pos rfl]
    · rw [if_neg (Nat.ne_of_lt (h.parent_lt x p hold))]
      exact (h.held x p hold).2

/-- An edit of one node that leaves or clears its parent. -/
theorem Intact.update (h : d.Intact) (hs : d'.size = d.size) (hm : ∀ x, d'.members x = d.members x)
    (hp : ∀ x p, d'.parent? x = some p → d.parent? x = some p) (hroot : ∀ r, d'.root = some r → r < d.size)
    (hanchor : ∀ e ∈ d'.anchors.entries, e.2 < d.size) : d'.Intact := by
  have hholds : d'.Holds = d.Holds := by
    funext p c
    rw [Holds, Holds, hm]
  apply intact_of_holds
  case hmember =>
    intro p c hc
    rw [hs]
    exact h.member_lt p c (hm p ▸ hc)
  case hroot => simpa only [hs] using hroot
  case hanchor => simpa only [hs] using hanchor
  case hacyclic => simpa only [hholds] using h.acyclic
  case hheld =>
    intro c p hc
    rw [hm]
    exact (h.held c p (hp c p hc)).2

theorem Intact.setAnchor (h : d.Intact) (hid : id < d.size) (name : String) : (d.setAnchor id name).Intact := by
  apply h.update
  case hs => exact size_update d id _
  case hm => exact fun x => (place_setAnchor d id name x).2
  case hp => exact fun x p hp => (place_setAnchor d id name x).1 ▸ hp
  case hroot => exact h.root_lt
  case hanchor =>
    intro e he
    rcases Registry.mem_insert he with rfl | hold
    · exact hid
    · exact h.anchor_lt e hold

theorem Intact.setTag (h : d.Intact) (tag : String) : (d.setTag id tag).Intact := by
  apply h.update
  case hs => exact size_update d id _
  case hm => exact fun x => (place_setTag d id tag x).2
  case hp => exact fun x p hp => (place_setTag d id tag x).1 ▸ hp
  case hroot => exact h.root_lt
  case hanchor => exact h.anchor_lt

theorem node?_setRoot (d : Document) (id x : NodeId) : (d.setRoot id).node? x =
    if x = id then (d.node? x).map fun n => { n with parent := none } else d.node? x := node?_update d id x _

theorem Intact.setRoot (h : d.Intact) (hid : id < d.size) : (d.setRoot id).Intact := by
  apply h.update
  case hs => exact size_update d id _
  case hm =>
    intro x
    unfold members content?
    rw [node?_setRoot]
    by_cases hx : x = id
    · cases d.node? x <;> simp [hx]
    · simp [hx]
  case hp =>
    intro x p hp
    unfold parent? at hp ⊢
    rw [node?_setRoot] at hp
    by_cases hx : x = id
    · rw [if_pos hx] at hp
      cases hn : d.node? x <;> simp [hn] at hp
    · simpa [hx] using hp
  case hroot =>
    intro r hr
    cases hr
    exact hid
  case hanchor => exact h.anchor_lt

theorem Intact.perform {e : Edit} (h : d.Intact) (he : e.perform? d = some d') : d'.Intact := by
  unfold Edit.perform? at he
  split at he
  · next hall =>
    have hlt : ∀ x ∈ e.mentions, x < d.size := by
      intro x hx
      simpa [contains, size] using List.all_eq_true.1 hall x hx
    cases he
    cases e with
    | add c => exact h.add hlt
    | anchor id name => exact h.setAnchor (hlt id (by simp [Edit.mentions])) name
    | tag id t => exact h.setTag t
    | root id => exact h.setRoot (hlt id (by simp [Edit.mentions]))
  · simp at he

theorem anchor_lt_decorate (names : List String) (anchor : Yaml.AnchorId) (tag : Option Yaml.Tag) {c : Content}
    (hc : c.members = []) (h : ∀ e ∈ d.anchors.entries, e.2 < d.size) :
    ∀ e ∈ (Assembly.decorate names anchor tag d.size (d.add c)).anchors.entries,
      e.2 < (Assembly.decorate names anchor tag d.size (d.add c)).size := by
  have hanchors : (Assembly.decorate names anchor tag d.size (d.add c)).anchors = d.anchors ∨
      ∃ name, (Assembly.decorate names anchor tag d.size (d.add c)).anchors = d.anchors.insert name d.size := by
    unfold Assembly.decorate
    rw [add_eq_push hc]
    by_cases hpos : anchor > 0
    · right
      refine ⟨Assembly.anchorName names anchor, ?_⟩
      cases tag with
      | none => simp [hpos, setAnchor]
      | some t => simp [hpos, setAnchor, setTag, update]
    · left
      cases tag with
      | none => simp [hpos]
      | some t => simp [hpos, setTag, update]
  intro e he
  rw [(Assembly.decorate_frame names anchor tag d.size (d.add c)).1, size_add hc]
  rcases hanchors with hsame | ⟨name, hinsert⟩
  · exact Nat.lt_succ_of_lt (h e (hsame ▸ he))
  · rcases Registry.mem_insert (hinsert ▸ he) with rfl | hold
    · exact Nat.lt_succ_self _
    · exact Nat.lt_succ_of_lt (h e hold)

theorem anchor_lt_ofEvents (names : List String) (es : List Yaml.Event) :
    ∀ e ∈ (ofEvents names es).anchors.entries, e.2 < (ofEvents names es).size := by
  apply Assembly.keeps_ofEvents (P := fun d => ∀ e ∈ d.anchors.entries, e.2 < d.size)
  case hadd => exact fun d c anchor tag hc h => anchor_lt_decorate names anchor tag hc h
  case hroot =>
    intro d id h e he
    have hsize : (d.setRoot id).size = d.size := size_update d id _
    rw [hsize]
    exact h e he
  case hfill =>
    intro d id c h
    rw [(fill_frame d id c).2, size_fill]
    exact h
  case h => simp [empty]

theorem intact_ofEvents (names : List String) (es : List Yaml.Event) : (ofEvents names es).Intact := by
  have ho := owned_ofEvents names es
  apply intact_of_holds
  case hmember => exact fun p c hc => parent?_lt ((ho.parent_iff c p).2 hc)
  case hroot => exact fun r hr => ho.free_lt r (by simp [hr])
  case hanchor => exact anchor_lt_ofEvents names es
  case hacyclic =>
    -- a collection that is read comes before what it holds
    have hlt : ∀ p c, TransGen (ofEvents names es).Holds p c → p < c := by
      intro p c h
      induction h with
      | single hc => exact ho.older _ p hc
      | tail _ hc ih => exact Nat.lt_trans ih (ho.older _ _ hc)
    exact fun n hcycle => Nat.lt_irrefl n (hlt n n hcycle)
  case hheld => exact fun c p => (ho.parent_iff c p).1

theorem Made.intact (h : d.Made) : d.Intact := by
  induction h with
  | empty =>
    have hempty := intact_ofEvents [] []
    exact hempty
  | read h =>
    obtain ⟨events, _, rfl⟩ := Outcome.map_eq_ok.1 h
    exact intact_ofEvents _ events
  | edit e _ hd ih => exact ih.perform hd

end Document
end YamlQuery
