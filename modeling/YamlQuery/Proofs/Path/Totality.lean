import YamlQuery.Proofs.Document.Comparison
import YamlQuery.Proofs.Document.Trail
import YamlQuery.Proofs.Path.Evaluation
import YamlQuery.Proofs.Path.Landing
import YamlQuery.Proofs.Path.SlicePlaces
import YamlQuery.Proofs.Path.Tracing
/-!
Calls on documents that are read, built and edited. From nodes of the arena navigation, evaluation and comparison come to
nodes of the arena only, and all of them come to an end.
-/
namespace YamlQuery
open YamlQuery.Path

namespace Document
variable {d : Document} {id c : NodeId}

theorem Intact.child_lt (h : d.Intact) (hc : c ∈ d.children id) : c < d.size :=
  h.member_lt id c (mem_members_of_children hc)

end Document

namespace Path

def Inside (d : Document) (ids : List NodeId) : Prop := ∀ id ∈ ids, id < d.size

def Walk.Answers (w : Walk) (r : Walk.Result) : Prop := ∀ found, r = .ok found → Inside w.doc found

namespace Walk
variable {w : Walk} {levels : Nat}

theorem answers_of_lands {F : EvalError → Prop} {r : Result} (h : Lands (Throughout (· < w.doc.size)) F r) :
    w.Answers r := by
  rintro found rfl
  exact h

theorem resolve_inside (h : w.doc.Intact) (levels : Nat) {id : NodeId} (hid : id < w.doc.size) :
    Lands (· < w.doc.size) (fun _ => True) (w.resolve levels id) :=
  resolve_lands trivial (fun _ _ => h.lookup_lt) (fun _ _ _ _ => trivial) levels hid

theorem keeps_inside (h : w.doc.Intact) : w.Keeps (· < w.doc.size) fun _ => True where
  root := h.root_lt
  parent := h.parent_lt
  child := fun levels _ _ hc => resolve_inside h levels (h.child_lt hc)
  anchor := fun levels _ _ hl => resolve_inside h levels (h.lookup_lt hl)
  deep := trivial

/-- From nodes of the arena evaluation comes to nodes of the arena. -/
theorem eval_answers (h : w.doc.Intact) (levels : Nat) (e : Expr) {input : List NodeId} (hin : Inside w.doc input) :
    w.Answers (w.eval levels e input) :=
  answers_of_lands (eval_lands (keeps_inside h) levels e hin fun _ _ _ _ => trivial)

end Walk
end Path

namespace Document
variable {d : Document}

/-- A document that answers every call on its nodes. Nothing leads out of the arena, so a call meets nodes that exist; and
a call is a finite tree of calls, so it comes to an end, with the answer that counting levels gives. -/
structure Answering (d : Document) : Prop where
  node : ∀ id < d.size, ∃ n, d.node? id = some n ∧ Inside d n.content.members ∧ ∀ p, n.parent = some p → p < d.size
  anchor : ∀ name target, d.lookupAnchor? name = some target → target < d.size
  text : ∀ id key target, d.lookupText? id key = some target → target < d.size
  key : ∀ id other probe target, d.lookupKey? id other probe = some target → target < d.size
  comparison : ∀ other, Made other → ∀ x < d.size, ∀ y < other.size, ∀ r,
    Compares d other x y r ↔ r = d.nodesEqual x other y
  slice : ∀ (s : Slice) id items, d.items? id = some items → (∀ i ∈ s.indices items.length, i < items.length) ∧
    (items.length < 2 ^ 63 → ∀ places, Slice.Takes s.stride (s.last items.length) (s.first items.length) places ↔
      places = s.indices items.length)
  navigation : ∀ options levels id target, id < d.size → Walk.resolve ⟨d, options⟩ levels id = .ok target → target < d.size
  descent : ∀ options levels id, Walk.Answers ⟨d, options⟩ (Walk.descendants ⟨d, options⟩ levels id)
  evaluation : ∀ options levels e input, Inside d input →
    Walk.Answers ⟨d, options⟩ (Walk.eval ⟨d, options⟩ levels e input)
  execution : ∀ options (e : Expr) start r, Evaluates ⟨d, options⟩ 0 e [start] r ↔ r = e.execute d start options
  path : ∀ id, ∃ segments, d.Traced id segments ∧ "?" ∉ segments ∧ d.pathOf id = "/" ++ "/".intercalate segments
  value : ∀ id levels, d.valueLevels ≤ levels → d.jsonAt levels maxExpansions id = d.jsonValue id

theorem Intact.node_inside (h : d.Intact) {id : NodeId} (hid : id < d.size) :
    ∃ n, d.node? id = some n ∧ Inside d n.content.members ∧ ∀ p, n.parent = some p → p < d.size := by
  obtain ⟨n, hn⟩ : ∃ n, d.node? id = some n := ⟨_, Array.getElem?_eq_getElem hid⟩
  refine ⟨n, hn, fun c hc => h.member_lt id c ?_, fun p hp => h.parent_lt id p ?_⟩
  · simpa [members, content?, hn] using hc
  · simpa [parent?, hn] using hp

theorem Intact.answering (h : d.Intact) : d.Answering where
  node := fun _ => h.node_inside
  anchor := fun _ _ => h.lookup_lt
  text := fun _ _ _ hl => h.child_lt (mem_children_of_lookupText hl)
  key := fun _ _ _ _ hl => h.child_lt (mem_children_of_lookupKey hl)
  comparison := fun _ hother _ hx _ hy _ => compares_iff_nodesEqual h hother.intact hx hy
  slice := fun s _ items _ => ⟨s.indices_lt items.length, fun hlen _ => s.takes_iff_indices hlen⟩
  navigation := by
    intro options levels id target hid hr
    have hlands := Walk.resolve_inside (w := ⟨d, options⟩) h levels hid
    rwa [hr] at hlands
  descent := fun options _ id => Walk.answers_of_lands (w := ⟨d, options⟩) (Walk.descendants_lands (Walk.keeps_inside h) id)
  evaluation := fun options levels e _ => Walk.eval_answers (w := ⟨d, options⟩) h levels e
  execution := fun _ _ _ _ => evaluates_iff_execute
  path := h.traced_pathOf
  value := fun id _ => h.jsonAt_eq_jsonValue id

/-- Whatever is read, built and edited keeps its integrity and answers every call. -/
theorem Made.intact_and_answering (h : d.Made) : d.Intact ∧ d.Answering := ⟨h.intact, h.intact.answering⟩

/-- A list that was read and then made the root, and whose item another list took over together with the old root. -/
theorem intact_and_answering_shared : ∃ d, Made d ∧ d.items? 2 = some [3] ∧ d.items? 4 = some [3, 0] ∧
    d.parent? 3 = some 4 ∧ d.parent? 2 = none ∧ d.root = some 2 ∧ d.pathOf 3 = "/0" ∧ d.Intact ∧ d.Answering := by
  have hbuilt : ((((read "a: [x]").toOption.bind (Edit.perform? (.add (.sequence [3, 0])))).bind
      (Edit.perform? (.anchor 4 "both"))).bind (Edit.perform? (.root 2))).map (fun d =>
        ((d.items? 2, d.items? 4), (d.parent? 3, d.parent? 2), d.root, d.pathOf 3)) =
      some ((some [3], some [3, 0]), (some 4, none), some 2, "/0") := by decide +kernel
  obtain ⟨d, hd, hfacts⟩ := Option.map_eq_some_iff.1 hbuilt
  obtain ⟨named, hnamed, hroot⟩ := Option.bind_eq_some_iff.1 hd
  obtain ⟨shared, hshared, hanchor⟩ := Option.bind_eq_some_iff.1 hnamed
  obtain ⟨first, hfirst, hadd⟩ := Option.bind_eq_some_iff.1 hshared
  have hread : read "a: [x]" = .ok first := Outcome.eq_ok_of_toOption hfirst
  have hmade : Made d := .edit _ (.edit _ (.edit _ (.read hread) hadd) hanchor) hroot
  simp only [Prod.mk.injEq] at hfacts
  obtain ⟨⟨hlist, hboth⟩, ⟨hitem, htop⟩, hr, hpath⟩ := hfacts
  exact ⟨d, hmade, hlist, hboth, hitem, htop, hr, hpath, hmade.intact_and_answering⟩

end Document
end YamlQuery
