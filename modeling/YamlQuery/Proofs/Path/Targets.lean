import Mathlib.Order.Nat
import YamlQuery.Proofs.Document.Naming
import YamlQuery.Proofs.Path.Evaluation
import YamlQuery.Proofs.Yaml.Numbering
/-!
What aliases reach. Events refer to anchors by number and the document by name, so an alias reaches the last node of the
document that is given the name of its anchor. Where a name is given again, this is another node than the one with the
number of the alias.
-/
namespace YamlQuery
open Yaml YamlQuery.Path

namespace Yaml.Event
variable {names : List String} {es : List Event} {name : String} {m : NodeId}

def Names (names : List String) (es : List Event) (name : String) (m : NodeId) : Prop :=
  ∃ e, (opening es)[m]? = some e ∧ 0 < e.anchor ∧ Assembly.anchorName names e.anchor = name

def NamesLast (names : List String) (es : List Event) (name : String) (m : NodeId) : Prop :=
  Names names es name m ∧ ∀ j, Names names es name j → j ≤ m

theorem NamesLast.eq_iff (h : NamesLast names es name m) {j : NodeId} (hj : Names names es name j) :
    m = j ↔ ∀ l, j < l → ¬Names names es name l := by
  constructor
  · rintro rfl l hlt hl
    exact Nat.not_le_of_lt hlt (h.2 l hl)
  · intro hlast
    apply Nat.le_antisymm
    · by_contra hlt
      exact hlast m (Nat.lt_of_not_le hlt) h.1
    · exact h.2 j hj

theorem mem_numbers {k : AnchorId} : k ∈ numbers es ↔ 0 < k ∧ ∃ e ∈ es, e.anchor = k := by
  have hmem : ∀ e : Event, k ∈ e.anchor.toList ↔ 0 < k ∧ e.anchor = k := by
    intro e
    unfold AnchorId.toList
    by_cases hpos : 0 < e.anchor
    · simp only [hpos, if_true, List.mem_singleton]
      constructor
      · rintro rfl
        exact ⟨hpos, rfl⟩
      · exact fun h => h.2.symm
    · simp only [hpos, if_false, List.not_mem_nil, false_iff]
      rintro ⟨hk, rfl⟩
      exact hpos hk
  simp only [numbers, List.mem_flatMap, hmem]
  constructor
  · rintro ⟨e, he, hk, ha⟩
    exact ⟨hk, e, he, ha⟩
  · rintro ⟨hk, e, he, ha⟩
    exact ⟨e, he, hk, ha⟩

theorem opensNode_of_anchor {e : Event} (h : 0 < e.anchor) : e.opensNode = true := by
  cases e with
  | scalar | sequenceStart | mappingStart => rfl
  | reference | documentStart | documentEnd | sequenceEnd | mappingEnd => exact absurd h (Nat.lt_irrefl 0)

/-- Aliases are not given anchors. -/
theorem Opens.not_alias {e : Event} {n : Node} (h : e.Opens names n) (hpos : 0 < e.anchor) :
    n.content.aliasName? = none := by
  have hkind : ∀ {k : NodeKind}, n.content.kind = k → k ≠ .reference → n.content.aliasName? = none := by
    rintro k rfl hk
    cases hc : n.content with
    | scalar | sequence | mapping => rfl
    | reference => exact absurd (by rw [hc]; rfl) hk
  cases e with
  | scalar text style =>
    rw [h.1]
    rfl
  | sequenceStart => exact hkind h.1 (by decide)
  | mappingStart => exact hkind h.1 (by decide)
  | reference | documentStart | documentEnd | sequenceEnd | mappingEnd => exact absurd hpos (Nat.lt_irrefl 0)

/-- An event that opens a node, and what comes before it. -/
theorem split_of_opening {i : Nat} {e : Event} (h : (opening es)[i]? = some e) :
    ∃ pre post, es = pre ++ e :: post ∧ ∀ e' ∈ pre, 0 < e'.anchor → e' ∈ opening es := by
  induction es generalizing i with
  | nil => simp [opening] at h
  | cons first es ih =>
    by_cases hend : first = .documentEnd
    · simp [opening, hend] at h
    · rw [opening_cons hend] at h ⊢
      have hlater : ∀ {j : Nat}, (opening es)[j]? = some e → ∃ pre post, first :: es = pre ++ e :: post ∧
          ∀ e' ∈ pre, 0 < e'.anchor → e' ∈ [first].filter opensNode ++ opening es := by
        intro j hj
        obtain ⟨pre, post, rfl, hpre⟩ := ih hj
        refine ⟨first :: pre, post, rfl, fun e' he' hpos => ?_⟩
        rcases List.mem_cons.1 he' with rfl | he'
        · simp [opensNode_of_anchor hpos]
        · exact List.mem_append_right _ (hpre e' he' hpos)
      cases hopens : first.opensNode with
      | false =>
        simp only [List.filter_cons, hopens, Bool.false_eq_true, if_false, List.filter_nil, List.nil_append] at h
        exact hlater h
      | true =>
        simp only [List.filter_cons, hopens, if_true, List.filter_nil, List.singleton_append] at h
        cases i with
        | zero =>
          obtain rfl : first = e := by simpa using h
          exact ⟨[], es, rfl, by simp⟩
        | succ i => exact hlater h

/-- The anchor of an alias names some node. -/
theorem Grounded.exists_names (h : Grounded es) {i : Nat} {k : AnchorId} (hi : (opening es)[i]? = some (.reference k)) :
    0 < k ∧ ∃ j, Names names es (Assembly.anchorName names k) j := by
  obtain ⟨pre, post, hes, hpre⟩ := split_of_opening hi
  obtain ⟨hk, e, he, rfl⟩ := mem_numbers.1 (h pre k post hes)
  obtain ⟨j, hj⟩ := List.getElem?_of_mem (hpre e he hk)
  exact ⟨hk, j, e, hj, hk, rfl⟩

/-- There is an anchor in the text for every number, and it has the name. -/
theorem WellNumbered.getElem?_names (h : WellNumbered names.length es) {k : AnchorId} (hk : k ∈ numbers es) :
    names[k - 1]? = some (Assembly.anchorName names k) := by
  rw [h.order, List.mem_range'_1] at hk
  have hroom := h.room
  cases k with
  | zero => exact absurd hk.1 (Nat.not_succ_le_zero 0)
  | succ n =>
    have hlt : n < names.length := by
      have hle : n + 1 < 1 + (numbers es).length := hk.2
      omega
    simp [Assembly.anchorName, hlt]

end Yaml.Event

namespace Document
variable {names : List String} {es : List Event} {d : Document} {name : String}

theorem Opened.anchor_iff (h : Opened names d (Event.opening es)) (m : NodeId) :
    d.anchor? m = some name ↔ Event.Names names es name m := by
  have hanchor : ∀ {e : Event}, Assembly.anchorOf? names e.anchor = some name ↔
      0 < e.anchor ∧ Assembly.anchorName names e.anchor = name := by
    intro e
    unfold Assembly.anchorOf?
    split <;> simp_all
  constructor
  · intro hm
    obtain ⟨n, hn, hname⟩ := Option.bind_eq_some_iff.1 hm
    obtain ⟨e, he, ho⟩ := h.event hn
    rw [ho.anchor_eq] at hname
    exact ⟨e, he, hanchor.1 hname⟩
  · rintro ⟨e, he, hname⟩
    obtain ⟨n, hn, ho⟩ := h.opens m e he
    rw [anchor?, hn, Option.bind_some, ho.anchor_eq]
    exact hanchor.2 hname

theorem Opened.aliasName (h : Opened names d (Event.opening es)) {i : NodeId} {k : AnchorId}
    (hi : (Event.opening es)[i]? = some (.reference k)) : d.aliasName? i = some (Assembly.anchorName names k) := by
  obtain ⟨n, hn, ho⟩ := h.opens i _ hi
  rw [aliasName?, content?, hn, Option.map_some, ho.1]
  rfl

theorem Opened.not_alias (h : Opened names d (Event.opening es)) {m : NodeId} (hm : Event.Names names es name m) :
    d.aliasName? m = none := by
  obtain ⟨e, he, hpos, _⟩ := hm
  obtain ⟨n, hn, ho⟩ := h.opens m e he
  rw [aliasName?, content?, hn, Option.map_some, Option.bind_some]
  exact ho.not_alias hpos

/-- A name that some node has stands for the last of them. -/
theorem Named.exists_lookup (h : d.Named) {j : NodeId} (hj : d.anchor? j = some name) :
    ∃ m, d.lookupAnchor? name = some m := by
  have hle : j ≤ d.size := Nat.le_of_lt (anchor?_lt hj)
  refine ⟨Nat.findGreatest (fun x => d.anchor? x = some name) d.size, (h name _).2 ⟨?_, ?_⟩⟩
  · exact Nat.findGreatest_spec (P := fun x => d.anchor? x = some name) hle hj
  · intro x hx
    exact Nat.le_findGreatest (Nat.le_of_lt (anchor?_lt hx)) hx

/-- An alias is followed to the last node of the document with the name of its anchor. It is the node with the number of
the alias exactly where no later node is given the name. The events of a text are such that this applies to them. -/
theorem resolve_reference :
    (∀ (names : List String) (es : List Event), Event.Grounded es →
      Opened names (ofEvents names es) (Event.opening es) ∧
      ∀ i k, (Event.opening es)[i]? = some (.reference k) →
        ∃ m, Event.NamesLast names es (Assembly.anchorName names k) m ∧
          (∀ limit levels, Walk.resolve ⟨ofEvents names es, ⟨true, limit⟩⟩ (levels + 1) i = .ok m) ∧
          ∀ j e, (Event.opening es)[j]? = some e → e.anchor = k →
            (m = j ↔ ∀ l, j < l → ¬Event.Names names es (Assembly.anchorName names k) l)) ∧
    ∀ text d, read text = .ok d → ∃ es, Event.ofScanned? (Scanned.ofText text) = .ok es ∧
      d = ofEvents (Scanned.ofText text).anchorNames es ∧
      Event.WellNumbered (Scanned.ofText text).anchorNames.length es ∧
      ∀ k ∈ Event.numbers es, (Scanned.ofText text).anchorNames[k - 1]? =
        some (Assembly.anchorName (Scanned.ofText text).anchorNames k) := by
  constructor
  · intro names es hgrounded
    have hopened := opened_ofEvents names es
    have hnamed := named_ofEvents names es
    refine ⟨hopened, fun i k hi => ?_⟩
    obtain ⟨hpos, first, hfirst⟩ := @Event.Grounded.exists_names names _ hgrounded _ _ hi
    obtain ⟨m, hm⟩ := hnamed.exists_lookup ((hopened.anchor_iff first).2 hfirst)
    obtain ⟨hname, hmax⟩ := (hnamed _ m).1 hm
    have hlast : Event.NamesLast names es (Assembly.anchorName names k) m :=
      ⟨(hopened.anchor_iff m).1 hname, fun j hj => hmax j ((hopened.anchor_iff j).2 hj)⟩
    refine ⟨m, hlast, fun limit levels => ?_, fun j e hj ha => hlast.eq_iff ⟨e, hj, ha ▸ hpos, by rw [ha]⟩⟩
    rw [Walk.resolve_hop rfl (hopened.aliasName hi) hm]
    exact Walk.resolve_arrived (hopened.not_alias hlast.1)
  · intro text d hread
    obtain ⟨es, hes, rfl⟩ := Outcome.map_eq_ok.1 hread
    have hnumbered := Event.wellNumbered_ofScanned hes
    exact ⟨es, hes, rfl, hnumbered, fun k hk => hnumbered.getElem?_names hk⟩

/-- Between two anchors of one name an alias stands for the second, though it carries the number of the first. -/
theorem resolve_reference_renamed : ∃ es d, Event.ofScanned? (Scanned.ofText "a: &n 1\nb: *n\nc: &n 2\n") = .ok es ∧
    read "a: &n 1\nb: *n\nc: &n 2\n" = .ok d ∧ Event.Grounded es ∧ (Event.opening es)[4]? = some (.reference 1) ∧
    (Event.opening es).map Event.anchor = [0, 0, 1, 0, 0, 0, 2] ∧ Walk.resolve ⟨d, {}⟩ 256 4 = .ok 6 := by
  have hevents : (Event.ofScanned? (Scanned.ofText "a: &n 1\nb: *n\nc: &n 2\n")).toOption.map
      (fun es => ((Event.opening es)[4]?, (Event.opening es).map Event.anchor)) =
      some (some (.reference 1), [0, 0, 1, 0, 0, 0, 2]) := by decide +kernel
  have htarget : (read "a: &n 1\nb: *n\nc: &n 2\n").toOption.map (fun d => (Walk.resolve ⟨d, {}⟩ 256 4).toOption) =
      some (some 6) := by decide +kernel
  obtain ⟨es, hes, hopening⟩ := Option.map_eq_some_iff.1 hevents
  obtain ⟨d, hd, hresolve⟩ := Option.map_eq_some_iff.1 htarget
  obtain ⟨hreference, hanchors⟩ := Prod.mk.inj hopening
  have hscanned := Outcome.eq_ok_of_toOption hes
  exact ⟨es, d, hscanned, Outcome.eq_ok_of_toOption hd, (Event.wellNumbered_ofScanned hscanned).grounded, hreference,
    hanchors, Outcome.eq_ok_of_toOption hresolve⟩

/-- The second of two anchors of one name, and an alias behind both. -/
theorem resolve_reference_latest : ∃ d, read "a: &n 1\nb: &n 2\nc: *n\n" = .ok d ∧ d.text? 4 = some "2" ∧
    Walk.resolve ⟨d, {}⟩ 256 6 = .ok 4 := by
  have hread : (read "a: &n 1\nb: &n 2\nc: *n\n").toOption.map (fun d => d.text? 4) = some (some "2") := by decide +kernel
  have hevents : (Event.ofScanned? (Scanned.ofText "a: &n 1\nb: &n 2\nc: *n\n")).toOption.map Event.opening =
      some [.mappingStart 0 none, .scalar "a" .plain 0 none, .scalar "1" .plain 1 none, .scalar "b" .plain 0 none,
        .scalar "2" .plain 2 none, .scalar "c" .plain 0 none, .reference 2] := by decide +kernel
  obtain ⟨d, hd, htext⟩ := Option.map_eq_some_iff.1 hread
  obtain ⟨es, hes, rfl, hnumbered, _⟩ := resolve_reference.2 _ _ (Outcome.eq_ok_of_toOption hd)
  rw [hes] at hevents
  have hopening := Option.some.inj hevents
  obtain ⟨m, _, hresolve, hlast⟩ := (resolve_reference.1 _ es hnumbered.grounded).2 6 2 (by rw [hopening]; rfl)
  have hm : m = 4 := by
    refine (hlast 4 (.scalar "2" .plain 2 none) (by rw [hopening]; rfl) rfl).2 ?_
    rintro l hlt ⟨e, he, hpos, _⟩
    rw [hopening] at he
    match l, hlt, he with
    | 5, _, he | 6, _, he =>
      cases he
      exact absurd hpos (by decide)
    | l + 7, _, he => cases he
  exact ⟨_, Outcome.eq_ok_of_toOption hd, htext, hm ▸ hresolve 256 255⟩

end Document
end YamlQuery
