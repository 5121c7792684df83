import YamlQuery.Path.OfNode
import YamlQuery.Proofs.Text.Decimal
import YamlQuery.Proofs.Value.Rendering
/-!
Paths of nodes in documents of integrity: the steps from a node up to its last ancestor are finitely many, and each is
the place of the node in the collection that is its parent.
-/
namespace YamlQuery.Document

/-- The steps to a node from its last ancestor, each written for the place of a node in its parent. -/
inductive Traced (d : Document) : NodeId → List String → Prop
  | top {id : NodeId} (h : d.parent? id = none) : Traced d id []
  | step {id p : NodeId} {s : String} {segments : List String} (h : d.parent? id = some p) (hs : d.segment? p id = some s)
    (hp : Traced d p segments) : Traced d id (segments ++ [s])

variable {d : Document} {id p : NodeId} {levels n : Nat}

theorem toString_ne_question (i : Nat) : toString i ≠ "?" := by
  intro h
  have hall := Integer.toDigits_isDigit i
  have hdigits : Nat.toDigits 10 i = ['?'] := by
    rw [Nat.toString_eq_repr, Nat.repr_eq_ofList_toDigits] at h
    simpa using congrArg String.toList h
  have hquestion := hall '?' (by simp [hdigits])
  exact absurd hquestion (by decide)

theorem keySegment_ne_question (d : Document) (key : NodeId) : d.keySegment key ≠ "?" := by
  have hquote : ∀ s : String, "\"" ++ s ≠ "?" := by
    intro s h
    simpa using congrArg String.toList h
  have hbrace : ∀ s : String, "\x7b" ++ s ≠ "?" := by
    intro s h
    simpa using congrArg String.toList h
  have hbare : isBareKey "?" = false := by decide +kernel
  unfold keySegment
  split
  · split
    · next h =>
      rintro rfl
      simp [hbare] at h
    · rw [String.append_assoc]
      exact hquote _
  · rw [String.append_assoc]
    exact hbrace _

/-- A node has a place in its parent. -/
theorem Intact.segment_of_parent (h : d.Intact) (hp : d.parent? id = some p) :
    ∃ s, d.segment? p id = some s ∧ s ≠ "?" := by
  have hmem := (h.held id p hp).2
  unfold segment?
  cases hc : d.content? p with
  | none => simp [members, hc] at hmem
  | some c =>
    rw [members, hc] at hmem
    cases c with
    | scalar | reference => simp [Content.members] at hmem
    | sequence items =>
      have hany : items.any (· == id) = true := List.any_eq_true.2 ⟨id, hmem, by simp⟩
      obtain ⟨i, hi⟩ := Option.isSome_iff_exists.1 (List.findIdx?_isSome.trans hany)
      exact ⟨toString i, by simp [hi], toString_ne_question i⟩
    | mapping pairs =>
      obtain ⟨q, hq, hid⟩ := List.mem_flatMap.1 hmem
      have hfound : (pairs.find? fun q => q.2 == id || q.1 == id).isSome = true := by
        rw [List.find?_isSome]
        refine ⟨q, hq, ?_⟩
        rcases List.mem_pair.1 hid with rfl | rfl <;> simp
      obtain ⟨r, hr⟩ := Option.isSome_iff_exists.1 hfound
      exact ⟨d.keySegment r.1, by simp [hr], keySegment_ne_question d r.1⟩

theorem Intact.traced_segmentsTo (h : d.Intact) (hn : Within d.ChildOf n id) (hle : n ≤ levels) :
    d.Traced id (d.segmentsTo levels id) ∧ "?" ∉ d.segmentsTo levels id := by
  induction levels generalizing n id with
  | zero =>
    obtain rfl : n = 0 := by omega
    have hnone : d.parent? id = none := by
      cases hp : d.parent? id with
      | none => rfl
      | some p => exact absurd hp (hn p)
    exact ⟨.top hnone, by simp [segmentsTo]⟩
  | succ levels ih =>
    cases hp : d.parent? id with
    | none =>
      rw [segmentsTo, hp]
      exact ⟨.top hp, by simp⟩
    | some p =>
      obtain ⟨s, hs, hne⟩ := h.segment_of_parent hp
      cases n with
      | zero => exact absurd hp (hn p)
      | succ n =>
        obtain ⟨htraced, hmem⟩ := ih (hn p hp) (by omega)
        simp only [segmentsTo, hp, hs, Option.getD_some]
        exact ⟨.step hp hs htraced, by simp [hmem, hne.symm]⟩

theorem Intact.traced_pathOf (h : d.Intact) (id : NodeId) :
    ∃ segments, d.Traced id segments ∧ "?" ∉ segments ∧ d.pathOf id = "/" ++ "/".intercalate segments := by
  obtain ⟨htraced, hmem⟩ := h.traced_segmentsTo (h.within_childOf id) (Nat.le_refl d.size)
  exact ⟨_, htraced, hmem, rfl⟩

/-- The bound on the nesting of a value is never met. -/
theorem Intact.jsonAt_eq_jsonValue (h : d.Intact) (id : NodeId) (hle : d.valueLevels ≤ levels) :
    d.jsonAt levels maxExpansions id = d.jsonValue id := by
  have hvalue : d.valueLevels = maxExpansions * (d.size + 1) + (d.size + 1) := Nat.succ_mul _ _
  have hrenders : Rendering.json.Renders d maxExpansions id (d.renderAt .json levels maxExpansions id) :=
    h.renders_renderAt (h.within_holds id) (by omega)
  rw [jsonAt_eq_renderAt, jsonValue_eq_rendered]
  exact h.renders_iff.1 hrenders

end YamlQuery.Document
