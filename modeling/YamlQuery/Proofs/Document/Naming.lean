import YamlQuery.Proofs.Document.Building
/-!
Anchor names. Whatever the events, a name stands for the youngest node that was given it.
-/
namespace YamlQuery

namespace Document

def Named (d : Document) : Prop :=
  ∀ name id, d.lookupAnchor? name = some id ↔ d.anchor? id = some name ∧ ∀ j, d.anchor? j = some name → j ≤ id

variable {d d' : Document} {id : NodeId}

theorem named_empty : Named .empty := by
  intro name id
  simp [empty, lookupAnchor?, Registry.get?, anchor?, node?]

theorem Named.congr (h : Named d) (hn : ∀ x, d'.anchor? x = d.anchor? x) (hr : d'.anchors = d.anchors) : Named d' := by
  intro name id
  simp only [lookupAnchor?, hr, hn]
  exact h name id

theorem Named.add (h : Named d) {c : Content} (hc : c.members = []) : Named (d.add c) := by
  apply h.congr (anchor?_add hc)
  rw [add_eq_push hc]

theorem Named.fill (h : Named d) (c : Content) : Named (d.fill id c) :=
  h.congr (anchor?_fill d id c) (fill_frame d id c).2

theorem anchor?_update {f : Node → Node} (hf : ∀ n, (f n).anchor = n.anchor) (x : NodeId) :
    (d.update id f).anchor? x = d.anchor? x := by
  unfold anchor?
  rw [node?_update]
  by_cases hx : x = id
  · cases d.node? x <;> simp [hx, hf]
  · simp [hx]

theorem Named.setTag (h : Named d) (tag : String) : Named (d.setTag id tag) := by
  have hn : ∀ x, (d.setTag id tag).anchor? x = d.anchor? x :=
    @anchor?_update d id (fun n => { n with tag := some tag }) fun _ => rfl
  exact h.congr hn rfl

theorem Named.setRoot (h : Named d) : Named (d.setRoot id) := by
  have hn : ∀ x, (d.setRoot id).anchor? x = d.anchor? x :=
    @anchor?_update d id (fun n => { n with parent := none }) fun _ => rfl
  exact h.congr hn rfl

theorem anchor?_setAnchor {name : String} (hid : id < d.size) (x : NodeId) :
    (d.setAnchor id name).anchor? x = if x = id then some name else d.anchor? x := by
  show ((d.update id _).node? x).bind _ = _
  unfold anchor?
  rw [node?_update]
  by_cases hx : x = id
  · obtain ⟨n, hn⟩ : ∃ n, d.node? id = some n := ⟨_, Array.getElem?_eq_getElem hid⟩
    simp [hx, hn]
  · simp [hx]

/-- The youngest node gets its first name. -/
theorem Named.setAnchor (h : Named d) (name : String) (hsize : d.size = id + 1) (hnone : d.anchor? id = none) :
    Named (d.setAnchor id name) := by
  have hid : id < d.size := by
    rw [hsize]
    exact Nat.lt_succ_self _
  have hyoung : ∀ j x, d.anchor? j = some x → j < id := by
    intro j x hj
    have hlt := anchor?_lt hj
    have hne : j ≠ id := by
      intro he
      rw [he, hnone] at hj
      simp at hj
    rw [hsize] at hlt
    exact Nat.lt_of_le_of_ne (Nat.le_of_lt_succ hlt) hne
  intro x i
  have hreg : (d.setAnchor id name).lookupAnchor? x = if x = name then some id else d.lookupAnchor? x :=
    Registry.get?_insert d.anchors name x id
  simp only [hreg, anchor?_setAnchor hid]
  by_cases hx : x = name
  · subst hx
    simp only [↓reduceIte, Option.some.injEq]
    constructor
    · rintro rfl
      refine ⟨by simp, ?_⟩
      intro j hj
      by_cases hji : j = id
      · exact Nat.le_of_eq hji
      · rw [if_neg hji] at hj
        exact Nat.le_of_lt (hyoung j x hj)
    · rintro ⟨hi, hmax⟩
      have hle := hmax id (by simp)
      by_cases hii : i = id
      · exact hii.symm
      · rw [if_neg hii] at hi
        exact absurd (hyoung i x hi) (Nat.not_lt.2 hle)
  · have hkeep : ∀ j, (if j = id then some name else d.anchor? j) = some x ↔ d.anchor? j = some x := by
      intro j
      by_cases hj : j = id
      · have hne : name ≠ x := fun he => hx he.symm
        simp [hj, hnone, hne]
      · simp [hj]
    simp only [hx, ↓reduceIte, hkeep]
    exact h x i

end Document

namespace Assembly
open Document Yaml

theorem named_decorate {names : List String} {d : Document} {c : Content} (hc : c.members = []) (h : d.Named)
    (anchor : AnchorId) (tag : Option Tag) : (decorate names anchor tag d.size (d.add c)).Named := by
  have hadd := h.add hc
  have hnone : (d.add c).anchor? d.size = none := by
    rw [anchor?_add hc, anchor?, node?_none (Nat.le_refl _)]
    rfl
  have hset := hadd.setAnchor (anchorName names anchor) (size_add hc) hnone
  unfold decorate
  by_cases hpos : anchor > 0
  · rw [if_pos hpos]
    cases tag with
    | none => exact hset
    | some t => exact hset.setTag t.text
  · rw [if_neg hpos]
    cases tag with
    | none => exact hadd
    | some t => exact hadd.setTag t.text

end Assembly

theorem Document.named_ofEvents (names : List String) (es : List Yaml.Event) : (ofEvents names es).Named :=
  Assembly.keeps_ofEvents (P := Named) (fun _ _ anchor tag hc h => Assembly.named_decorate hc h anchor tag)
    (fun _ _ h => h.setRoot) (fun _ _ c h => h.fill c) named_empty es

end YamlQuery
