import YamlQuery.Value.OfNode
import YamlQuery.Proofs.Document.Comparison
/-!
The values of nodes as a relation without a bound on the nesting. Values for YAML and for JSON come from one recursion, which
goes down what a node holds and spends one expansion at each alias. It comes to an end, because nothing holds itself and
expansions run out.
-/
namespace YamlQuery

structure Rendering (K V : Type) where
  scalar : ScalarValue → V
  sequence : List V → V
  key : Option String → V → K
  mapping : List (K × V) → V

namespace Rendering

def yaml : Rendering YamlValue YamlValue := ⟨.scalar, .sequence, fun _ v => v, .ofPairs⟩

def json : Rendering String JsonValue := ⟨.ofScalar, .array, fun text v => text.getD v.compact, .ofFields⟩

variable {K V : Type}

/-- Node `id` has value `v` when `left` more aliases may be expanded inside each other. -/
inductive Renders (r : Rendering K V) (d : Document) : Nat → NodeId → V → Prop
  | missing {left : Nat} {id : NodeId} (hc : d.content? id = none) : Renders r d left id (r.scalar .null)
  | scalar {left : Nat} {id : NodeId} {text : String} {style : ScalarStyle} (hc : d.content? id = some (.scalar text style)) :
    Renders r d left id (r.scalar (.resolve text style (d.tag? id)))
  | sequence {left : Nat} {id : NodeId} {items : List NodeId} (hc : d.content? id = some (.sequence items)) (value : NodeId → V)
    (h : ∀ c ∈ items, Renders r d left c (value c)) : Renders r d left id (r.sequence (items.map value))
  | mapping {left : Nat} {id : NodeId} {pairs : List (NodeId × NodeId)} (hc : d.content? id = some (.mapping pairs))
    (value : NodeId → V) (hk : ∀ p ∈ pairs, Renders r d left p.1 (value p.1))
    (hv : ∀ p ∈ pairs, Renders r d left p.2 (value p.2)) :
    Renders r d left id (r.mapping (pairs.map fun p => (r.key (d.text? p.1) (value p.1), value p.2)))
  | expanded {left : Nat} {id target : NodeId} {name : String} {v : V} (hc : d.content? id = some (.reference name))
    (hl : d.lookupAnchor? name = some target) (h : Renders r d left target v) : Renders r d (left + 1) id v
  | kept {left : Nat} {id : NodeId} {name : String} (hc : d.content? id = some (.reference name))
    (h : left = 0 ∨ d.lookupAnchor? name = none) : Renders r d left id (r.scalar (Document.aliasText name))

theorem Renders.unique {r : Rendering K V} {d : Document} {left : Nat} {id : NodeId} {v w : V} (h : r.Renders d left id v)
    (h' : r.Renders d left id w) : v = w := by
  induction h generalizing w with
  | missing hc =>
    cases h' with
    | missing => rfl
    | scalar hc' | sequence hc' | mapping hc' | expanded hc' | kept hc' => cases hc.symm.trans hc'
  | scalar hc =>
    cases h' with
    | scalar hc' =>
      cases hc.symm.trans hc'
      rfl
    | missing hc' | sequence hc' | mapping hc' | expanded hc' | kept hc' => cases hc.symm.trans hc'
  | sequence hc value _ ih =>
    cases h' with
    | sequence hc' value' h' =>
      cases hc.symm.trans hc'
      rw [List.map_congr_left fun c hmem => ih c hmem (h' c hmem)]
    | missing hc' | scalar hc' | mapping hc' | expanded hc' | kept hc' => cases hc.symm.trans hc'
  | mapping hc value _ _ ihk ihv =>
    cases h' with
    | mapping hc' value' hk' hv' =>
      cases hc.symm.trans hc'
      apply congrArg r.mapping
      apply List.map_congr_left
      intro p hp
      rw [ihk p hp (hk' p hp), ihv p hp (hv' p hp)]
    | missing hc' | scalar hc' | sequence hc' | expanded hc' | kept hc' => cases hc.symm.trans hc'
  | expanded hc hl _ ih =>
    cases h' with
    | expanded hc' hl' h' =>
      cases hc.symm.trans hc'
      cases hl.symm.trans hl'
      exact ih h'
    | kept hc' h' =>
      cases hc.symm.trans hc'
      simp [hl] at h'
    | missing hc' | scalar hc' | sequence hc' | mapping hc' => cases hc.symm.trans hc'
  | kept hc h =>
    cases h' with
    | kept hc' =>
      cases hc.symm.trans hc'
      rfl
    | expanded hc' hl' =>
      cases hc.symm.trans hc'
      simp [hl'] at h
    | missing hc' | scalar hc' | sequence hc' | mapping hc' => cases hc.symm.trans hc'

end Rendering

namespace Document
variable {K V : Type} {r : Rendering K V} {d : Document} {id : NodeId} {v : V} {left k levels : Nat}

def renderAt (d : Document) (r : Rendering K V) : (levels expansions : Nat) → NodeId → V
  | 0, _, _ => r.scalar .null
  | levels + 1, expansions, id =>
    match d.content? id with
    | none => r.scalar .null
    | some (.scalar text style) => r.scalar (.resolve text style (d.tag? id))
    | some (.sequence items) => r.sequence (items.map (d.renderAt r levels expansions))
    | some (.mapping pairs) =>
      r.mapping (pairs.map fun p =>
        (r.key (d.text? p.1) (d.renderAt r levels expansions p.1), d.renderAt r levels expansions p.2))
    | some (.reference name) =>
      match expansions, d.lookupAnchor? name with
      | left + 1, some target => d.renderAt r levels left target
      | _, _ => r.scalar (aliasText name)

theorem yamlAt_eq_renderAt (d : Document) (levels expansions : Nat) (id : NodeId) :
    d.yamlAt levels expansions id = d.renderAt .yaml levels expansions id := by
  induction levels generalizing expansions id with
  | zero => rfl
  | succ levels ih =>
    have hlevel : d.yamlAt levels = d.renderAt .yaml levels := funext fun expansions => funext fun id => ih expansions id
    rw [yamlAt, renderAt, hlevel, content?, tag?]
    cases d.node? id with
    | none => rfl
    | some n => obtain ⟨content, _, _, _⟩ := n; cases content <;> rfl

theorem jsonAt_eq_renderAt (d : Document) (levels expansions : Nat) (id : NodeId) :
    d.jsonAt levels expansions id = d.renderAt .json levels expansions id := by
  induction levels generalizing expansions id with
  | zero => rfl
  | succ levels ih =>
    have hlevel : d.jsonAt levels = d.renderAt .json levels := funext fun expansions => funext fun id => ih expansions id
    rw [jsonAt, renderAt, hlevel, content?, tag?]
    cases d.node? id with
    | none => rfl
    | some n => obtain ⟨content, _, _, _⟩ := n; cases content <;> rfl

theorem holds_of_content? {c : Content} (hc : d.content? id = some c) {p : NodeId} (hp : p ∈ c.members) : d.Holds id p := by
  simpa [Holds, members, hc] using hp

/-- A value is nested as deep as what its node holds, and once more so for each expansion. -/
theorem Intact.renders_renderAt (h : d.Intact) (hk : Within d.Holds k id) (hlt : k + left * (d.size + 1) < levels) :
    r.Renders d left id (d.renderAt r levels left id) := by
  induction levels generalizing left k id with
  | zero => omega
  | succ levels ih =>
    have hmember : ∀ c, d.content? id = some c → ∀ p ∈ c.members, r.Renders d left p (d.renderAt r levels left p) := by
      intro c hc p hp
      obtain ⟨j, hj, hbelow⟩ := hk.next (holds_of_content? hc hp)
      exact ih hbelow (by omega)
    rw [renderAt]
    cases hc : d.content? id with
    | none => exact .missing hc
    | some c =>
      cases c with
      | scalar text style => exact .scalar hc
      | sequence items => exact .sequence hc _ (hmember _ hc)
      | mapping pairs =>
        have hpair : ∀ p ∈ pairs, p.1 ∈ (Content.mapping pairs).members ∧ p.2 ∈ (Content.mapping pairs).members :=
          fun _ => Content.pair_mem_members
        exact .mapping hc _ (fun p hp => hmember _ hc _ (hpair p hp).1) fun p hp => hmember _ hc _ (hpair p hp).2
      | reference name =>
        cases left with
        | zero => exact .kept hc (.inl rfl)
        | succ left =>
          cases hl : d.lookupAnchor? name with
          | none => simpa only [hl] using Rendering.Renders.kept hc (.inr hl)
          | some target =>
            rw [Nat.succ_mul] at hlt
            simp only [hl]
            exact .expanded hc hl (ih (h.within_holds target) (by omega))

def rendered (d : Document) (r : Rendering K V) (left : Nat) (id : NodeId) : V :=
  d.renderAt r ((left + 1) * (d.size + 1)) left id

theorem yamlValue_eq_rendered (d : Document) (id : NodeId) : d.yamlValue id = d.rendered .yaml maxExpansions id :=
  d.yamlAt_eq_renderAt _ _ id

theorem jsonValue_eq_rendered (d : Document) (id : NodeId) : d.jsonValue id = d.rendered .json maxExpansions id :=
  d.jsonAt_eq_renderAt _ _ id

/-- Coming to the value of a node takes finitely many steps, and nothing is cut off. -/
theorem Intact.renders_iff (h : d.Intact) : r.Renders d left id v ↔ v = d.rendered r left id := by
  have hrendered : r.Renders d left id (d.rendered r left id) := by
    refine h.renders_renderAt (h.within_holds id) ?_
    rw [Nat.succ_mul]
    omega
  constructor
  · exact fun hv => hv.unique hrendered
  · rintro rfl
    exact hrendered

theorem Intact.renders_rendered (h : d.Intact) (left : Nat) (id : NodeId) : r.Renders d left id (d.rendered r left id) :=
  h.renders_iff.2 rfl

theorem Intact.rendered_scalar (h : d.Intact) {text : String} {style : ScalarStyle}
    (hc : d.content? id = some (.scalar text style)) :
    d.rendered r left id = r.scalar (.resolve text style (d.tag? id)) :=
  (h.renders_iff.1 (.scalar hc)).symm

theorem Intact.rendered_sequence (h : d.Intact) {items : List NodeId} (hc : d.content? id = some (.sequence items)) :
    d.rendered r left id = r.sequence (items.map (d.rendered r left)) :=
  (h.renders_iff.1 (.sequence hc _ fun c _ => h.renders_rendered left c)).symm

theorem Intact.rendered_mapping (h : d.Intact) {pairs : List (NodeId × NodeId)}
    (hc : d.content? id = some (.mapping pairs)) :
    d.rendered r left id =
      r.mapping (pairs.map fun p => (r.key (d.text? p.1) (d.rendered r left p.1), d.rendered r left p.2)) :=
  (h.renders_iff.1 (.mapping hc _ (fun p _ => h.renders_rendered left p.1) fun p _ => h.renders_rendered left p.2)).symm

theorem Intact.rendered_expanded (h : d.Intact) {name : String} {target : NodeId}
    (hc : d.content? id = some (.reference name)) (hl : d.lookupAnchor? name = some target) :
    d.rendered r (left + 1) id = d.rendered r left target :=
  (h.renders_iff.1 (.expanded hc hl (h.renders_rendered left target))).symm

end Document
end YamlQuery
