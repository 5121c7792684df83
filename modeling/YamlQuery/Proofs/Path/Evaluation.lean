import YamlQuery.Proofs.Outcome
import YamlQuery.Proofs.Path.Merging
/-!
Evaluation as a relation between calls and outcomes. A call knows how deep it is nested and not how much of the limit is
left; a derivation is the finite tree of the calls that an outcome takes. Every call has exactly one outcome, the one
that counting the levels left gives.
-/
namespace YamlQuery.Path

variable {w : Walk} {depth levels : Nat}

inductive Follows (w : Walk) : Nat → NodeId → Except EvalError NodeId → Prop
  | kept {depth : Nat} {id : NodeId} (hf : w.options.followAliases = false) : Follows w depth id (.ok id)
  | arrived {depth : Nat} {id : NodeId} (h : w.doc.aliasName? id = none) : Follows w depth id (.ok id)
  | tooDeep {depth : Nat} {id : NodeId} {name : String} (hf : w.options.followAliases = true)
    (h : w.doc.aliasName? id = some name) (hd : w.options.maxDepth < depth) : Follows w depth id w.tooDeep
  | unresolved {depth : Nat} {id : NodeId} {name : String} (hf : w.options.followAliases = true)
    (h : w.doc.aliasName? id = some name) (hd : depth ≤ w.options.maxDepth) (hl : w.doc.lookupAnchor? name = none) :
    Follows w depth id (.error (.unresolvedAlias name))
  | hop {depth : Nat} {id target : NodeId} {name : String} {r : Except EvalError NodeId}
    (hf : w.options.followAliases = true) (h : w.doc.aliasName? id = some name) (hd : depth ≤ w.options.maxDepth)
    (hl : w.doc.lookupAnchor? name = some target) (ht : Follows w (depth + 1) target r) : Follows w depth id r

inductive Reaches (w : Walk) (depth : Nat) (ids : List NodeId) : Walk.Result → Prop
  | intro (reach : NodeId → Except EvalError NodeId) (h : ∀ id ∈ ids, Follows w depth id (reach id)) :
    Reaches w depth ids (Walk.collect (fun id => (reach id).map ([·])) ids)

inductive Descends (w : Walk) : Nat → NodeId → Walk.Result → Prop
  | tooDeep {depth : Nat} {id : NodeId} (hd : w.options.maxDepth < depth) : Descends w depth id w.tooDeep
  | children {depth : Nat} {id : NodeId} (hd : depth ≤ w.options.maxDepth) (reach : NodeId → Except EvalError NodeId)
    (under : NodeId → Walk.Result) (hr : ∀ child ∈ w.doc.children id, Follows w depth child (reach child))
    (hu : ∀ child ∈ w.doc.children id, ∀ target, reach child = .ok target → Descends w (depth + 1) target (under target)) :
    Descends w depth id (Walk.collect (fun child => do
      let target ← reach child
      return target :: (← under target)) (w.doc.children id))

inductive Steps (w : Walk) (depth : Nat) : Step → List NodeId → Walk.Result → Prop
  | root {input : List NodeId} : Steps w depth .root input (.ok (if input.isEmpty then [] else w.doc.root.toList))
  | this {input : List NodeId} : Steps w depth .this input (.ok input)
  | parent {input : List NodeId} : Steps w depth .parent input (.ok (input.filterMap w.doc.parent?))
  | everyChild {input : List NodeId} {r : Walk.Result} (h : Reaches w depth (input.flatMap w.doc.children) r) :
    Steps w depth .everyChild input r
  | everyDescendant {input : List NodeId} (under : NodeId → Walk.Result)
    (h : ∀ id ∈ input, Descends w (depth + 1) id (under id)) :
    Steps w depth .everyDescendant input (Walk.collect (fun id => (under id).map (id :: ·)) input)
  | filterCollection {input : List NodeId} :
    Steps w depth .filterCollection input (.ok (w.keepKind (·.isCollection) input))
  | filterScalar {input : List NodeId} :
    Steps w depth .filterScalar input (.ok (w.keepKind (fun k => k = .scalar || k = .reference) input))
  | filterSequence {input : List NodeId} : Steps w depth .filterSequence input (.ok (w.keepKind (· = .sequence) input))
  | filterMapping {input : List NodeId} : Steps w depth .filterMapping input (.ok (w.keepKind (· = .mapping) input))
  | index {i : Int64} {input : List NodeId} {r : Walk.Result}
    (h : Reaches w depth (input.filterMap fun id => (w.doc.items? id).bind (Walk.itemAt? · i)) r) :
    Steps w depth (.index i) input r
  | slice {s : Slice} {input : List NodeId} {r : Walk.Result}
    (h : Reaches w depth (input.flatMap fun id =>
      match w.doc.items? id with
      | some items => (s.indices items.length).filterMap (items[·]?)
      | none => []) r) : Steps w depth (.slice s) input r
  | mapKey {key : MapKey} {input : List NodeId} {r : Walk.Result}
    (h : Reaches w depth (input.filterMap (w.lookup? key)) r) : Steps w depth (.mapKey key) input r
  | unresolved {name : String} {input : List NodeId} (h : w.doc.lookupAnchor? name = none) :
    Steps w depth (.reference name) input (.error (.unresolvedAlias name))
  | reference {name : String} {target : NodeId} {input : List NodeId} {r : Except EvalError NodeId}
    (h : w.doc.lookupAnchor? name = some target) (ht : Follows w depth target r) :
    Steps w depth (.reference name) input (r.map fun id => input.map fun _ => id)

/-- An expression. The outcomes of operands are needed on any input, of which a combinator uses those it comes to. -/
inductive Evaluates (w : Walk) : Nat → Expr → List NodeId → Walk.Result → Prop
  | tooDeep {depth : Nat} {e : Expr} {input : List NodeId} (hd : w.options.maxDepth < depth) :
    Evaluates w depth e input w.tooDeep
  | step {depth : Nat} {s : Step} {span : Span} {input : List NodeId} {r : Walk.Result}
    (hd : depth ≤ w.options.maxDepth) (h : Steps w depth s input r) : Evaluates w depth (.step s span) input r
  | join {depth : Nat} {c : Combinator} {operands : List Expr} {span : Span} {input : List NodeId}
    (hd : depth ≤ w.options.maxDepth) (operand : Expr → List NodeId → Walk.Result)
    (h : ∀ e ∈ operands, ∀ input, Evaluates w (depth + 1) e input (operand e input)) :
    Evaluates w depth (.join c operands span) input (c.merge operands input operand)

namespace Walk
variable {id target : NodeId} {name : String}

theorem resolve_kept (hf : w.options.followAliases = false) : w.resolve levels id = .ok id := by
  simp [resolve, hf]

theorem resolve_arrived (h : w.doc.aliasName? id = none) : w.resolve levels id = .ok id := by
  rw [resolve, chase, h]
  exact ite_self _

theorem resolve_tooDeep (hf : w.options.followAliases = true) (h : w.doc.aliasName? id = some name) :
    w.resolve 0 id = w.tooDeep := by
  rw [resolve, if_pos hf, chase, h]

theorem resolve_unresolved (hf : w.options.followAliases = true) (h : w.doc.aliasName? id = some name)
    (hl : w.doc.lookupAnchor? name = none) : w.resolve (levels + 1) id = .error (.unresolvedAlias name) := by
  rw [resolve, if_pos hf, chase, h]
  simp [hl]

theorem resolve_hop (hf : w.options.followAliases = true) (h : w.doc.aliasName? id = some name)
    (hl : w.doc.lookupAnchor? name = some target) : w.resolve (levels + 1) id = w.resolve levels target := by
  rw [resolve, resolve, if_pos hf, if_pos hf, chase, h]
  simp [hl]

end Walk

theorem Follows.eq_resolve {id : NodeId} {r : Except EvalError NodeId} (h : Follows w depth id r)
    (hd : depth + levels = w.options.maxDepth + 1) : r = w.resolve levels id := by
  induction h generalizing levels with
  | kept hf => exact (Walk.resolve_kept hf).symm
  | arrived h => exact (Walk.resolve_arrived h).symm
  | tooDeep hf h hlt =>
    obtain rfl : levels = 0 := by omega
    exact (Walk.resolve_tooDeep hf h).symm
  | unresolved hf h hle hl =>
    obtain ⟨n, rfl⟩ : ∃ n, levels = n + 1 := ⟨levels - 1, by omega⟩
    exact (Walk.resolve_unresolved hf h hl).symm
  | hop hf h hle hl _ ih =>
    obtain ⟨n, rfl⟩ : ∃ n, levels = n + 1 := ⟨levels - 1, by omega⟩
    rw [Walk.resolve_hop hf h hl]
    exact ih (by omega)

theorem follows_resolve (hd : depth + levels = w.options.maxDepth + 1) (id : NodeId) :
    Follows w depth id (w.resolve levels id) := by
  cases hf : w.options.followAliases with
  | false =>
    rw [Walk.resolve_kept hf]
    exact .kept hf
  | true =>
    induction levels generalizing depth id with
    | zero =>
      cases h : w.doc.aliasName? id with
      | none =>
        rw [Walk.resolve_arrived h]
        exact .arrived h
      | some name =>
        rw [Walk.resolve_tooDeep hf h]
        exact .tooDeep hf h (by omega)
    | succ n ih =>
      cases h : w.doc.aliasName? id with
      | none =>
        rw [Walk.resolve_arrived h]
        exact .arrived h
      | some name =>
        cases hl : w.doc.lookupAnchor? name with
        | none =>
          rw [Walk.resolve_unresolved hf h hl]
          exact .unresolved hf h (by omega) hl
        | some target =>
          rw [Walk.resolve_hop hf h hl]
          exact .hop hf h (by omega) hl (ih (by omega) target)

theorem reaches_iff (hd : depth + levels = w.options.maxDepth + 1) {ids : List NodeId} {r : Walk.Result} :
    Reaches w depth ids r ↔ r = w.resolveAll levels ids := by
  constructor
  · rintro ⟨reach, h⟩
    apply Walk.collect_composes composes_eq
    intro id hid
    rw [(h id hid).eq_resolve hd]
  · rintro rfl
    exact .intro (w.resolve levels) fun id _ => follows_resolve hd id

theorem Descends.eq_descendants {id : NodeId} {r : Walk.Result} (h : Descends w depth id r)
    (hd : depth + levels = w.options.maxDepth + 1) : r = w.descendants levels id := by
  induction h generalizing levels with
  | tooDeep hlt =>
    obtain rfl : levels = 0 := by omega
    rfl
  | children hle reach under hr _ ih =>
    obtain ⟨n, rfl⟩ : ∃ n, levels = n + 1 := ⟨levels - 1, by omega⟩
    rw [Walk.descendants]
    apply Walk.collect_composes composes_eq
    intro child hchild
    rw [← (hr child hchild).eq_resolve hd]
    cases hreach : reach child with
    | error e => rfl
    | ok target =>
      have hbelow : under target = w.descendants n target := ih child hchild target hreach (by omega)
      rw [Outcome.bind_ok, Outcome.bind_ok, hbelow]

theorem descends_descendants (hd : depth + levels = w.options.maxDepth + 1) (id : NodeId) :
    Descends w depth id (w.descendants levels id) := by
  induction levels generalizing depth id with
  | zero => exact .tooDeep (by omega)
  | succ n ih =>
    rw [Walk.descendants]
    exact .children (by omega) (w.resolve (n + 1)) (w.descendants n) (fun child _ => follows_resolve hd child)
      fun child _ target _ => ih (by omega) target

theorem steps_iff (hd : depth + levels = w.options.maxDepth) {s : Step} {input : List NodeId} {r : Walk.Result} :
    Steps w depth s input r ↔ r = w.step levels s input := by
  have hreach : depth + (levels + 1) = w.options.maxDepth + 1 := by omega
  have hunder : depth + 1 + levels = w.options.maxDepth + 1 := by omega
  constructor
  · intro h
    cases h with
    | root | this | parent | filterCollection | filterScalar | filterSequence | filterMapping => rfl
    | everyChild h | index h | slice h | mapKey h => exact (reaches_iff hreach).1 h
    | everyDescendant under h =>
      apply Walk.collect_composes composes_eq
      intro id hid
      rw [(h id hid).eq_descendants hunder]
    | unresolved h => simp [Walk.step, h]
    | reference h ht => simp [Walk.step, h, ht.eq_resolve hreach]
  · rintro rfl
    cases s with
    | root => exact .root
    | this => exact .this
    | parent => exact .parent
    | everyChild => exact .everyChild ((reaches_iff hreach).2 rfl)
    | everyDescendant => exact .everyDescendant (w.descendants levels) fun id _ => descends_descendants hunder id
    | filterCollection => exact .filterCollection
    | filterScalar => exact .filterScalar
    | filterSequence => exact .filterSequence
    | filterMapping => exact .filterMapping
    | index i => exact .index ((reaches_iff hreach).2 rfl)
    | slice s => exact .slice ((reaches_iff hreach).2 rfl)
    | mapKey key => exact .mapKey ((reaches_iff hreach).2 rfl)
    | reference name =>
      rw [Walk.step]
      cases h : w.doc.lookupAnchor? name with
      | none => exact .unresolved h
      | some target => exact .reference h (follows_resolve hreach target)

theorem Evaluates.eq_eval {e : Expr} {input : List NodeId} {r : Walk.Result} (h : Evaluates w depth e input r)
    (hd : depth + levels = w.options.maxDepth + 1) : r = w.eval levels e input := by
  induction h generalizing levels with
  | tooDeep hlt =>
    obtain rfl : levels = 0 := by omega
    rfl
  | step hle hs =>
    obtain ⟨n, rfl⟩ : ∃ n, levels = n + 1 := ⟨levels - 1, by omega⟩
    exact (steps_iff (by omega)).1 hs
  | join hle operand _ ih =>
    obtain ⟨n, rfl⟩ : ∃ n, levels = n + 1 := ⟨levels - 1, by omega⟩
    exact Combinator.merge_composes _ composes_eq (fun e he input _ => ih e he input (by omega)) trivial

theorem evaluates_eval (hd : depth + levels = w.options.maxDepth + 1) (e : Expr) (input : List NodeId) :
    Evaluates w depth e input (w.eval levels e input) := by
  induction levels generalizing depth e input with
  | zero => exact .tooDeep (by omega)
  | succ n ih =>
    cases e with
    | step s span => exact .step (by omega) ((steps_iff (by omega)).2 rfl)
    | join c operands span => exact .join (by omega) (w.eval n) fun e _ input => ih (by omega) e input

/-- Executing an expression comes to an end, with the outcome of its calls. -/
theorem evaluates_iff_execute {e : Expr} {doc : Document} {start : NodeId} {options : EvalOptions} {r : Walk.Result} :
    Evaluates ⟨doc, options⟩ 0 e [start] r ↔ r = e.execute doc start options := by
  have hd : 0 + (options.maxDepth + 1) = options.maxDepth + 1 := Nat.zero_add _
  constructor
  · intro h
    exact h.eq_eval hd
  · rintro rfl
    exact evaluates_eval hd e [start]

end YamlQuery.Path
