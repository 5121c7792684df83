import YamlQuery.Proofs.Path.Downward
import YamlQuery.Proofs.Path.Evaluation
import YamlQuery.Proofs.Path.Parts
/-!
Where evaluation lands. What navigation keeps of the nodes it comes to and of the errors it ends in, every evaluation keeps.
-/
namespace YamlQuery.Path

variable {α : Type} {F : EvalError → Prop}

abbrev Lands (S : α → Prop) (F : EvalError → Prop) : Except EvalError α → Prop := Outcome.Safe S F

/-- The same outcome twice, with what it keeps. -/
theorem composes_lands {S : List NodeId → Prop} (hnil : S []) (happend : ∀ xs ys, S xs → S ys → S (xs ++ ys)) :
    Composes S fun x y => x = y ∧ Lands S F x where
  ok := fun h => ⟨rfl, h⟩
  bind := by
    rintro x _ f g ⟨rfl, hx⟩ h
    cases x with
    | error e => exact ⟨rfl, hx⟩
    | ok xs => exact h xs hx
  nil := hnil
  append := happend _ _

def Throughout (P : NodeId → Prop) (ids : List NodeId) : Prop := ∀ id ∈ ids, P id

structure Walk.Keeps (w : Walk) (P : NodeId → Prop) (F : EvalError → Prop) : Prop where
  root : ∀ id, w.doc.root = some id → P id
  parent : ∀ id p, w.doc.parent? id = some p → P p
  child : ∀ levels id c, c ∈ w.doc.children id → Lands P F (w.resolve levels c)
  anchor : ∀ levels name id, w.doc.lookupAnchor? name = some id → Lands P F (w.resolve levels id)
  deep : F (.depthExceeded w.options.maxDepth)

namespace Walk
variable {w : Walk} {P : NodeId → Prop} {input : List NodeId} {levels : Nat}

/-- What every target of an alias satisfies, the end of a chain of aliases satisfies. -/
theorem resolve_lands (hdeep : F (.depthExceeded w.options.maxDepth))
    (htarget : ∀ name target, w.doc.lookupAnchor? name = some target → P target)
    (hnone : ∀ id name, w.doc.aliasName? id = some name → w.doc.lookupAnchor? name = none → F (.unresolvedAlias name))
    (levels : Nat) {id : NodeId} (hid : P id) : Lands P F (w.resolve levels id) := by
  cases hf : w.options.followAliases with
  | false =>
    rw [resolve_kept hf]
    exact hid
  | true =>
    induction levels generalizing id with
    | zero =>
      cases hname : w.doc.aliasName? id with
      | none =>
        rw [resolve_arrived hname]
        exact hid
      | some name =>
        rw [resolve_tooDeep hf hname]
        exact hdeep
    | succ levels ih =>
      cases hname : w.doc.aliasName? id with
      | none =>
        rw [resolve_arrived hname]
        exact hid
      | some name =>
        cases hl : w.doc.lookupAnchor? name with
        | none =>
          rw [resolve_unresolved hf hname hl]
          exact hnone id name hname hl
        | some target =>
          rw [resolve_hop hf hname hl]
          exact ih (htarget name target hl)

theorem composes_throughout (P : NodeId → Prop) (F : EvalError → Prop) :
    Composes (Throughout P) fun x y => x = y ∧ Lands (Throughout P) F x :=
  composes_lands (by simp [Throughout]) fun _ _ h h' => List.forall_mem_append.2 ⟨h, h'⟩

theorem collect_lands {f : α → Result} {as : List α} (h : ∀ a ∈ as, Lands (Throughout P) F (f a)) :
    Lands (Throughout P) F (collect f as) :=
  (collect_composes (composes_throughout P F) fun a ha => ⟨rfl, h a ha⟩).2

theorem resolveAll_lands (h : ∀ id ∈ input, Lands P F (w.resolve levels id)) :
    Lands (Throughout P) F (w.resolveAll levels input) := by
  apply collect_lands
  intro id hid
  apply (h id hid).map
  intro target ht
  simpa [Throughout] using ht

theorem descendants_lands (h : w.Keeps P F) (id : NodeId) : Lands (Throughout P) F (w.descendants levels id) := by
  induction levels generalizing id with
  | zero => exact h.deep
  | succ levels ih =>
    apply collect_lands
    intro child hchild
    apply (h.child (levels + 1) id child hchild).bind
    intro target ht
    apply (ih target).bind
    intro below hbelow
    exact List.forall_mem_cons.2 ⟨ht, hbelow⟩

theorem step_lands (h : w.Keeps P F) {s : Step} (hin : Throughout P input)
    (hname : ∀ name, s = .reference name → w.doc.lookupAnchor? name = none → F (.unresolvedAlias name)) :
    Lands (Throughout P) F (w.step levels s input) := by
  have hdown : s.isDownward = true → Lands (Throughout P) F (w.step levels s input) := by
    intro hs
    rw [step_of_isDownward hs]
    apply resolveAll_lands
    intro c hc
    obtain ⟨id, _, hselected⟩ := List.mem_flatMap.1 hc
    exact h.child (levels + 1) id c (mem_children_of_selected hselected)
  have hfilter : ∀ keep, Throughout P (w.keepKind keep input) := fun keep id hid => hin id (List.mem_of_mem_filter hid)
  cases s with
  | everyChild | index | slice | mapKey => exact hdown rfl
  | root =>
    show Throughout P (if input.isEmpty then [] else w.doc.root.toList)
    split
    · simp [Throughout]
    · exact fun id hid => h.root id (Option.mem_toList.1 hid)
  | this => exact hin
  | parent =>
    intro p hp
    obtain ⟨id, _, hparent⟩ := List.mem_filterMap.1 hp
    exact h.parent id p hparent
  | everyDescendant =>
    apply collect_lands
    intro id hid
    apply (descendants_lands h id).map
    intro below hbelow
    exact List.forall_mem_cons.2 ⟨hin id hid, hbelow⟩
  | filterCollection | filterScalar | filterSequence | filterMapping => exact hfilter _
  | reference name =>
    rw [step]
    cases hl : w.doc.lookupAnchor? name with
    | none => exact hname name rfl hl
    | some target =>
      apply (h.anchor (levels + 1) name target hl).map
      intro id hid c hc
      obtain ⟨_, _, rfl⟩ := List.mem_map.1 hc
      exact hid

/-- An evaluation keeps what navigation keeps, and ends in no other error but on an alias step whose name stands for
nothing. -/
theorem eval_lands (h : w.Keeps P F) (levels : Nat) (e : Expr) (hin : Throughout P input)
    (hname : ∀ name span, e.Contains (.step (.reference name) span) → w.doc.lookupAnchor? name = none →
      F (.unresolvedAlias name)) :
    Lands (Throughout P) F (w.eval levels e input) := by
  induction levels generalizing e input with
  | zero => exact h.deep
  | succ levels ih =>
    cases e with
    | step s span =>
      apply step_lands h hin
      rintro name rfl
      exact hname name span (Expr.contains_self _)
    | join c operands span =>
      have hoperand : ∀ e ∈ operands, ∀ input, Throughout P input → Lands (Throughout P) F (w.eval levels e input) := by
        intro e he input hin
        apply ih e hin
        intro name span' hcontains
        exact hname name span' (Expr.contains_operand he hcontains)
      exact (c.merge_composes (composes_throughout P F) (fun e he input hin => ⟨rfl, hoperand e he input hin⟩) hin).2

end Walk
end YamlQuery.Path
