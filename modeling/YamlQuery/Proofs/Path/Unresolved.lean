import YamlQuery.Proofs.Document.Grounding
import YamlQuery.Proofs.Path.Landing
/-!
Broken aliases. Navigation in a loaded document meets none, so an evaluation fails on a name only at a step that names it.
-/
namespace YamlQuery
open YamlQuery.Path

namespace Path.Walk
variable {w : Walk} {F : EvalError → Prop}

theorem resolve_grounded (h : w.doc.Grounded) (hdeep : F (.depthExceeded w.options.maxDepth)) (levels : Nat) (id : NodeId) :
    Lands (fun _ => True) F (w.resolve levels id) := by
  apply resolve_lands hdeep (fun _ _ _ => trivial) _ levels trivial
  intro id name hname hl
  obtain ⟨target, htarget⟩ := h id name hname
  rw [hl] at htarget
  cases htarget

theorem keeps_grounded (h : w.doc.Grounded) (hdeep : F (.depthExceeded w.options.maxDepth)) :
    w.Keeps (fun _ => True) F where
  root := fun _ _ => trivial
  parent := fun _ _ _ => trivial
  child := fun levels _ c _ => resolve_grounded h hdeep levels c
  anchor := fun levels _ id _ => resolve_grounded h hdeep levels id
  deep := hdeep

end Path.Walk

namespace Document
variable {d : Document}

theorem Named.anchor_ne (h : d.Named) {name : String} (hl : d.lookupAnchor? name = none) (id : NodeId) :
    d.anchor? id ≠ some name := by
  intro hname
  obtain ⟨m, hm⟩ := h.exists_lookup hname
  rw [hl] at hm
  cases hm

/-- In a loaded document an evaluation that fails on a name has come to an alias step with this name, which no node of the
document has. Without alias steps it finds its result or is too deep. -/
theorem execute_unresolved (h : d.Loaded) (e : Expr) (start : NodeId) (options : EvalOptions) :
    (∀ name, e.execute d start options = .error (.unresolvedAlias name) →
      (∃ span, e.Contains (.step (.reference name) span)) ∧ d.lookupAnchor? name = none ∧
        ∀ id, d.anchor? id ≠ some name) ∧
    ((∀ name span, ¬e.Contains (.step (.reference name) span)) →
      (∃ found, e.execute d start options = .ok found) ∨
        e.execute d start options = .error (.depthExceeded options.maxDepth)) := by
  let blamed (error : EvalError) : Prop := error = .depthExceeded options.maxDepth ∨
    ∃ name, error = .unresolvedAlias name ∧ (∃ span, e.Contains (.step (.reference name) span)) ∧
      d.lookupAnchor? name = none
  have hkeeps : Walk.Keeps ⟨d, options⟩ (fun _ => True) blamed := Walk.keeps_grounded h.grounded (.inl rfl)
  have hlands : Lands (Throughout fun _ => True) blamed (e.execute d start options) :=
    Walk.eval_lands hkeeps _ e (fun _ _ => trivial) fun name span hc hl => .inr ⟨name, rfl, ⟨span, hc⟩, hl⟩
  constructor
  · intro name hname
    rw [hname] at hlands
    obtain hdeep | ⟨name', he, hc, hl⟩ := hlands
    · cases hdeep
    · cases he
      exact ⟨hc, hl, h.named.anchor_ne hl⟩
  · intro hnone
    cases hr : e.execute d start options with
    | ok found => exact .inl ⟨found, rfl⟩
    | error error =>
      rw [hr] at hlands
      obtain rfl | ⟨name, _, ⟨span, hc⟩, _⟩ := hlands
      · exact .inr rfl
      · exact absurd hc (hnone name span)

/-- A name that is given twice and one that is not, and a walk that comes to the alias of the first. -/
theorem execute_unresolved_gone : ∃ d, read "a: &n 1\nb: *n\nc: &n 2\n" = .ok d ∧
    let both : Expr := .join .multi [.step (.reference "n") {}, .step (.reference "gone") {}] {}
    let walk : Expr := .step .everyDescendant {}
    both.execute d 0 {} = .error (.unresolvedAlias "gone") ∧
      ((∃ span, both.Contains (.step (.reference "gone") span)) ∧ d.lookupAnchor? "gone" = none ∧
        ∀ id, d.anchor? id ≠ some "gone") ∧
      (∀ name span, ¬walk.Contains (.step (.reference name) span)) ∧
      ((∃ found, walk.execute d 0 {} = .ok found) ∨ walk.execute d 0 {} = .error (.depthExceeded 256)) := by
  have hboth : (read "a: &n 1\nb: *n\nc: &n 2\n").toOption.map (fun d =>
      (Expr.join .multi [.step (.reference "n") {}, .step (.reference "gone") {}] {}).execute d 0 {}) =
      some (.error (.unresolvedAlias "gone")) := by decide +kernel
  obtain ⟨d, hd, hgone⟩ := Option.map_eq_some_iff.1 hboth
  have hread := Outcome.eq_ok_of_toOption hd
  have hwalk : ∀ name span, ¬(Expr.step .everyDescendant {}).Contains (.step (.reference name) span) := by
    simp [Expr.contains_step]
  exact ⟨d, hread, hgone, (execute_unresolved (.read hread) _ 0 {}).1 "gone" hgone, hwalk,
    (execute_unresolved (.read hread) _ 0 {}).2 hwalk⟩

end Document
end YamlQuery
