import YamlQuery.Proofs.Document.Grounding
import YamlQuery.Proofs.Path.Downward
import YamlQuery.Proofs.Path.Evaluation
import YamlQuery.Proofs.Path.Levels
/-!
Down and back. In a loaded document the children of a node have it as their parent, so a step down and one to the parent
end where they began, as many times as the step down finds something.
-/
namespace YamlQuery
open YamlQuery.Path

theorem Document.Owned.parent_of_child {d : Document} {free : List NodeId} {id c : NodeId} (h : d.Owned free)
    (hc : c ∈ d.children id) : d.parent? c = some id :=
  (h.parent_iff c id).2 (mem_members_of_children hc)

namespace Path.Walk
variable {w : Walk} {s : Step} {levels : Nat} {xs : List NodeId} {span span' span'' : Span}

theorem resolveAll_kept (hf : w.options.followAliases = false) (ids : List NodeId) : w.resolveAll levels ids = .ok ids := by
  have hsingle : ∀ id ∈ ids, (w.resolve levels id).map ([·]) = .ok [id] := by
    intro id _
    rw [resolve_kept hf]
    rfl
  rw [resolveAll, collect_ok hsingle, List.flatMap_singleton']

/-- Without following aliases a step down finds the children that it selects. -/
theorem eval_downward (hf : w.options.followAliases = false) (hs : s.isDownward = true) (levels : Nat) (xs : List NodeId) :
    w.eval (levels + 1) (.step s span) xs = .ok (xs.flatMap (w.selected s)) := by
  rw [eval, step_of_isDownward hs, resolveAll_kept hf]

theorem filterMap_parent_selected {free : List NodeId} (h : w.doc.Owned free) (s : Step) (id : NodeId) :
    (w.selected s id).filterMap w.doc.parent? = List.replicate (w.selected s id).length id := by
  have hparent : ∀ c ∈ w.selected s id, w.doc.parent? c = some id := fun c hc =>
    h.parent_of_child (mem_children_of_selected hc)
  rw [List.filterMap_congr hparent]
  simp

theorem eval_down_parent (hf : w.options.followAliases = false) (hs : s.isDownward = true) (levels : Nat)
    (xs : List NodeId) : w.eval (levels + 2) (.join .chain [.step s span, .step .parent span'] span'') xs =
      .ok ((xs.flatMap (w.selected s)).filterMap w.doc.parent?) := by
  have hdown : w.eval (levels + 1) (.step s span) xs = .ok (xs.flatMap (w.selected s)) := eval_downward hf hs levels xs
  -- A chain stops before a step with nothing to start from, which would have found nothing.
  change Combinator.thread (w.eval (levels + 1)) xs [.step s span, .step .parent span'] = _
  by_cases hxs : xs = []
  · subst hxs
    rfl
  · rw [Combinator.thread_cons _ _ _ hxs, hdown, Outcome.bind_ok]
    by_cases hmiddle : xs.flatMap (w.selected s) = []
    · rw [hmiddle]
      rfl
    · rw [Combinator.thread_cons _ _ _ hmiddle]
      rfl

end Path.Walk

namespace Document
variable {d : Document}

/-- In a loaded document, without following aliases, a step down and then to the parent comes back to each node as many
times as the step finds something from it. -/
theorem eval_returning (h : d.Loaded) (limit : Nat) {s : Step} (hs : s.isDownward = true) (xs : List NodeId)
    (span span' span'' : Span) :
    let w : Walk := ⟨d, ⟨false, limit⟩⟩
    let back : Expr := .join .chain [.step s span, .step .parent span'] span''
    ∃ found : NodeId → List NodeId,
      (∀ levels x, w.eval (levels + 1) (.step s span) [x] = .ok (found x)) ∧
      (∀ levels, w.eval (levels + 2) back xs = .ok (xs.flatMap fun x => List.replicate (found x).length x)) ∧
      ∀ levels r, w.eval levels back xs = .ok r → r = xs.flatMap fun x => List.replicate (found x).length x := by
  intro w back
  have hback : ∀ levels, w.eval (levels + 2) back xs =
      .ok (xs.flatMap fun x => List.replicate (w.selected s x).length x) := by
    intro levels
    calc
      w.eval (levels + 2) back xs = .ok ((xs.flatMap (w.selected s)).filterMap w.doc.parent?) :=
        Walk.eval_down_parent rfl hs levels xs
      _ = .ok (xs.flatMap fun x => (w.selected s x).filterMap w.doc.parent?) := by rw [List.filterMap_flatMap]
      _ = .ok (xs.flatMap fun x => List.replicate (w.selected s x).length x) := by
        simp only [Walk.filterMap_parent_selected (w := w) h.owned s]
  refine ⟨w.selected s, fun levels x => ?_, hback, ?_⟩
  · rw [Walk.eval_downward rfl hs, List.flatMap_singleton]
  · intro levels r hr
    have hupto : Upto (w.eval levels back xs) (w.eval (levels + 2) back xs) :=
      Walk.eval_upto (.refl w) (Nat.le_add_right levels 2) back xs
    rw [hr, hback levels] at hupto
    exact (Except.ok.inj (hupto.eq_of_not_exceeded (not_exceeded_ok r))).symm

/-- Every second item from the last: two of the list, which is given twice, and none of the scalar. -/
theorem eval_returning_slice : ∃ d, read "a: [1, 2, 3]\nb: 4\n" = .ok d ∧
    let w : Walk := ⟨d, ⟨false, 1⟩⟩
    let s : Step := .slice ⟨some (-1), none, -2⟩
    s.isDownward = true ∧ w.eval 1 (.step s {}) [2] = .ok [5, 3] ∧ w.eval 1 (.step s {}) [7] = .ok [] ∧
      w.eval 2 (.join .chain [.step s {}, .step .parent {}] {}) [2, 7, 2] = .ok [2, 2, 2, 2] := by
  let s : Step := .slice ⟨some (-1), none, -2⟩
  have hfacts : (read "a: [1, 2, 3]\nb: 4\n").toOption.map (fun d =>
      (Walk.eval ⟨d, ⟨false, 1⟩⟩ 1 (.step s {}) [2], Walk.eval ⟨d, ⟨false, 1⟩⟩ 1 (.step s {}) [7])) =
      some (.ok [5, 3], .ok []) := by decide +kernel
  obtain ⟨d, hd, hfacts⟩ := Option.map_eq_some_iff.1 hfacts
  simp only [Prod.mk.injEq] at hfacts
  obtain ⟨hlist, hscalar⟩ := hfacts
  have hread := Outcome.eq_ok_of_toOption hd
  obtain ⟨found, hfound, hback, _⟩ := eval_returning (.read hread) 1 (s := s) rfl [2, 7, 2] {} {} {}
  have htwo : found 2 = [5, 3] := Except.ok.inj ((hfound 0 2).symm.trans hlist)
  have hnone : found 7 = [] := Except.ok.inj ((hfound 0 7).symm.trans hscalar)
  have hall := hback 0
  rw [List.flatMap_cons, List.flatMap_cons, List.flatMap_cons, htwo, hnone] at hall
  exact ⟨d, hread, rfl, hlist, hscalar, hall⟩

end Document
end YamlQuery
