import Mathlib.Order.Basic
import YamlQuery.Document.Read
import YamlQuery.Proofs.Outcome
import YamlQuery.Proofs.Path.Merging
/-!
Absolute expressions begin at the root wherever they are evaluated. The nodes they are given make no difference, as long as
there is one.
-/
namespace YamlQuery.Path

namespace Expr

/-- The root step comes first, in every operand that is given the input of the whole. -/
inductive Absolute : Expr → Prop
  | root (span : Span) : Absolute (.step .root span)
  | chain {first : Expr} (rest : List Expr) (span : Span) (h : Absolute first) : Absolute (.join .chain (first :: rest) span)
  | beside {c : Combinator} {operands : List Expr} (span : Span) (hc : c ≠ .chain) (h : ∀ e ∈ operands, Absolute e) :
    Absolute (.join c operands span)

end Expr

variable {e : Expr} {xs ys : List NodeId}

namespace Walk

/-- A chain gives its own input to its first operand only, so no operand that is absolute sees an empty list. -/
theorem eval_absolute (w : Walk) (levels : Nat) (h : e.Absolute) (hxs : xs ≠ []) (hys : ys ≠ []) :
    w.eval levels e xs = w.eval levels e ys := by
  induction h generalizing levels with
  | root span =>
    cases levels with
    | zero => rfl
    | succ levels => simp [eval, step, hxs, hys]
  | @chain first rest span _ ih =>
    cases levels with
    | zero => rfl
    | succ levels =>
      simp only [eval, Combinator.merge]
      rw [Combinator.thread_cons _ _ _ hxs, Combinator.thread_cons _ _ _ hys, ih levels]
  | beside span hc _ ih =>
    cases levels with
    | zero => rfl
    | succ levels => exact Combinator.merge_congr hc fun e he => ih e he levels

end Walk

namespace Expr

/-- Where the evaluation of an absolute expression starts makes no difference to its results or its error. -/
theorem execute_absolute (h : e.Absolute) (d : Document) (options : EvalOptions) (start other : NodeId) :
    e.execute d start options = e.execute d other options :=
  Walk.eval_absolute ⟨d, options⟩ (options.maxDepth + 1) h (List.cons_ne_nil _ _) (List.cons_ne_nil _ _)

/-- From a list and from a scalar inside of another: the items of the first, and an error if two levels are too many. -/
theorem execute_absolute_items : ∃ d, Document.read "a: [1, 2]\nb: {c: 3}\n" = .ok d ∧
    let key (text : String) : Expr := .step (.mapKey (.simple text)) {}
    let items : Expr := .join .chain [.step .root {}, key "a", .step .everyChild {}] {}
    let nothing : Expr := .join .chain [.step .root {}, key "c"] {}
    let e : Expr := .join .multi [.join .or [nothing, items] {}, .join .and [items, .step .root {}] {}] {}
    e.Absolute ∧ e.execute d 2 {} = .ok [3, 4, 0] ∧ e.execute d 2 {} = e.execute d 8 {} ∧
      e.execute d 2 ⟨true, 2⟩ = .error (.depthExceeded 2) ∧ e.execute d 2 ⟨true, 2⟩ = e.execute d 8 ⟨true, 2⟩ := by
  let key (text : String) : Expr := .step (.mapKey (.simple text)) {}
  let items : Expr := .join .chain [.step .root {}, key "a", .step .everyChild {}] {}
  let nothing : Expr := .join .chain [.step .root {}, key "c"] {}
  let e : Expr := .join .multi [.join .or [nothing, items] {}, .join .and [items, .step .root {}] {}] {}
  have hfacts : (Document.read "a: [1, 2]\nb: {c: 3}\n").toOption.map (fun d => (e.execute d 2 {}, e.execute d 2 ⟨true, 2⟩)) =
      some (.ok [3, 4, 0], .error (.depthExceeded 2)) := by decide +kernel
  obtain ⟨d, hd, hfacts⟩ := Option.map_eq_some_iff.1 hfacts
  simp only [Prod.mk.injEq] at hfacts
  have hitems : items.Absolute := .chain _ _ (.root _)
  have hnothing : nothing.Absolute := .chain _ _ (.root _)
  have hor : (Expr.join .or [nothing, items] {}).Absolute := .beside _ (by decide) (by simp [hitems, hnothing])
  have hand : (Expr.join .and [items, .step .root {}] {}).Absolute :=
    .beside _ (by decide) (by simpa using ⟨hitems, .root _⟩)
  have he : e.Absolute := .beside _ (by decide) (by simp [hor, hand])
  exact ⟨d, Outcome.eq_ok_of_toOption hd, he, hfacts.1, execute_absolute he d _ 2 8, hfacts.2, execute_absolute he d _ 2 8⟩

end Expr
end YamlQuery.Path
