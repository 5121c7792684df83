import YamlQuery.Path.Expr
/-!
What an expression contains. A node of the tree is the whole or a node of an operand.
-/
namespace YamlQuery.Path.Expr

def Contains (e part : Expr) : Prop := ∃ n ∈ e.nodes, n.expr = part

mutual

/-- The numbers of a tree in a larger one do not change what it contains. -/
theorem map_expr_nodesFrom (parent : Option Nat) (id : Nat) :
    ∀ e : Expr, (nodesFrom parent id e).map Entry.expr = e.nodes.map Entry.expr
  | step _ _ => rfl
  | join _ es _ => by simp only [nodes, nodesFrom, List.map_cons, map_expr_nodesFromAll _ _ es]

theorem map_expr_nodesFromAll (parent id : Nat) :
    ∀ es : List Expr, (nodesFromAll parent id es).map Entry.expr = es.flatMap fun e => e.nodes.map Entry.expr
  | [] => rfl
  | e :: es => by
    simp only [nodesFromAll, List.map_append, map_expr_nodesFrom _ _ e, map_expr_nodesFromAll _ _ es, List.flatMap_cons]

end

variable {part : Expr} {s : Step} {c : Combinator} {es : List Expr} {span : Span}

theorem contains_iff {e : Expr} : e.Contains part ↔ part ∈ e.nodes.map Entry.expr := List.mem_map.symm

theorem contains_step : (step s span).Contains part ↔ part = step s span := by
  rw [contains_iff, nodes, nodesFrom]
  exact List.mem_singleton

theorem contains_join : (join c es span).Contains part ↔ part = join c es span ∨ ∃ e ∈ es, e.Contains part := by
  simp only [contains_iff]
  rw [nodes, nodesFrom, List.map_cons, map_expr_nodesFromAll, List.mem_cons, List.mem_flatMap]

theorem contains_self (e : Expr) : e.Contains e := by
  cases e with
  | step s span => exact contains_step.2 rfl
  | join c es span => exact contains_join.2 (.inl rfl)

theorem contains_operand {e : Expr} (he : e ∈ es) (h : e.Contains part) : (join c es span).Contains part :=
  contains_join.2 (.inr ⟨e, he, h⟩)

end YamlQuery.Path.Expr
