import YamlQuery.Proofs.Path.SoundTree
/-!
The nodes of a path that parses are a well-formed tree: as a list, by the numbers of parents and children, by the kinds of
nodes, and by their places in the text.
-/
namespace YamlQuery.Path
open Outcome

structure Entry.WellFormed (nodes : List Entry) : Prop where
  preorder : Meets nodes 0 (List.range nodes.length)
  parts : ∀ (i : Nat) (n : Entry), nodes[i]? = some n →
    List.Forall₂ (fun j x => ∃ m : Entry, nodes[j]? = some m ∧ m.expr = x) n.children n.expr.operands
  linked : ∀ i j, (∃ n : Entry, nodes[i]? = some n ∧ j ∈ n.children) ↔
    ∃ n : Entry, nodes[j]? = some n ∧ n.parent = some i
  root : ∀ i n, nodes[i]? = some n → (n.parent = none ↔ i = 0)
  steps : ∀ n ∈ nodes, n.expr.isCombinator = false → n.children = []
  operands : ∀ n ∈ nodes, n.expr.isCombinator = true → 2 ≤ n.children.length
  kinds : ∀ n ∈ nodes, ∀ j ∈ n.children, ∀ m, nodes[j]? = some m → m.expr.kindName ≠ n.expr.kindName
  strides : ∀ n ∈ nodes, ∀ s sp, n.expr = .step (.slice s) sp → s.stride ≠ 0
  keys : ∀ n ∈ nodes, ∀ text key sp, n.expr = .step (.mapKey (.complex text key)) sp → key.root.isSome
  covers : ∀ n ∈ nodes, n.expr.span.start.pos < n.expr.span.stop.pos
  within : ∀ n ∈ nodes, ∀ j ∈ n.children, ∀ m, nodes[j]? = some m →
    n.expr.span.start.pos ≤ m.expr.span.start.pos ∧ m.expr.span.stop.pos ≤ n.expr.span.stop.pos
  ordered : ∀ n ∈ nodes, n.children.Pairwise fun i j => ∀ a b, nodes[i]? = some a → nodes[j]? = some b →
    a.expr.span.stop.pos ≤ b.expr.span.start.pos

namespace Expr
variable {e x : Expr} {c : Combinator}

theorem Sound.operands_row (h : e.Sound) : Row e.span.start.pos e.span.stop.pos e.operands := by
  cases e with
  | step => exact Nat.le_of_lt h.2
  | join => exact h.2.2

/-- All nodes of a sound expression are sound. -/
theorem Sound.nodes (h : e.Sound) : ∀ n ∈ e.nodes, n.expr.Sound :=
  nodes_induction h fun _ hx _ hy => (hx.operands_row.mem hy).2.1

theorem kindName_ne_of_not_joins (h : ¬x.Joins c) : x.kindName ≠ c.kindName := by
  cases x with
  | step s => cases s <;> cases c <;> simp [kindName, Step.kindName, Combinator.kindName]
  | join d =>
    intro hname
    refine h ?_
    show d = c
    cases d <;> cases c <;> simp_all [kindName, Combinator.kindName]

/-- No operand of a sound expression is of the same kind. -/
theorem Sound.kindName_ne (h : e.Sound) (hx : x ∈ e.operands) : x.kindName ≠ e.kindName := by
  cases e with
  | step => cases hx
  | join c es sp => exact kindName_ne_of_not_joins (h.2.1 x hx)

/-- The nodes of a sound expression are well formed. -/
theorem Sound.wellFormed (h : e.Sound) : Entry.WellFormed e.nodes where
  preorder := meets_nodes e
  parts i n hn := (children_nodes hn).imp fun _ _ hx => ⟨_, hx, rfl⟩
  linked i j := by
    constructor
    · rintro ⟨n, hn, hj⟩
      obtain ⟨x, _, hx⟩ := child_nodes hn hj
      exact ⟨_, hx, rfl⟩
    · rintro ⟨n, hn, hi⟩
      rcases parent_nodes hn with ⟨rfl, -⟩ | ⟨m, i', hm, hi', hj, -⟩
      · cases hi
      · obtain rfl : i' = i := Option.some.inj (hi'.symm.trans hi)
        exact ⟨m, hm, hj⟩
  root i n hn := by
    rcases parent_nodes hn with ⟨rfl, rfl⟩ | ⟨m, i', _, hi', _, hlt⟩
    · exact ⟨fun _ => rfl, fun _ => rfl⟩
    · constructor
      · intro hnone
        simp [hnone] at hi'
      · intro hzero
        omega
  steps n hn hstep := by
    obtain ⟨i, hi⟩ := List.mem_iff_getElem?.1 hn
    have hchildren := children_nodes hi
    obtain ⟨s | ⟨c, es, sp⟩, p, children⟩ := n
    · exact List.forall₂_nil_right_iff.1 hchildren
    · cases hstep
  operands n hn hjoin := by
    obtain ⟨i, hi⟩ := List.mem_iff_getElem?.1 hn
    have hlen := (children_nodes hi).length_eq
    have hsound := h.nodes n hn
    obtain ⟨s | ⟨c, es, sp⟩, p, children⟩ := n
    · cases hjoin
    · exact hlen ▸ hsound.1
  kinds n hn j hj m hm := by
    obtain ⟨i, hi⟩ := List.mem_iff_getElem?.1 hn
    obtain ⟨x, hx, hxm⟩ := child_nodes hi hj
    obtain rfl : m = x.entry (some i) j := Option.some.inj (hm.symm.trans hxm)
    exact (h.nodes n hn).kindName_ne hx
  strides n hn s sp hs := by
    have hsound := h.nodes n hn
    rw [hs] at hsound
    exact hsound.1
  keys n hn text key sp hs := by
    have hsound := h.nodes n hn
    rw [hs] at hsound
    exact hsound.1
  covers n hn := (h.nodes n hn).lt
  within n hn j hj m hm := by
    obtain ⟨i, hi⟩ := List.mem_iff_getElem?.1 hn
    obtain ⟨x, hx, hxm⟩ := child_nodes hi hj
    obtain rfl : m = x.entry (some i) j := Option.some.inj (hm.symm.trans hxm)
    obtain ⟨hstart, _, hstop⟩ := (h.nodes n hn).operands_row.mem hx
    exact ⟨hstart, hstop⟩
  ordered n hn := by
    obtain ⟨i, hi⟩ := List.mem_iff_getElem?.1 hn
    obtain ⟨hlen, hget⟩ := List.forall₂_iff_get.1 (children_nodes hi)
    have hpairs := List.pairwise_iff_getElem.1 (h.nodes n hn).operands_row.pairwise
    refine List.pairwise_iff_getElem.2 ?_
    intro j k hj hk hlt a b ha hb
    have hj' : j < n.expr.operands.length := hlen ▸ hj
    have hk' : k < n.expr.operands.length := hlen ▸ hk
    obtain rfl : a = _ := Option.some.inj (ha.symm.trans (hget j hj hj'))
    obtain rfl : b = _ := Option.some.inj (hb.symm.trans (hget k hk hk'))
    exact hpairs j k hj' hk' hlt

end Expr

namespace Parsed

/-- The nodes of every path that parses are well formed. -/
theorem ofBytes_wellFormed {bytes : List UInt8} {p : Parsed} (h : ofBytes bytes = .ok p) : Entry.WellFormed p.expr.nodes :=
  (ofBytes_sound h).wellFormed

/-- A chain with a slice and a group in it, side by side with two indices of one bracket. -/
theorem ofBytes_wellFormed_groups : ∃ p, ofBytes (Utf8.encode "a[1:2]/(b,{c: d}),[0,1]".toList) = .ok p ∧
    (p.expr.nodes.map fun n => (n.expr.kindName, n.parent, n.children)) =
      [("multi", none, [1, 7, 8]), ("chain", some 0, [2, 3, 4]), ("map-key", some 1, []), ("seq-slice", some 1, []),
        ("multi", some 1, [5, 6]), ("map-key", some 4, []), ("map-key", some 4, []), ("seq-index", some 0, []),
        ("seq-index", some 0, [])] ∧
    (p.expr.nodes.map fun n => (n.expr.span.start.pos, n.expr.span.stop.pos)) =
      [(0, 23), (0, 16), (0, 1), (1, 6), (8, 16), (8, 9), (10, 16), (19, 20), (21, 22)] ∧
    Entry.WellFormed p.expr.nodes := by
  have hfacts : (ofBytes (Utf8.encode "a[1:2]/(b,{c: d}),[0,1]".toList)).toOption.map (fun p =>
      (p.expr.nodes.map fun n => (n.expr.kindName, n.parent, n.children),
        p.expr.nodes.map fun n => (n.expr.span.start.pos, n.expr.span.stop.pos))) =
      some ([("multi", none, [1, 7, 8]), ("chain", some 0, [2, 3, 4]), ("map-key", some 1, []), ("seq-slice", some 1, []),
        ("multi", some 1, [5, 6]), ("map-key", some 4, []), ("map-key", some 4, []), ("seq-index", some 0, []),
        ("seq-index", some 0, [])],
        [(0, 23), (0, 16), (0, 1), (1, 6), (8, 16), (8, 9), (10, 16), (19, 20), (21, 22)]) := by decide +kernel
  obtain ⟨p, hp, hfacts⟩ := Option.map_eq_some_iff.1 hfacts
  obtain ⟨hnumbers, hspans⟩ := Prod.mk.inj hfacts
  have hparsed := eq_ok_of_toOption hp
  exact ⟨p, hparsed, hnumbers, hspans, ofBytes_wellFormed hparsed⟩

end Parsed
end YamlQuery.Path
