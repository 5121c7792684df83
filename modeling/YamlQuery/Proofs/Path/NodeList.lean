import Mathlib.Data.List.Forall2
import YamlQuery.Path.Expr
/-!
The nodes of an expression as a list. A walk from the root meets them in the order of the list, and the numbers of parents and
children agree.
-/
namespace YamlQuery.Path

namespace Entry

mutual

inductive Meets (nodes : List Entry) : Nat → List Nat → Prop
  | node {i : Nat} {n : Entry} {js : List Nat} (h : nodes[i]? = some n) (below : MeetsAll nodes n.children js) :
    Meets nodes i (i :: js)

inductive MeetsAll (nodes : List Entry) : List Nat → List Nat → Prop
  | nil : MeetsAll nodes [] []
  | cons {i : Nat} {is js ks : List Nat} (first : Meets nodes i js) (rest : MeetsAll nodes is ks) :
    MeetsAll nodes (i :: is) (js ++ ks)

end

end Entry

namespace Expr

def entry (parent : Option Nat) (id : Nat) (e : Expr) : Entry := ⟨e, parent, numberFrom (id + 1) e.operands⟩

def numbered (parent : Option Nat) (id : Nat) (e : Expr) : List (Entry × Nat) := (nodesFrom parent id e).zipIdx id

def numberedAll (parent id : Nat) (es : List Expr) : List (Entry × Nat) := (nodesFromAll parent id es).zipIdx id

mutual

theorem length_nodesFrom (parent : Option Nat) (id : Nat) : ∀ e : Expr, (nodesFrom parent id e).length = e.size
  | step _ _ => rfl
  | join _ es _ => by rw [nodesFrom, List.length_cons, length_nodesFromAll id (id + 1) es, size]

theorem length_nodesFromAll (parent id : Nat) : ∀ es : List Expr, (nodesFromAll parent id es).length = sizeAll es
  | [] => rfl
  | e :: es => by
    rw [nodesFromAll, List.length_append, length_nodesFrom _ _ e, length_nodesFromAll _ _ es, sizeAll]

end

variable (parent : Option Nat) (p id : Nat) (e : Expr) (es : List Expr)

theorem numbered_eq : e.numbered parent id = (e.entry parent id, id) :: numberedAll id (id + 1) e.operands := by
  cases e <;> rfl

theorem numberedAll_cons : numberedAll p id (e :: es) = e.numbered (some p) id ++ numberedAll p (id + e.size) es := by
  rw [numberedAll, nodesFromAll, List.zipIdx_append, length_nodesFrom]
  rfl

/-- The operands of an expression are numbered as its children. -/
theorem numberedAll_roots :
    List.Forall₂ (fun j x => (entry (some p) j x, j) ∈ numberedAll p id es) (numberFrom id es) es := by
  induction es generalizing id with
  | nil => exact .nil
  | cons e es ih =>
    rw [numberFrom, numberedAll_cons]
    refine .cons ?_ ((ih (id + e.size)).imp fun j x h => List.mem_append_right _ h)
    rw [numbered_eq]
    exact List.mem_append_left _ (List.mem_cons_self ..)

def Lists (l : List (Entry × Nat)) (n : Entry) (i : Nat) : Prop :=
  List.Forall₂ (fun j x => (entry (some i) j x, j) ∈ l) n.children n.expr.operands

variable {parent p id e es} {l l' : List (Entry × Nat)} {n : Entry} {i j : Nat}

theorem Lists.mono (h : Lists l n i) (hl : ∀ x ∈ l, x ∈ l') : Lists l' n i := h.imp fun _ _ hx => hl _ hx

mutual

theorem lists_numbered (parent : Option Nat) (id : Nat) :
    ∀ e : Expr, ∀ x ∈ e.numbered parent id, Lists (e.numbered parent id) x.1 x.2
  | step s sp => by
    intro x hx
    rw [numbered_eq] at hx
    obtain rfl := List.mem_singleton.1 hx
    exact .nil
  | join c es sp => by
    intro x hx
    rw [numbered_eq] at hx ⊢
    rcases List.mem_cons.1 hx with rfl | hx
    · exact Lists.mono (numberedAll_roots id (id + 1) es) fun _ => List.mem_cons_of_mem _
    · exact (lists_numberedAll id (id + 1) es x hx).mono fun _ => List.mem_cons_of_mem _

theorem lists_numberedAll (p id : Nat) :
    ∀ es : List Expr, ∀ x ∈ numberedAll p id es, Lists (numberedAll p id es) x.1 x.2
  | [] => by
    intro x hx
    simp [numberedAll, nodesFromAll] at hx
  | e :: es => by
    intro x hx
    rw [numberedAll_cons] at hx ⊢
    rcases List.mem_append.1 hx with hx | hx
    · exact (lists_numbered (some p) id e x hx).mono fun _ => List.mem_append_left _
    · exact (lists_numberedAll p (id + e.size) es x hx).mono fun _ => List.mem_append_right _

end

def HasParent (l : List (Entry × Nat)) (n : Entry) (j : Nat) : Prop :=
  ∃ m i, (m, i) ∈ l ∧ n.parent = some i ∧ j ∈ m.children ∧ i < j

theorem HasParent.mono (h : HasParent l n j) (hl : ∀ x ∈ l, x ∈ l') : HasParent l' n j := by
  obtain ⟨m, i, hm, h⟩ := h
  exact ⟨m, i, hl _ hm, h⟩

mutual

/-- Only the root of an expression has its parent elsewhere. -/
theorem numbered_hasParent (parent : Option Nat) (id : Nat) : ∀ e : Expr, ∀ x ∈ e.numbered parent id,
    x = (e.entry parent id, id) ∨ HasParent (e.numbered parent id) x.1 x.2
  | step s sp => by
    intro x hx
    exact .inl (List.mem_singleton.1 hx)
  | join c es sp => by
    intro x hx
    rw [numbered_eq] at hx ⊢
    rcases List.mem_cons.1 hx with rfl | hx
    · exact .inl rfl
    · rcases numberedAll_hasParent id (id + 1) es x hx with ⟨hle, hp, hj⟩ | h
      · exact .inr ⟨_, id, List.mem_cons_self .., hp, hj, hle⟩
      · exact .inr (h.mono fun _ => List.mem_cons_of_mem _)

theorem numberedAll_hasParent (p id : Nat) : ∀ es : List Expr, ∀ x ∈ numberedAll p id es,
    (id ≤ x.2 ∧ x.1.parent = some p ∧ x.2 ∈ numberFrom id es) ∨ HasParent (numberedAll p id es) x.1 x.2
  | [] => by
    intro x hx
    simp [numberedAll, nodesFromAll] at hx
  | e :: es => by
    intro x hx
    rw [numberedAll_cons] at hx ⊢
    rcases List.mem_append.1 hx with hx | hx
    · rcases numbered_hasParent (some p) id e x hx with rfl | h
      · exact .inl ⟨Nat.le_refl id, rfl, List.mem_cons_self ..⟩
      · exact .inr (h.mono fun _ => List.mem_append_left _)
    · rcases numberedAll_hasParent p (id + e.size) es x hx with ⟨hle, hp, hj⟩ | h
      · exact .inl ⟨by omega, hp, List.mem_cons_of_mem _ hj⟩
      · exact .inr (h.mono fun _ => List.mem_append_right _)

end

mutual

theorem meets_nodesFrom {nodes : List Entry} (parent : Option Nat) (id : Nat) : ∀ e : Expr,
    (∀ x ∈ e.numbered parent id, nodes[x.2]? = some x.1) → Entry.Meets nodes id (List.range' id e.size)
  | step s sp, h => .node (h _ (List.mem_singleton.2 rfl)) .nil
  | join c es sp, h => by
    rw [numbered_eq] at h
    obtain ⟨hroot, hbelow⟩ := List.forall_mem_cons.1 h
    exact .node hroot (meets_nodesFromAll id (id + 1) es hbelow)

theorem meets_nodesFromAll {nodes : List Entry} (p id : Nat) : ∀ es : List Expr,
    (∀ x ∈ numberedAll p id es, nodes[x.2]? = some x.1) →
      Entry.MeetsAll nodes (numberFrom id es) (List.range' id (sizeAll es))
  | [], _ => .nil
  | e :: es, h => by
    rw [numberedAll_cons] at h
    obtain ⟨hfirst, hrest⟩ := List.forall_mem_append.1 h
    rw [sizeAll, ← List.range'_append_1]
    exact .cons (meets_nodesFrom (some p) id e hfirst) (meets_nodesFromAll p (id + e.size) es hrest)

end

theorem mem_numbered : (n, j) ∈ e.numbered none 0 ↔ e.nodes[j]? = some n := List.mem_zipIdx_iff_getElem?

/-- A walk from the root meets the nodes in the order of the list. -/
theorem meets_nodes (e : Expr) : Entry.Meets e.nodes 0 (List.range e.nodes.length) := by
  rw [nodes, length_nodesFrom, List.range_eq_range']
  exact meets_nodesFrom none 0 e fun x hx => mem_numbered.1 hx

/-- The children of a node are its operands, which have its number for a parent. -/
theorem children_nodes (h : e.nodes[i]? = some n) :
    List.Forall₂ (fun j x => e.nodes[j]? = some (entry (some i) j x)) n.children n.expr.operands :=
  (lists_numbered none 0 e (n, i) (mem_numbered.2 h)).imp fun _ _ hx => mem_numbered.1 hx

theorem child_nodes (h : e.nodes[i]? = some n) (hj : j ∈ n.children) :
    ∃ x ∈ n.expr.operands, e.nodes[j]? = some (entry (some i) j x) := by
  obtain ⟨k, hk, rfl⟩ := List.mem_iff_getElem.1 hj
  obtain ⟨hlen, hget⟩ := List.forall₂_iff_get.1 (children_nodes h)
  exact ⟨_, List.getElem_mem (hlen ▸ hk), hget k hk (hlen ▸ hk)⟩

/-- A node is the root or a child of a node in front of it. -/
theorem parent_nodes (h : e.nodes[j]? = some n) : (n = e.entry none 0 ∧ j = 0) ∨
    ∃ m i, e.nodes[i]? = some m ∧ n.parent = some i ∧ j ∈ m.children ∧ i < j := by
  rcases numbered_hasParent none 0 e (n, j) (mem_numbered.2 h) with hroot | ⟨m, i, hm, hp⟩
  · exact .inl (Prod.mk.inj hroot)
  · exact .inr ⟨m, i, mem_numbered.1 hm, hp⟩

/-- What passes on from an expression to its operands holds of all nodes. -/
theorem nodes_induction {P : Expr → Prop} (h : P e) (below : ∀ x, P x → ∀ y ∈ x.operands, P y) :
    ∀ n ∈ e.nodes, P n.expr := by
  have hall : ∀ (j : Nat) (n : Entry), e.nodes[j]? = some n → P n.expr := by
    intro j
    -- on the number, since the parent of a node stands in front of it
    induction j using Nat.strongRecOn with
    | ind j ih =>
      intro n hn
      rcases parent_nodes hn with ⟨rfl, -⟩ | ⟨m, i, hm, -, hj, hlt⟩
      · exact h
      · obtain ⟨x, hx, hx'⟩ := child_nodes hm hj
        obtain rfl : n = x.entry (some i) j := Option.some.inj (hn.symm.trans hx')
        exact below _ (ih i hlt m hm) x hx
  intro n hn
  obtain ⟨j, hj⟩ := List.mem_iff_getElem?.1 hn
  exact hall j n hj

end Expr
end YamlQuery.Path
