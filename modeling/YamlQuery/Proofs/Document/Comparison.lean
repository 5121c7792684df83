import Mathlib.Data.List.Forall2
import YamlQuery.Document.Equality
import YamlQuery.Proofs.Document.Integrity
/-!
Structural comparison as a relation without a bound on the nesting. It looks at nodes that exist only, and comes to an end
because nothing holds itself.
-/
namespace YamlQuery

def Content.agrees (same : NodeId → NodeId → Bool) : Content → Content → Bool
  | scalar s _, scalar t _ => s == t
  | reference s, reference t => s == t
  | sequence xs, sequence ys => xs.length == ys.length && (xs.zip ys).all fun p => same p.1 p.2
  | mapping xs, mapping ys => xs.length == ys.length && ys.all fun q => xs.any fun p => same p.1 q.1 && same p.2 q.2
  | _, _ => false

def Node.agrees (same : NodeId → NodeId → Bool) (m n : Node) : Bool :=
  (n.tag.isNone || m.tag == n.tag) && m.content.agrees same n.content

theorem all_congr_of_mem {α : Type} {f g : α → Bool} {xs : List α} (h : ∀ x ∈ xs, f x = g x) : xs.all f = xs.all g := by
  rw [Bool.eq_iff_iff, List.all_eq_true, List.all_eq_true]
  exact forall₂_congr fun x hx => by rw [h x hx]

theorem any_congr_of_mem {α : Type} {f g : α → Bool} {xs : List α} (h : ∀ x ∈ xs, f x = g x) : xs.any f = xs.any g := by
  rw [Bool.eq_iff_iff, List.any_eq_true, List.any_eq_true]
  exact exists_congr fun x => and_congr_right fun hx => by rw [h x hx]

namespace Content
variable {R S : NodeId → NodeId → Prop} {same other : NodeId → NodeId → Bool} {c c' c'' : Content}

inductive Agrees (R : NodeId → NodeId → Prop) : Content → Content → Prop
  | scalar {text : String} {s t : ScalarStyle} : Agrees R (.scalar text s) (.scalar text t)
  | reference {name : String} : Agrees R (.reference name) (.reference name)
  | sequence {xs ys : List NodeId} (h : List.Forall₂ R xs ys) : Agrees R (.sequence xs) (.sequence ys)
  | mapping {ps qs : List (NodeId × NodeId)} (hlen : ps.length = qs.length)
    (h : ∀ q ∈ qs, ∃ p ∈ ps, R p.1 q.1 ∧ R p.2 q.2) : Agrees R (.mapping ps) (.mapping qs)

theorem pair_mem_members {ps : List (NodeId × NodeId)} {p : NodeId × NodeId} (hp : p ∈ ps) :
    p.1 ∈ (mapping ps).members ∧ p.2 ∈ (mapping ps).members :=
  ⟨List.mem_flatMap.2 ⟨p, hp, by simp⟩, List.mem_flatMap.2 ⟨p, hp, by simp⟩⟩

theorem agrees_iff : c.agrees same c' = true ↔ Agrees (fun p q => same p q = true) c c' := by
  constructor
  · intro h
    cases c <;> cases c' <;> simp only [agrees, Bool.and_eq_true, beq_iff_eq, Bool.false_eq_true] at h
    case scalar.scalar => exact h ▸ .scalar
    case reference.reference => exact h ▸ .reference
    case sequence.sequence xs ys =>
      refine .sequence (List.forall₂_iff_zip.2 ⟨h.1, ?_⟩)
      exact fun hp => List.all_eq_true.1 h.2 _ hp
    case mapping.mapping ps qs =>
      refine .mapping h.1 ?_
      intro q hq
      obtain ⟨p, hp, hpair⟩ := List.any_eq_true.1 (List.all_eq_true.1 h.2 q hq)
      exact ⟨p, hp, Bool.and_eq_true_iff.1 hpair⟩
  · intro h
    cases h with
    | scalar | reference => simp [agrees]
    | sequence h =>
      obtain ⟨hlen, hzip⟩ := List.forall₂_iff_zip.1 h
      rw [agrees, Bool.and_eq_true, beq_iff_eq, List.all_eq_true]
      exact ⟨hlen, fun p hp => hzip hp⟩
    | mapping hlen h =>
      rw [agrees, Bool.and_eq_true, beq_iff_eq, List.all_eq_true]
      refine ⟨hlen, ?_⟩
      intro q hq
      obtain ⟨p, hp, hkey, hvalue⟩ := h q hq
      exact List.any_eq_true.2 ⟨p, hp, by rw [hkey, hvalue, Bool.and_self]⟩

theorem Agrees.mono (h : Agrees R c c') (hRS : ∀ p ∈ c.members, ∀ q ∈ c'.members, R p q → S p q) : Agrees S c c' := by
  cases h with
  | scalar => exact .scalar
  | reference => exact .reference
  | sequence h =>
    obtain ⟨hlen, hzip⟩ := List.forall₂_iff_zip.1 h
    refine .sequence (List.forall₂_iff_zip.2 ⟨hlen, ?_⟩)
    intro p q hpq
    obtain ⟨hp, hq⟩ := List.of_mem_zip hpq
    exact hRS p hp q hq (hzip hpq)
  | mapping hlen h =>
    refine .mapping hlen ?_
    intro q hq
    obtain ⟨p, hp, hkey, hvalue⟩ := h q hq
    have hpm := pair_mem_members hp
    have hqm := pair_mem_members hq
    exact ⟨p, hp, hRS p.1 hpm.1 q.1 hqm.1 hkey, hRS p.2 hpm.2 q.2 hqm.2 hvalue⟩

theorem agrees_congr (h : ∀ p ∈ c.members, ∀ q ∈ c'.members, same p q = other p q) : c.agrees same c' = c.agrees other c' := by
  rw [Bool.eq_iff_iff, agrees_iff, agrees_iff]
  constructor
  · exact fun hc => hc.mono fun p hp q hq hpq => h p hp q hq ▸ hpq
  · exact fun hc => hc.mono fun p hp q hq hpq => h p hp q hq ▸ hpq

end Content

namespace Node
variable {R S : NodeId → NodeId → Prop} {same : NodeId → NodeId → Bool} {m n : Node}

def Agrees (R : NodeId → NodeId → Prop) (m n : Node) : Prop :=
  (n.tag = none ∨ m.tag = n.tag) ∧ m.content.Agrees R n.content

theorem agrees_iff : m.agrees same n = true ↔ m.Agrees (fun p q => same p q = true) n := by
  rw [agrees, Agrees, Bool.and_eq_true, Content.agrees_iff]
  simp

end Node

namespace Document

inductive Compares (a b : Document) : NodeId → NodeId → Bool → Prop
  | nodes {x y : NodeId} {m n : Node} (hm : a.node? x = some m) (hn : b.node? y = some n) (same : NodeId → NodeId → Bool)
    (h : ∀ p ∈ m.content.members, ∀ q ∈ n.content.members, Compares a b p q (same p q)) :
    Compares a b x y (m.agrees same n)

variable {a b : Document} {x y : NodeId} {k levels : Nat}

theorem equalWithin_succ {m n : Node} (hm : a.node? x = some m) (hn : b.node? y = some n) :
    equalWithin a b (levels + 1) x y = m.agrees (equalWithin a b levels) n := by
  simp only [equalWithin, hm, hn, Node.agrees]
  cases m.content <;> cases n.content <;> rfl

theorem holds_of_node? {m : Node} (hm : a.node? x = some m) {p : NodeId} (hp : p ∈ m.content.members) :
    a.Holds x p := by
  simpa [Holds, members, content?, hm] using hp

theorem Compares.eq_equalWithin {r : Bool} (h : Compares a b x y r) (hk : Within a.Holds k x) (hlt : k < levels) :
    r = equalWithin a b levels x y := by
  induction h generalizing k levels with
  | @nodes x y m n hm hn same _ ih =>
    obtain ⟨l, rfl⟩ : ∃ l, levels = l + 1 := ⟨levels - 1, by omega⟩
    have hsame : ∀ p ∈ m.content.members, ∀ q ∈ n.content.members, same p q = equalWithin a b l p q := by
      intro p hp q hq
      obtain ⟨j, hj, hbelow⟩ := hk.next (holds_of_node? hm hp)
      exact ih p hp q hq hbelow (by omega)
    rw [equalWithin_succ hm hn, Node.agrees, Node.agrees, Content.agrees_congr hsame]

theorem compares_equalWithin (ha : a.Intact) (hb : b.Intact) (hx : x < a.size) (hy : y < b.size)
    (hk : Within a.Holds k x) (hlt : k < levels) : Compares a b x y (equalWithin a b levels x y) := by
  induction levels generalizing k x y with
  | zero => omega
  | succ levels ih =>
    obtain ⟨m, hm⟩ : ∃ m, a.node? x = some m := ⟨_, Array.getElem?_eq_getElem hx⟩
    obtain ⟨n, hn⟩ : ∃ n, b.node? y = some n := ⟨_, Array.getElem?_eq_getElem hy⟩
    rw [equalWithin_succ hm hn]
    apply Compares.nodes hm hn
    intro p hp q hq
    have hholds := holds_of_node? hm hp
    have hheld := holds_of_node? hn hq
    obtain ⟨j, hj, hbelow⟩ := hk.next hholds
    exact ih (ha.member_lt x p hholds) (hb.member_lt y q hheld) hbelow (by omega)

/-- Comparing two nodes of documents in order comes to an end, with the answer of structural equality. -/
theorem compares_iff_nodesEqual (ha : a.Intact) (hb : b.Intact) (hx : x < a.size) (hy : y < b.size) {r : Bool} :
    Compares a b x y r ↔ r = a.nodesEqual x b y := by
  have hwithin := ha.within_holds x
  constructor
  · intro h
    exact h.eq_equalWithin hwithin (Nat.lt_succ_self _)
  · rintro rfl
    exact compares_equalWithin ha hb hx hy hwithin (Nat.lt_succ_self _)

/-- What a node takes over from those that it holds is true of all. -/
theorem Intact.holds_induction {motive : NodeId → Prop} (h : a.Intact)
    (step : ∀ x, (∀ p, a.Holds x p → motive p) → motive x) (x : NodeId) : motive x :=
  (h.within_holds x).induction step

/-- More levels than the longest chain of containment change no answer. -/
theorem equalWithin_levels {more : Nat} (hk : Within a.Holds k x) (hlt : k < levels) (hmore : k < more) :
    equalWithin a b levels x y = equalWithin a b more x y := by
  induction levels generalizing k x y more with
  | zero => omega
  | succ levels ih =>
    obtain ⟨more, rfl⟩ : ∃ l, more = l + 1 := ⟨more - 1, by omega⟩
    cases hm : a.node? x with
    | none => simp only [equalWithin, hm]
    | some m =>
      cases hn : b.node? y with
      | none => simp only [equalWithin, hm, hn]
      | some n =>
        rw [equalWithin_succ hm hn, equalWithin_succ hm hn, Node.agrees, Node.agrees, Content.agrees_congr]
        intro p hp q _
        obtain ⟨j, hj, hp⟩ := hk.next (holds_of_node? hm hp)
        exact ih hp (by omega) (by omega)

/-- Structural equality looks at two nodes, and at structural equality of what they hold. -/
theorem Intact.nodesEqual_iff (ha : a.Intact) : a.nodesEqual x b y = true ↔
    ∃ m n, a.node? x = some m ∧ b.node? y = some n ∧ m.Agrees (fun p q => a.nodesEqual p b q = true) n := by
  cases hm : a.node? x with
  | none => simp [nodesEqual, equalWithin, hm]
  | some m =>
    cases hn : b.node? y with
    | none => simp [nodesEqual, equalWithin, hm, hn]
    | some n =>
      have hsame : m.agrees (equalWithin a b a.size) n = m.agrees (fun p q => a.nodesEqual p b q) n := by
        rw [Node.agrees, Node.agrees, Content.agrees_congr]
        intro p hp q _
        obtain ⟨k, hk, hp⟩ := (ha.within_holds x).next (holds_of_node? hm hp)
        exact equalWithin_levels hp hk (Nat.lt_succ_of_lt hk)
      rw [nodesEqual, equalWithin_succ hm hn, hsame, Node.agrees_iff]
      simp

end Document
end YamlQuery
