import YamlQuery.Proofs.Document.Chain
import YamlQuery.Proofs.Document.Edits
import YamlQuery.Proofs.Path.Evaluation
import YamlQuery.Proofs.Path.Levels
/-!
The walk down a document through its aliases, and the limit that stops it. The walk to all descendants fails under every
limit where it can come back to a node or runs into a loop of aliases, and anywhere else it is never stopped by a limit
of more than twice the size of the document.
-/
namespace YamlQuery
open Relation YamlQuery.Path

namespace Document

def Refers (d : Document) (a b : NodeId) : Prop := ∃ name, d.aliasName? a = some name ∧ d.lookupAnchor? name = some b

def EndsAt (d : Document) (a t : NodeId) : Prop := ReflTransGen d.Refers a t ∧ d.aliasName? t = none

def Loops (d : Document) (a : NodeId) : Prop := ∃ b, ReflTransGen d.Refers a b ∧ TransGen d.Refers b b

def Below (d : Document) (a t : NodeId) : Prop := ∃ child ∈ d.children a, d.EndsAt child t

/-- The walk down from `start` can come to a node that lies below itself, or to one with a child whose aliases loop. -/
def Endless (d : Document) (start : NodeId) : Prop :=
  ∃ n, ReflTransGen d.Below start n ∧ (TransGen d.Below n n ∨ ∃ child ∈ d.children n, d.Loops child)

variable {d : Document} {a b t : NodeId}

theorem refers_unique (h : d.Refers a b) (h' : d.Refers a t) : b = t := by
  obtain ⟨name, hname, hl⟩ := h
  obtain ⟨name', hname', hl'⟩ := h'
  rw [hname, Option.some.injEq] at hname'
  rw [← hname', hl, Option.some.injEq] at hl'
  exact hl'

theorem refers_lt (h : d.Refers a b) : a < d.size := by
  obtain ⟨name, hname, _⟩ := h
  obtain ⟨c, hc, _⟩ := Option.bind_eq_some_iff.1 hname
  obtain ⟨n, hn, _⟩ := Option.map_eq_some_iff.1 hc
  exact node?_lt hn

theorem not_refers_of_none (h : d.aliasName? a = none) : ¬d.Refers a b := by
  rintro ⟨name, hname, _⟩
  simp [h] at hname

theorem EndsAt.of_refers (h : d.EndsAt a t) (hb : d.Refers a b) : d.EndsAt b t := by
  obtain ⟨hchain, ht⟩ := h
  rcases ReflTransGen.cases_head hchain with rfl | ⟨c, hc, hrest⟩
  · exact absurd hb (not_refers_of_none ht)
  · rw [refers_unique hb hc]
    exact ⟨hrest, ht⟩

theorem EndsAt.of_chain (h : d.EndsAt a t) (hb : ReflTransGen d.Refers a b) : d.EndsAt b t := by
  induction hb with
  | refl => exact h
  | tail _ hstep ih => exact ih.of_refers hstep

theorem EndsAt.not_cycle (h : d.EndsAt a t) : ¬TransGen d.Refers a a := by
  obtain ⟨hchain, ht⟩ := h
  induction hchain using ReflTransGen.head_induction_on with
  | refl =>
    intro hcycle
    obtain ⟨b, hb, _⟩ := TransGen.head'_iff.1 hcycle
    exact not_refers_of_none ht hb
  | head hstep _ ih =>
    intro hcycle
    obtain ⟨b, hb, hrest⟩ := TransGen.head'_iff.1 hcycle
    rw [refers_unique hb hstep] at hrest
    exact ih (TransGen.tail' hrest hstep)

theorem EndsAt.not_loops (h : d.EndsAt a t) : ¬d.Loops a := by
  rintro ⟨b, hb, hcycle⟩
  exact (h.of_chain hb).not_cycle hcycle

theorem EndsAt.unique {t' : NodeId} (h : d.EndsAt a t) (h' : d.EndsAt a t') : t = t' := by
  obtain ⟨hchain, ht⟩ := h'.of_chain h.1
  rcases ReflTransGen.cases_head hchain with he | ⟨c, hc, _⟩
  · exact he
  · exact absurd hc (not_refers_of_none h.2)

theorem within_of_not_loops (h : ¬d.Loops a) : Within d.Refers d.size a :=
  within_of_acyclic (fun _ _ => refers_lt) fun b hb hcycle => h ⟨b, hb, hcycle⟩

theorem below_lt (h : d.Below a t) : a < d.size := by
  obtain ⟨child, hchild, _⟩ := h
  cases hn : d.node? a with
  | none => simp [children, content?, hn] at hchild
  | some n => exact node?_lt hn

theorem Endless.cases (h : d.Endless a) :
    ∃ child ∈ d.children a, d.Loops child ∨ ∃ t, d.EndsAt child t ∧ d.Endless t := by
  obtain ⟨n, hn, hbad⟩ := h
  rcases ReflTransGen.cases_head hn with rfl | ⟨b, ⟨child, hchild, hends⟩, hrest⟩
  · rcases hbad with hcycle | ⟨child, hchild, hloop⟩
    · obtain ⟨b, ⟨child, hchild, hends⟩, hrest⟩ := TransGen.head'_iff.1 hcycle
      exact ⟨child, hchild, .inr ⟨b, hends, a, hrest, .inl hcycle⟩⟩
    · exact ⟨child, hchild, .inl hloop⟩
  · exact ⟨child, hchild, .inr ⟨b, hends, n, hrest, hbad⟩⟩

theorem not_endless_below (h : ¬d.Endless a) (hb : d.Below a b) : ¬d.Endless b := by
  rintro ⟨n, hn, hbad⟩
  exact h ⟨n, hn.head hb, hbad⟩

theorem not_loops_child (h : ¬d.Endless a) (hb : b ∈ d.children a) : ¬d.Loops b := by
  intro hloop
  exact h ⟨a, .refl, .inr ⟨b, hb, hloop⟩⟩

theorem within_of_not_endless (h : ¬d.Endless a) : Within d.Below d.size a :=
  within_of_acyclic (fun _ _ => below_lt) fun b hb hcycle => h ⟨b, hb, .inl hcycle⟩

end Document

namespace Path

variable {α β : Type}

theorem exceeded_bind {x : Except EvalError α} {f : α → Except EvalError β} (h : Exceeded (x >>= f)) :
    Exceeded x ∨ ∃ a, x = .ok a ∧ Exceeded (f a) := by
  cases x with
  | error e => exact .inl (by simpa [Exceeded, bind, Except.bind] using h)
  | ok a => exact .inr ⟨a, rfl, h⟩

namespace Walk
open Document
variable {w : Walk} {d : Document} {id t : NodeId} {levels : Nat}

theorem collect_exceeded {f : α → Result} {as : List α} (h : Exceeded (collect f as)) : ∃ a ∈ as, Exceeded (f a) := by
  obtain ⟨limit, hlimit⟩ := h
  obtain ⟨a, ha, hfa⟩ := collect_eq_error hlimit
  exact ⟨a, ha, limit, hfa⟩

/-- What one level does at a node. -/
theorem resolve_succ (hf : w.options.followAliases = true) (levels : Nat) (id : NodeId) :
    (w.doc.aliasName? id = none ∧ w.resolve (levels + 1) id = .ok id) ∨
      (∃ name, w.resolve (levels + 1) id = .error (.unresolvedAlias name)) ∨
      ∃ target, w.doc.Refers id target ∧ w.resolve (levels + 1) id = w.resolve levels target := by
  cases hname : w.doc.aliasName? id with
  | none => exact .inl ⟨rfl, resolve_arrived hname⟩
  | some name =>
    cases hl : w.doc.lookupAnchor? name with
    | none => exact .inr (.inl ⟨name, resolve_unresolved hf hname hl⟩)
    | some target => exact .inr (.inr ⟨target, ⟨name, hname, hl⟩, resolve_hop hf hname hl⟩)

theorem resolve_endsAt (hf : w.options.followAliases = true) (h : w.resolve levels id = .ok t) : w.doc.EndsAt id t := by
  induction levels generalizing id with
  | zero =>
    cases hname : w.doc.aliasName? id with
    | none =>
      rw [resolve_arrived hname, Except.ok.injEq] at h
      exact ⟨h ▸ .refl, h ▸ hname⟩
    | some name =>
      rw [resolve_tooDeep hf hname] at h
      simp [tooDeep] at h
  | succ n ih =>
    rcases resolve_succ hf n id with ⟨hname, hr⟩ | ⟨name, hr⟩ | ⟨target, htarget, hr⟩ <;> rw [hr] at h
    · rw [Except.ok.injEq] at h
      exact ⟨h ▸ .refl, h ▸ hname⟩
    · simp at h
    · obtain ⟨hchain, ht⟩ := ih h
      exact ⟨.head htarget hchain, ht⟩

/-- One level more than there are hops is enough. -/
theorem resolve_within (hf : w.options.followAliases = true) {n : Nat} (h : Within w.doc.Refers n id)
    (hle : n < levels) : ¬Exceeded (w.resolve levels id) := by
  induction levels generalizing n id with
  | zero => omega
  | succ levels ih =>
    rcases resolve_succ hf levels id with ⟨_, hr⟩ | ⟨name, hr⟩ | ⟨target, htarget, hr⟩ <;> rw [hr]
    · exact not_exceeded_ok id
    · exact not_exceeded_unresolved name
    · cases n with
      | zero => exact absurd htarget (h target)
      | succ n => exact ih (h target htarget) (by omega)

theorem descendants_endless (hf : w.options.followAliases = true) (h : w.doc.Endless id) {found : List NodeId} :
    w.descendants levels id ≠ .ok found := by
  induction levels generalizing id found with
  | zero => simp [descendants, tooDeep]
  | succ n ih =>
    intro hok
    -- some child loops or leads to an endless walk again, and the result of this level needs that of each child
    obtain ⟨child, hchild, hbad⟩ := h.cases
    obtain ⟨here, hhere⟩ := collect_eq_ok hok child hchild
    obtain ⟨target, htarget, hrest⟩ := Outcome.bind_eq_ok.1 hhere
    obtain ⟨under, hunder, _⟩ := Outcome.bind_eq_ok.1 hrest
    have hends := resolve_endsAt hf htarget
    rcases hbad with hloop | ⟨t, ht, hendless⟩
    · exact hends.not_loops hloop
    · rw [hends.unique ht] at hunder
      exact ih hendless hunder

/-- A walk with an end needs a level for each of its steps, and as many as there may be aliases in a row. -/
theorem descendants_within (hf : w.options.followAliases = true) {n : Nat} (h : Within w.doc.Below n id)
    (hend : ¬w.doc.Endless id) (hle : n + w.doc.size < levels) : ¬Exceeded (w.descendants levels id) := by
  induction levels generalizing n id with
  | zero => omega
  | succ levels ih =>
    intro hexceeded
    obtain ⟨child, hchild, hhere⟩ := collect_exceeded hexceeded
    rcases exceeded_bind hhere with hresolve | ⟨target, htarget, hrest⟩
    · have hchain := within_of_not_loops (not_loops_child hend hchild)
      exact resolve_within hf hchain (by omega) hresolve
    · have hbelow : w.doc.Below id target := ⟨child, hchild, resolve_endsAt hf htarget⟩
      rcases exceeded_bind hrest with hunder | ⟨under, _, hpure⟩
      · cases n with
        | zero => exact h target hbelow
        | succ n => exact ih (h target hbelow) (not_endless_below hend hbelow) (by omega) hunder
      · exact not_exceeded_ok _ hpure

end Walk

namespace Expr

theorem execute_everyDescendant (d : Document) (start : NodeId) (span : Span) (limit : Nat) :
    (step .everyDescendant span).execute d start ⟨true, limit⟩ =
      (Walk.descendants ⟨d, ⟨true, limit⟩⟩ limit start).map (start :: ·) :=
  Walk.collect_singleton (fun id => (Walk.descendants ⟨d, ⟨true, limit⟩⟩ limit id).map (id :: ·)) start

/-- Following aliases comes to an end under every limit. The walk to all descendants fails under each where it is endless,
and where it is not no limit of more than twice the size of the document stops it. -/
theorem everyDescendant_limited (d : Document) :
    (∀ (e : Expr) (start : NodeId) (limit : Nat) (r : Walk.Result),
      Evaluates ⟨d, ⟨true, limit⟩⟩ 0 e [start] r ↔ r = e.execute d start ⟨true, limit⟩) ∧
    ∀ (start : NodeId) (span : Span),
      (d.Endless start → ∀ limit, ∃ error, (step .everyDescendant span).execute d start ⟨true, limit⟩ = .error error) ∧
      (¬d.Endless start → ∀ limit, 2 * d.size < limit →
        ∀ n, (step .everyDescendant span).execute d start ⟨true, limit⟩ ≠ .error (.depthExceeded n)) := by
  refine ⟨fun e start limit r => evaluates_iff_execute, fun start span => ⟨?_, ?_⟩⟩
  · intro hendless limit
    rw [execute_everyDescendant]
    cases hr : Walk.descendants ⟨d, ⟨true, limit⟩⟩ limit start with
    | error e => exact ⟨e, rfl⟩
    | ok found => exact absurd hr (Walk.descendants_endless rfl hendless)
  · intro hend limit hlimit n
    rw [execute_everyDescendant]
    cases hr : Walk.descendants ⟨d, ⟨true, limit⟩⟩ limit start with
    | error e =>
      intro he
      have hwithin := Document.within_of_not_endless hend
      have hnot := Walk.descendants_within (w := ⟨d, ⟨true, limit⟩⟩) rfl hwithin hend (show d.size + d.size < limit by omega)
      exact hnot ⟨n, hr.trans he⟩
    | ok found => simp [Except.map]

/-- A mapping that holds an alias of itself, and a list of a scalar and its alias. -/
theorem everyDescendant_limited_self_or_shared :
    let self : Document := {
      nodes := #[{ content := .scalar "again" .plain }, { content := .reference "top" },
        { content := .mapping [(0, 1)], anchor := some "top" }]
      anchors := ⟨[("top", 2)]⟩ }
    let shared : Document := {
      nodes := #[{ content := .sequence [1, 2] }, { content := .scalar "x" .plain, anchor := some "a" },
        { content := .reference "a" }]
      anchors := ⟨[("a", 1)]⟩ }
    self.Endless 2 ∧ (∀ limit, ∃ error, (step .everyDescendant {}).execute self 2 ⟨true, limit⟩ = .error error) ∧
      ¬shared.Endless 0 ∧
      ∀ limit, 6 < limit → ∀ n, (step .everyDescendant {}).execute shared 0 ⟨true, limit⟩ ≠ .error (.depthExceeded n) := by
  intro self shared
  have hself : self.Endless 2 := by
    have hends : self.EndsAt 1 2 := ⟨.single ⟨"top", rfl, rfl⟩, rfl⟩
    exact ⟨2, .refl, .inl (.single ⟨1, by decide, hends⟩)⟩
  have hshared : ¬shared.Endless 0 := by
    have hends : ∀ n, ∀ child ∈ shared.children n, n = 0 ∧ shared.EndsAt child 1 := by
      intro n child hchild
      match n with
      | 0 =>
        have hmem : child ∈ [1, 2] := hchild
        obtain rfl | rfl : child = 1 ∨ child = 2 := by simpa using hmem
        · exact ⟨rfl, .refl, rfl⟩
        · exact ⟨rfl, .single ⟨"a", rfl, rfl⟩, rfl⟩
      | 1 | 2 | n + 3 => exact nomatch hchild
    rintro ⟨n, _, hcycle | ⟨child, hchild, hloop⟩⟩
    · obtain ⟨_, ⟨first, hfirst, _⟩, _⟩ := TransGen.head'_iff.1 hcycle
      obtain ⟨_, _, last, hlast, ht⟩ := TransGen.tail'_iff.1 hcycle
      have hone := ht.unique (hends _ last hlast).2
      have hzero := (hends _ first hfirst).1
      rw [hzero] at hone
      exact nomatch hone
    · exact (hends n child hchild).2.not_loops hloop
  exact ⟨hself, ((everyDescendant_limited self).2 2 {}).1 hself, hshared, ((everyDescendant_limited shared).2 0 {}).2 hshared⟩

end Expr
end Path
end YamlQuery
