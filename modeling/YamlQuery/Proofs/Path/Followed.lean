import YamlQuery.Proofs.Document.Integrity
import YamlQuery.Proofs.Path.Descent
import YamlQuery.Proofs.Path.Landing
/-!
Following aliases. Whatever an evaluation finds, and every list of nodes that it passes on between the parts of an
expression, is without aliases.
-/
namespace YamlQuery
open YamlQuery.Path

namespace Path

namespace Combinator
variable {γ : Type} {f g : γ → List NodeId → Walk.Result} {operands : List γ} {input : List NodeId}

/-- The lists that a combinator gives to its operands: in a chain what the operands before find, in another combinator the
input of the whole. -/
inductive Feeds (f : γ → List NodeId → Walk.Result) (operands : List γ) (input : List NodeId) :
    Combinator → γ → List NodeId → Prop
  | behind {before after : List γ} {e : γ} {middle : List NodeId} (ho : operands = before ++ e :: after)
    (hm : thread f input before = .ok middle) : Feeds f operands input .chain e middle
  | beside {c : Combinator} {e : γ} (hc : c ≠ .chain) (he : e ∈ operands) : Feeds f operands input c e input

theorem thread_congr (h : ∀ before e after middle, operands = before ++ e :: after →
    thread f input before = .ok middle → f e middle = g e middle) : thread f input operands = thread g input operands := by
  induction operands generalizing input with
  | nil => rfl
  | cons e es ih =>
    by_cases hempty : input = []
    · rw [hempty, thread_nil, thread_nil]
    · rw [thread_cons f e es hempty, thread_cons g e es hempty, ← h [] e es input rfl rfl]
      cases hhere : f e input with
      | error => rfl
      | ok here =>
        apply ih
        intro before d after middle hes hmiddle
        apply h (e :: before) d after middle (by rw [hes, List.cons_append])
        rw [thread_cons f e before hempty, hhere]
        exact hmiddle

/-- What operands do on lists that they are not given makes no difference. -/
theorem merge_eq_of_feeds (c : Combinator) (h : ∀ e middle, Feeds f operands input c e middle → f e middle = g e middle) :
    c.merge operands input f = c.merge operands input g := by
  by_cases hc : c = .chain
  · subst hc
    exact thread_congr fun before e after middle ho hm => h e middle (.behind ho hm)
  · exact merge_congr hc fun e he => h e input (.beside hc he)

end Combinator

namespace Walk
variable {w : Walk} {P : NodeId → Prop} {levels : Nat} {e : Expr} {input : List NodeId}

/-- The lists of nodes that an evaluation passes on: those given to the expression and its parts, and those they find. -/
inductive Passes (w : Walk) : Nat → Expr → List NodeId → List NodeId → Prop
  | given {levels : Nat} {e : Expr} {input : List NodeId} : Passes w levels e input input
  | found {levels : Nat} {e : Expr} {input found : List NodeId} (h : w.eval levels e input = .ok found) :
    Passes w levels e input found
  | operand {levels : Nat} {c : Combinator} {operands : List Expr} {e : Expr} {span : Span}
    {input middle passed : List NodeId} (hf : c.Feeds (w.eval levels) operands input e middle)
    (h : Passes w levels e middle passed) : Passes w (levels + 1) (.join c operands span) input passed

theorem eval_throughout (h : w.Keeps P fun _ => True) (levels : Nat) (e : Expr) (hin : Throughout P input) :
    Lands (Throughout P) (fun _ => True) (w.eval levels e input) :=
  eval_lands h levels e hin fun _ _ _ _ => trivial

theorem feeds_throughout (h : w.Keeps P fun _ => True) {c : Combinator} {operands : List Expr} (hin : Throughout P input)
    {middle : List NodeId} (hf : c.Feeds (w.eval levels) operands input e middle) : Throughout P middle := by
  cases hf with
  | @behind before after e middle ho hm =>
    have hlands : Lands (Throughout P) (fun _ => True) (Combinator.thread (w.eval levels) input before) :=
      (Combinator.thread_composes (composes_throughout P _) (fun e _ input hin =>
        ⟨rfl, eval_throughout h levels e hin⟩) hin).2
    rwa [hm] at hlands
  | beside => exact hin

theorem Passes.throughout (h : w.Keeps P fun _ => True) {passed : List NodeId} (hp : w.Passes levels e input passed)
    (hin : Throughout P input) : Throughout P passed := by
  induction hp with
  | given => exact hin
  | @found levels e input found hfound =>
    have hlands := eval_throughout h levels e hin
    rwa [hfound] at hlands
  | operand hf _ ih => exact ih (feeds_throughout h hin hf)

end Walk
end Path

namespace Document
variable {d : Document} {id : NodeId}

theorem kind_ne_of_aliasName (h : d.aliasName? id = none) : d.kind? id ≠ some .reference := by
  intro hk
  obtain ⟨content, hc, hreference⟩ := Option.map_eq_some_iff.1 hk
  cases content with
  | reference => simp [aliasName?, hc, Content.aliasName?] at h
  | scalar | sequence | mapping => cases hreference

theorem lands_followed {w : Walk} (hf : w.options.followAliases = true) (levels : Nat) (id : NodeId) :
    Lands (fun id => w.doc.kind? id ≠ some .reference) (fun _ => True) (w.resolve levels id) := by
  cases hr : w.resolve levels id with
  | error => trivial
  | ok target => exact kind_ne_of_aliasName (Walk.resolve_endsAt hf hr).2

theorem Intact.keeps_followed {w : Walk} (h : w.doc.Intact) (hf : w.options.followAliases = true)
    (hroot : ∀ id, w.doc.root = some id → w.doc.kind? id ≠ some .reference) :
    w.Keeps (fun id => w.doc.kind? id ≠ some .reference) fun _ => True where
  root := hroot
  parent := by
    intro id p hp
    obtain ⟨⟨k, hk, hcollection⟩, _⟩ := h.held id p hp
    rw [hk]
    rintro ⟨⟩
    cases hcollection
  child := fun levels _ c _ => lands_followed hf levels c
  anchor := fun levels _ id _ => lands_followed hf levels id
  deep := trivial

/-- Where neither the root nor the start is an alias, an evaluation that follows aliases finds none, and none of the lists
that it passes on has one. -/
theorem execute_followed (h : d.Made) (hroot : ∀ id, d.root = some id → d.kind? id ≠ some .reference) {start : NodeId}
    (hstart : d.kind? start ≠ some .reference) (e : Expr) (limit : Nat) :
    (∀ found, e.execute d start ⟨true, limit⟩ = .ok found → ∀ id ∈ found, d.kind? id ≠ some .reference) ∧
      ∀ passed, Walk.Passes ⟨d, ⟨true, limit⟩⟩ (limit + 1) e [start] passed →
        ∀ id ∈ passed, d.kind? id ≠ some .reference := by
  have hkeeps : Walk.Keeps ⟨d, ⟨true, limit⟩⟩ (fun id => d.kind? id ≠ some .reference) fun _ => True :=
    Intact.keeps_followed (w := ⟨d, ⟨true, limit⟩⟩) h.intact rfl hroot
  have hin : Throughout (fun id => d.kind? id ≠ some .reference) [start] := by simpa [Throughout] using hstart
  constructor
  · intro found hfound
    exact Walk.Passes.throughout hkeeps (.found hfound) hin
  · intro passed hpassed
    exact hpassed.throughout hkeeps hin

/-- The items of a list with an alias, and the items of these: the alias is passed on as the list that it refers to. -/
theorem execute_followed_list : ∃ d, read "- &x [1]\n- [*x, 2]\n" = .ok d ∧ d.kind? 4 = some .reference ∧
    let items : Expr := .step .everyChild {}
    let below : Expr := .join .chain [items, items, items] {}
    (∀ id, d.root = some id → d.kind? id ≠ some .reference) ∧ d.kind? 0 ≠ some .reference ∧
      below.execute d 0 {} = .ok [2] ∧ (∀ id ∈ [2], d.kind? id ≠ some .reference) ∧
      Walk.Passes ⟨d, {}⟩ 257 below [0] [2, 1, 5] ∧ ∀ id ∈ [2, 1, 5], d.kind? id ≠ some .reference := by
  let items : Expr := .step .everyChild {}
  have hfacts : (read "- &x [1]\n- [*x, 2]\n").toOption.map (fun d => ((d.kind? 4, d.root, d.kind? 0),
      (Expr.join .chain [items, items, items] {}).execute d 0 {},
      Combinator.thread (Walk.eval ⟨d, {}⟩ 256) [0] [items, items])) =
      some ((some .reference, some 0, some .sequence), .ok [2], .ok [2, 1, 5]) := by decide +kernel
  obtain ⟨d, hd, hfacts⟩ := Option.map_eq_some_iff.1 hfacts
  simp only [Prod.mk.injEq] at hfacts
  obtain ⟨⟨halias, hroot, hlist⟩, hbelow, hthread⟩ := hfacts
  have hread := Outcome.eq_ok_of_toOption hd
  have hnot : d.kind? 0 ≠ some .reference := by
    rw [hlist]
    decide
  have hroots : ∀ id, d.root = some id → d.kind? id ≠ some .reference := by
    intro id hid
    rw [hroot, Option.some.injEq] at hid
    exact hid ▸ hnot
  have hsplit : [items, items, items] = [items, items] ++ items :: [] := rfl
  have hpasses : Walk.Passes ⟨d, {}⟩ 257 (.join .chain [items, items, items] {}) [0] [2, 1, 5] :=
    .operand (.behind hsplit hthread) .given
  have hfollowed := execute_followed (.read hread) hroots hnot (.join .chain [items, items, items] {}) 256
  exact ⟨d, hread, halias, hroots, hnot, hbelow, hfollowed.1 _ hbelow, hpasses, hfollowed.2 _ hpasses⟩

end Document
end YamlQuery
