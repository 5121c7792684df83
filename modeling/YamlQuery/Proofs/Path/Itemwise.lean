import Mathlib.Data.List.Perm.Basic
import YamlQuery.Document.Read
import YamlQuery.Proofs.Path.Downward
import YamlQuery.Proofs.Path.Merging
import YamlQuery.Proofs.Path.Parts
/-!
Evaluation node by node. A list of nodes gives what its nodes give one after the other, as long as no part of the expression
looks at the list as a whole; only operands side by side change the order.
-/
namespace YamlQuery.Path

variable {α : Type} {R : List NodeId → List NodeId → Prop} {x x' y y' z : Walk.Result} {xs ys : List NodeId}

inductive Agree (R : List NodeId → List NodeId → Prop) : Walk.Result → Walk.Result → Prop
  | ok {xs ys : List NodeId} (h : R xs ys) : Agree R (.ok xs) (.ok ys)
  | error (e e' : EvalError) : Agree R (.error e) (.error e')

structure Rearranges (R : List NodeId → List NodeId → Prop) : Prop where
  refl : ∀ xs, R xs xs
  symm : ∀ {xs ys}, R xs ys → R ys xs
  trans : ∀ {xs ys zs}, R xs ys → R ys zs → R xs zs
  append : ∀ {xs xs' ys ys'}, R xs xs' → R ys ys' → R (xs ++ ys) (xs' ++ ys')
  collect : ∀ {xs ys} (f : NodeId → Walk.Result), R xs ys → Agree R (Walk.collect f xs) (Walk.collect f ys)

namespace Agree

theorem of_eq (h : Rearranges R) (heq : x = y) : Agree R x y := by
  subst heq
  cases x with
  | ok xs => exact .ok (h.refl xs)
  | error e => exact .error e e

theorem symm (h : Rearranges R) (hxy : Agree R x y) : Agree R y x := by
  cases hxy with
  | ok hR => exact .ok (h.symm hR)
  | error e e' => exact .error e' e

theorem trans (h : Rearranges R) (hxy : Agree R x y) (hyz : Agree R y z) : Agree R x z := by
  cases hxy with
  | ok hR =>
    cases hyz with
    | ok hR' => exact .ok (h.trans hR hR')
  | error e _ =>
    cases hyz with
    | error _ e' => exact .error e e'

theorem bind {f g : List NodeId → Walk.Result} (hxy : Agree R x y) (hfg : ∀ xs ys, R xs ys → Agree R (f xs) (g ys)) :
    Agree R (x >>= f) (y >>= g) := by
  cases hxy with
  | ok hR => exact hfg _ _ hR
  | error e e' => exact .error e e'

theorem both (h : Rearranges R) (hx : Agree R x x') (hy : Agree R y y') : Agree R (Walk.both x y) (Walk.both x' y') := by
  apply hx.bind
  intro here here' hhere
  apply hy.bind
  intro rest rest' hrest
  exact .ok (h.append hhere hrest)

theorem mono {R' : List NodeId → List NodeId → Prop} (hR : ∀ xs ys, R xs ys → R' xs ys) (hxy : Agree R x y) :
    Agree R' x y := by
  cases hxy with
  | ok h => exact .ok (hR _ _ h)
  | error e e' => exact .error e e'

theorem exists_ok_iff (hxy : Agree R x y) : (∃ xs, x = .ok xs) ↔ ∃ ys, y = .ok ys := by
  cases hxy <;> simp

end Agree

namespace Walk
variable {f : α → Result} {as : List α}

/-- A function that joins what it finds at each node can be run node by node. -/
theorem found_itemwise {F : List NodeId → Result} (g : NodeId → List NodeId)
    (hF : ∀ input, F input = .ok (input.flatMap g)) (xs : List NodeId) : F xs = collect (fun x => F [x]) xs := by
  have hsingle : ∀ x ∈ xs, F [x] = .ok (g x) := by
    intro x _
    rw [hF, List.flatMap_singleton]
  rw [hF, collect_ok hsingle]

theorem failed_itemwise {F : List NodeId → Result} (e : EvalError) (hF : ∀ input, F input = .error e) (hxs : xs ≠ []) :
    F xs = collect (fun x => F [x]) xs := by
  obtain ⟨x, rest, rfl⟩ := List.exists_cons_of_ne_nil hxs
  rw [hF, collect, hF]
  rfl

theorem collect_agree (hR : Rearranges R) {g : α → Result} (h : ∀ a ∈ as, Agree R (f a) (g a)) :
    Agree R (collect f as) (collect g as) := by
  induction as with
  | nil => exact .ok (hR.refl [])
  | cons a as ih =>
    have htail := ih fun b hb => h b (by simp [hb])
    exact (h a (by simp)).both hR htail

theorem error_collect {a : α} {e : EvalError} (e' : EvalError) (ha : a ∈ as) (h : f a = .error e) :
    Agree R (.error e') (collect f as) := by
  obtain ⟨e'', hc⟩ := collect_error ha h
  rw [hc]
  exact .error e' e''

theorem collect_perm {as bs : List α} (f : α → Result) (h : as.Perm bs) :
    Agree List.Perm (collect f as) (collect f bs) := by
  obtain ⟨here, hhere, has⟩ | ⟨a, ha, e, hfa, has⟩ := collect_outcome f as
  · rw [has, collect_ok fun b hb => hhere b (h.mem_iff.2 hb)]
    exact .ok (h.flatMap fun _ _ => .refl _)
  · rw [has]
    exact error_collect e (h.mem_iff.1 ha) hfa

/-- What is found from a list of nodes that were found is found from each of those. -/
theorem collect_bind_collect (hR : Rearranges R) (f : α → Result) (g : NodeId → Result) (as : List α) :
    Agree R (collect f as >>= collect g) (collect (fun a => f a >>= collect g) as) := by
  obtain ⟨here, hhere, has⟩ | ⟨a, ha, e, hfa, has⟩ := collect_outcome f as
  · apply Agree.of_eq hR
    rw [has, Outcome.bind_ok, collect_flatMap]
    apply collect_composes composes_eq
    intro a ha
    rw [hhere a ha, Outcome.bind_ok]
  · have hlate : f a >>= collect g = .error e := by
      rw [hfa]
      rfl
    rw [has]
    exact error_collect e ha hlate

/-- Two rounds over a list find what one round finds that does both on each element. -/
theorem both_collect (f g : α → Result) (as : List α) :
    Agree List.Perm (both (collect f as) (collect g as)) (collect (fun a => both (f a) (g a)) as) := by
  obtain ⟨here, hhere, has⟩ | ⟨a, ha, e, hfa, has⟩ := collect_outcome f as
  · obtain ⟨here', hhere', has'⟩ | ⟨a, ha, e, hga, has'⟩ := collect_outcome g as
    · have hboth : ∀ a ∈ as, both (f a) (g a) = .ok (here a ++ here' a) := by
        intro a ha
        rw [hhere a ha, hhere' a ha]
        rfl
      rw [has, has', collect_ok hboth]
      exact .ok (List.flatMap_append_perm as here here')
    · have hboth : both (f a) (g a) = .error e := by
        rw [hhere a ha, hga]
        rfl
      rw [has, has']
      exact error_collect e ha hboth
  · have hboth : both (f a) (g a) = .error e := by
      rw [hfa]
      rfl
    rw [has]
    exact error_collect e ha hboth

end Walk

theorem rearranges_eq : Rearranges Eq where
  refl := fun _ => rfl
  symm := Eq.symm
  trans := Eq.trans
  append := by
    rintro xs _ ys _ rfl rfl
    rfl
  collect := by
    rintro xs _ f rfl
    cases Walk.collect f xs with
    | ok found => exact .ok rfl
    | error e => exact .error e e

theorem rearranges_perm : Rearranges List.Perm where
  refl := .refl
  symm := .symm
  trans := .trans
  append := .append
  collect := Walk.collect_perm

namespace Combinator
variable {γ : Type} {f : γ → List NodeId → Walk.Result} {es : List γ}

theorem thread_itemwise (hR : Rearranges R)
    (h : ∀ e ∈ es, ∀ xs, xs ≠ [] → Agree R (f e xs) (Walk.collect (fun x => f e [x]) xs)) (xs : List NodeId) :
    Agree R (thread f xs es) (Walk.collect (fun x => thread f [x] es) xs) := by
  induction es generalizing xs with
  | nil =>
    have hsame : ∀ input, thread f input [] = .ok (input.flatMap fun x => [x]) := fun input => by
      rw [List.flatMap_singleton']
      rfl
    exact .of_eq hR (Walk.found_itemwise _ hsame xs)
  | cons e es ih =>
    have hes := ih fun d hd => h d (by simp [hd])
    by_cases hxs : xs = []
    · subst hxs
      exact .ok (hR.refl [])
    · -- Each list between the operands is taken apart before the next operand.
      have hwhole : Agree R (thread f xs (e :: es))
          (Walk.collect (fun x => f e [x]) xs >>= Walk.collect fun x => thread f [x] es) := by
        rw [thread_cons f e es hxs]
        apply (h e (by simp) xs hxs).bind
        intro middle middle' hmiddle
        exact (hes middle).trans hR (hR.collect _ hmiddle)
      have hparts : Agree R (Walk.collect (fun x => f e [x] >>= Walk.collect fun y => thread f [y] es) xs)
          (Walk.collect (fun x => thread f [x] (e :: es)) xs) := by
        apply Walk.collect_agree hR
        intro x _
        apply (Agree.of_eq hR rfl).bind
        intro here here' hhere
        exact (hR.collect _ hhere).trans hR ((hes here').symm hR)
      exact (hwhole.trans hR (Walk.collect_bind_collect hR _ _ xs)).trans hR hparts

theorem union_itemwise (hR : Rearranges R) (hperm : ∀ xs ys, List.Perm xs ys → R xs ys)
    (h : ∀ e ∈ es, Agree R (f e xs) (Walk.collect (fun x => f e [x]) xs)) :
    Agree R (union f xs es) (Walk.collect (fun x => union f [x] es) xs) := by
  induction es with
  | nil =>
    have hnone : ∀ input, union f input [] = .ok (input.flatMap fun _ => []) := fun input => by
      rw [List.flatMap_eq_nil_iff.2 fun _ _ => rfl]
      rfl
    exact .of_eq hR (Walk.found_itemwise _ hnone xs)
  | cons e es ih =>
    have hes := ih fun d hd => h d (by simp [hd])
    have hrounds : Agree R (union f xs (e :: es))
        (Walk.both (Walk.collect (fun x => f e [x]) xs) (Walk.collect (fun x => union f [x] es) xs)) :=
      (h e (by simp)).both hR hes
    exact hrounds.trans hR ((Walk.both_collect _ _ xs).mono hperm)

end Combinator

namespace Walk
variable {w : Walk} {levels : Nat}

theorem downward_itemwise {s : Step} (hs : s.isDownward = true) (xs : List NodeId) :
    w.step levels s xs = collect (fun x => w.step levels s [x]) xs := by
  simp only [step_of_isDownward hs, List.flatMap_singleton]
  exact collect_flatMap _ _ xs

theorem keepKind_itemwise (w : Walk) (keep : NodeKind → Bool) (xs : List NodeId) :
    Except.ok (w.keepKind keep xs) = collect (fun x => .ok (w.keepKind keep [x])) xs := by
  let kept (id : NodeId) : Bool := ((w.doc.kind? id).map keep).getD false
  have hkept : ∀ input, w.keepKind keep input = input.flatMap fun id => (Option.guard kept id).toList := by
    intro input
    rw [← List.filterMap_eq_flatMap_toList, List.filterMap_eq_filter]
    rfl
  exact found_itemwise (F := fun input => .ok (w.keepKind keep input)) _ (fun input => by rw [hkept]) xs

theorem step_itemwise {s : Step} (hs : s ≠ .root) (hxs : xs ≠ []) :
    w.step levels s xs = collect (fun x => w.step levels s [x]) xs := by
  cases s with
  | root => exact absurd rfl hs
  | this => exact found_itemwise (fun id => [id]) (fun input => by rw [step, List.flatMap_singleton']) xs
  | parent =>
    exact found_itemwise (fun id => (w.doc.parent? id).toList)
      (fun input => by rw [step, List.filterMap_eq_flatMap_toList]) xs
  | everyChild | index | slice | mapKey => exact downward_itemwise rfl xs
  | everyDescendant => simp only [step, collect_singleton]
  | filterCollection | filterScalar | filterSequence | filterMapping => exact keepKind_itemwise w _ xs
  | reference name =>
    cases hl : w.doc.lookupAnchor? name with
    | none => exact failed_itemwise (.unresolvedAlias name) (fun input => by rw [step, hl]) hxs
    | some target =>
      cases hr : w.resolve (levels + 1) target with
      | error e =>
        have hfails : ∀ input, w.step levels (.reference name) input = .error e := fun input => by
          simp only [step, hl, hr]
          rfl
        exact failed_itemwise e hfails hxs
      | ok id =>
        have hsame : ∀ input, w.step levels (.reference name) input = .ok (input.flatMap fun _ => [id]) := fun input => by
          simp only [step, hl, hr]
          exact congrArg Except.ok List.map_eq_flatMap
        exact found_itemwise _ hsame xs

end Walk

/-- No part of the expression depends on more than one node of its input: to come to the root takes any node, and whether
something was found is asked of the whole list. -/
structure Expr.Itemwise (e : Expr) : Prop where
  root : ∀ span, ¬e.Contains (.step .root span)
  or : ∀ operands span, ¬e.Contains (.join .or operands span)
  and : ∀ operands span, ¬e.Contains (.join .and operands span)

theorem Expr.Itemwise.operand {c : Combinator} {operands : List Expr} {e : Expr} {span : Span}
    (h : (Expr.join c operands span).Itemwise) (he : e ∈ operands) : e.Itemwise where
  root := fun span' hc => h.root span' (contains_operand he hc)
  or := fun es span' hc => h.or es span' (contains_operand he hc)
  and := fun es span' hc => h.and es span' (contains_operand he hc)

namespace Walk
variable {w : Walk}

theorem eval_agree (hR : Rearranges R) (levels : Nat) {e : Expr} (h : e.Itemwise)
    (hperm : ∀ operands span, e.Contains (.join .multi operands span) → ∀ xs ys, List.Perm xs ys → R xs ys)
    (hxs : xs ≠ []) : Agree R (w.eval levels e xs) (collect (fun x => w.eval levels e [x]) xs) := by
  induction levels generalizing e xs with
  | zero => exact .of_eq hR (failed_itemwise _ (fun _ => rfl) hxs)
  | succ levels ih =>
    cases e with
    | step s span =>
      apply Agree.of_eq hR
      apply step_itemwise _ hxs
      rintro rfl
      exact h.root span (Expr.contains_self _)
    | join c operands span =>
      have hoperand : ∀ e ∈ operands, ∀ xs, xs ≠ [] →
          Agree R (w.eval levels e xs) (collect (fun x => w.eval levels e [x]) xs) := by
        intro e he xs hxs
        exact ih (h.operand he) (fun es span' hc => hperm es span' (Expr.contains_operand he hc)) hxs
      cases c with
      | multi =>
        exact Combinator.union_itemwise hR (hperm operands span (Expr.contains_self _)) fun e he => hoperand e he xs hxs
      | chain => exact Combinator.thread_itemwise hR hoperand xs
      | or => exact absurd (Expr.contains_self _) (h.or operands span)
      | and => exact absurd (Expr.contains_self _) (h.and operands span)

/-- A list succeeds if each of its nodes does, and finds what these find, in their order if no operands stand side by
side. -/
theorem eval_itemwise (w : Walk) (levels : Nat) {e : Expr} (h : e.Itemwise) {xs : List NodeId} (hxs : xs ≠ []) :
    ((∃ found, w.eval levels e xs = .ok found) ↔ ∀ x ∈ xs, ∃ here, w.eval levels e [x] = .ok here) ∧
      ∀ found, w.eval levels e xs = .ok found → ∃ here : NodeId → List NodeId,
        (∀ x ∈ xs, w.eval levels e [x] = .ok (here x)) ∧ found.Perm (xs.flatMap here) ∧
          ((∀ operands span, ¬e.Contains (.join .multi operands span)) → found = xs.flatMap here) := by
  have hany := eval_agree (w := w) rearranges_perm levels h (fun _ _ _ _ _ hp => hp) hxs
  constructor
  · rw [hany.exists_ok_iff]
    constructor
    · rintro ⟨found, hfound⟩
      exact collect_eq_ok hfound
    · intro hall
      choose! here hhere using hall
      exact ⟨_, collect_ok hhere⟩
  · intro found hfound
    obtain ⟨all, hall⟩ := hany.exists_ok_iff.1 ⟨found, hfound⟩
    obtain ⟨here, hhere, rfl⟩ := collect_eq_ok_iff.1 hall
    rw [hfound, hall] at hany
    cases hany with
    | ok hp =>
      refine ⟨here, hhere, hp, ?_⟩
      intro hmulti
      have hsame := eval_agree (w := w) rearranges_eq levels h (fun es span hc => absurd hc (hmulti es span)) hxs
      rw [hfound, hall] at hsame
      cases hsame with
      | ok heq => exact heq

/-- Two lists below one: operands side by side take the first items of both before the last, and a chain does not. -/
theorem eval_itemwise_lists : ∃ d, Document.read "- [1, 2]\n- [3, 4]\n" = .ok d ∧
    let w : Walk := ⟨d, {}⟩
    let ends : Expr := .join .multi [.step (.index 0) {}, .step (.index (-1)) {}] {}
    let beside : Expr := .join .chain [.step .parent {}, .step (.index 1) {}, .step .everyChild {}] {}
    (ends.Itemwise ∧ beside.Itemwise ∧ ∀ operands span, ¬beside.Contains (.join .multi operands span)) ∧
      w.eval 2 ends [1, 4] = .ok [2, 5, 3, 6] ∧ w.eval 2 beside [1, 4] = .ok [5, 6, 5, 6] ∧
      (∀ x ∈ [1, 4], ∃ here, w.eval 2 ends [x] = .ok here) ∧
      (∃ here : NodeId → List NodeId, (∀ x ∈ [1, 4], w.eval 2 ends [x] = .ok (here x)) ∧
        [2, 5, 3, 6].Perm ([1, 4].flatMap here)) ∧
      ∃ here : NodeId → List NodeId, (∀ x ∈ [1, 4], w.eval 2 beside [x] = .ok (here x)) ∧
        [5, 6, 5, 6] = [1, 4].flatMap here := by
  have hfacts : (Document.read "- [1, 2]\n- [3, 4]\n").toOption.map (fun d =>
      (Walk.eval ⟨d, {}⟩ 2 (.join .multi [.step (.index 0) {}, .step (.index (-1)) {}] {}) [1, 4],
        Walk.eval ⟨d, {}⟩ 2 (.join .chain [.step .parent {}, .step (.index 1) {}, .step .everyChild {}] {}) [1, 4])) =
      some (.ok [2, 5, 3, 6], .ok [5, 6, 5, 6]) := by decide +kernel
  obtain ⟨d, hd, hfacts⟩ := Option.map_eq_some_iff.1 hfacts
  simp only [Prod.mk.injEq] at hfacts
  obtain ⟨hends, hbeside⟩ := hfacts
  have hparts : (Expr.join .multi [.step (.index 0) {}, .step (.index (-1)) {}] {}).Itemwise ∧
      (Expr.join .chain [.step .parent {}, .step (.index 1) {}, .step .everyChild {}] {}).Itemwise := by
    constructor <;> constructor <;> simp [Expr.contains_join, Expr.contains_step]
  have hnone : ∀ operands span, ¬(Expr.join .chain [.step .parent {}, .step (.index 1) {}, .step .everyChild {}]
      {}).Contains (.join .multi operands span) := by
    simp [Expr.contains_join, Expr.contains_step]
  have hxs : [1, 4] ≠ ([] : List NodeId) := List.cons_ne_nil _ _
  have hany := eval_itemwise ⟨d, {}⟩ 2 hparts.1 hxs
  have hsame := eval_itemwise ⟨d, {}⟩ 2 hparts.2 hxs
  obtain ⟨here, hhere, hperm, _⟩ := hany.2 _ hends
  obtain ⟨here', hhere', _, heq⟩ := hsame.2 _ hbeside
  exact ⟨d, Outcome.eq_ok_of_toOption hd, ⟨hparts.1, hparts.2, hnone⟩, hends, hbeside, hany.1.1 ⟨_, hends⟩,
    ⟨here, hhere, hperm⟩, here', hhere', heq hnone⟩

end Walk
end YamlQuery.Path
