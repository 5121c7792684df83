import YamlQuery.Path.Query
import YamlQuery.Proofs.Path.Levels
import YamlQuery.Proofs.Path.Scanning
/-!
The meaning of a path is composed from the meanings of its parts. Two paths in parentheses with an operator between them
are parsed to their trees under a combinator, and evaluated like the two, one after the other.
-/
namespace YamlQuery.Path
open Path.Expr Grammar Outcome

namespace Combinator

def compose (c : Combinator) (f g : List NodeId → Walk.Result) (input : List NodeId) : Walk.Result := do
  let here ← f input
  match c with
  | multi => return here ++ (← g input)
  | chain => if here.isEmpty then return [] else g here
  | or => if here.isEmpty then g input else return here
  | and => if here.isEmpty then return [] else g input

def Skips (c : Combinator) : Walk.Result → Prop
  | .error _ => True
  | .ok here =>
    match c with
    | multi => False
    | chain | and => here = []
    | or => here ≠ []

variable {c : Combinator} {f f' g g' : List NodeId → Walk.Result} {input : List NodeId}

theorem compose_upto (hi : input ≠ []) (hf : Upto (f input) (f' input)) (hg : ∀ i, i ≠ [] → Upto (g i) (g' i)) :
    Upto (c.compose f g input) (c.compose f' g' input) := by
  apply hf.bind
  intro here _
  cases c with
  | multi => exact (hg input hi).bind fun _ _ => .refl _
  | chain =>
    cases here with
    | nil => exact .refl _
    | cons id ids => exact hg _ (by simp)
  | or =>
    cases here with
    | nil => exact hg input hi
    | cons id ids => exact .refl _
  | and =>
    cases here with
    | nil => exact .refl _
    | cons id ids => exact hg input hi

theorem compose_skips (h : c.Skips (f input)) : c.compose f g input = c.compose f g' input := by
  unfold compose
  cases hx : f input with
  | error e => rfl
  | ok here =>
    rw [hx] at h
    cases c with
    | multi => exact h.elim
    | chain | and =>
      obtain rfl : here = [] := h
      rfl
    | or =>
      obtain ⟨id, ids, rfl⟩ := List.exists_cons_of_ne_nil h
      rfl

section merge
variable {γ : Type} (ev : γ → List NodeId → Walk.Result)

theorem union_append (input : List NodeId) (xs ys : List γ) :
    union ev input (xs ++ ys) = (do
      let here ← union ev input xs
      return here ++ (← union ev input ys)) := by
  change _ = Walk.both (union ev input xs) (union ev input ys)
  induction xs with
  | nil => exact (Walk.nil_both _).symm
  | cons a xs ih =>
    change Walk.both (ev a input) (union ev input (xs ++ ys)) =
      Walk.both (Walk.both (ev a input) (union ev input xs)) (union ev input ys)
    rw [ih, Walk.both_assoc]

theorem thread_append (input : List NodeId) (xs ys : List γ) :
    thread ev input (xs ++ ys) = (do
      let here ← thread ev input xs
      if here.isEmpty then return [] else thread ev here ys) := by
  induction xs generalizing input with
  | nil =>
    cases input with
    | nil => exact thread_nil ev ys
    | cons id ids => rfl
  | cons a xs ih =>
    rw [List.cons_append, thread, thread]
    cases input with
    | nil => rfl
    | cons id ids =>
      cases ha : ev a (id :: ids) with
      | error e => rfl
      | ok here => exact ih here

theorem firstNonEmpty_append (input : List NodeId) (xs ys : List γ) :
    firstNonEmpty ev input (xs ++ ys) = (do
      let here ← firstNonEmpty ev input xs
      if here.isEmpty then firstNonEmpty ev input ys else return here) := by
  induction xs with
  | nil => rfl
  | cons a xs ih =>
    rw [List.cons_append, firstNonEmpty, firstNonEmpty]
    cases ha : ev a input with
    | error e => rfl
    | ok here =>
      cases here with
      | nil => exact ih
      | cons id ids => rfl

theorem allOrNothing_last (input last last' : List NodeId) {ys : List γ} (hb : ys ≠ []) :
    allOrNothing ev input last ys = allOrNothing ev input last' ys := by
  cases ys with
  | nil => exact absurd rfl hb
  | cons b ys => rfl

theorem allOrNothing_append (input last : List NodeId) {xs ys : List γ} (ha : xs ≠ []) (hb : ys ≠ []) :
    allOrNothing ev input last (xs ++ ys) = (do
      let here ← allOrNothing ev input last xs
      if here.isEmpty then return [] else allOrNothing ev input [] ys) := by
  induction xs generalizing last with
  | nil => exact absurd rfl ha
  | cons a xs ih =>
    rw [List.cons_append, allOrNothing, allOrNothing]
    cases hx : ev a input with
    | error e => rfl
    | ok here =>
      cases here with
      | nil => rfl
      | cons id ids =>
        cases xs with
        | nil => exact allOrNothing_last ev input (id :: ids) [] hb
        | cons a' xs => exact ih (id :: ids) (by simp)

theorem merge_append (c : Combinator) (input : List NodeId) {xs ys : List γ} (ha : xs ≠ []) (hb : ys ≠ []) :
    c.merge (xs ++ ys) input ev = c.compose (fun i => c.merge xs i ev) (fun i => c.merge ys i ev) input := by
  cases c with
  | multi => exact union_append ev input xs ys
  | chain => exact thread_append ev input xs ys
  | or => exact firstNonEmpty_append ev input xs ys
  | and => exact allOrNothing_append ev input [] ha hb

/-- A combinator with one operand is that operand. -/
theorem merge_single (c : Combinator) {input : List NodeId} (hi : input ≠ []) (a : γ) :
    c.merge [a] input ev = ev a input := by
  obtain ⟨id, ids, rfl⟩ := List.exists_cons_of_ne_nil hi
  cases hx : ev a (id :: ids) with
  | error e => cases c <;> simp [merge, union, thread, firstNonEmpty, allOrNothing, hx, bind, Except.bind]
  | ok here =>
    cases c <;> cases here <;>
      simp [merge, union, thread, firstNonEmpty, allOrNothing, hx, bind, Except.bind, pure, Except.pure]

theorem merge_map {δ : Type} (c : Combinator) (f : δ → γ) (es : List δ) (input : List NodeId) :
    c.merge (es.map f) input ev = c.merge es input fun e => ev (f e) := by
  have hu : ∀ es : List δ, union ev input (es.map f) = union (fun e => ev (f e)) input es := by
    intro es
    induction es with
    | nil => rfl
    | cons e es ih => rw [List.map_cons, union, union, ih]
  have ht : ∀ (es : List δ) (input : List NodeId), thread ev input (es.map f) = thread (fun e => ev (f e)) input es := by
    intro es
    induction es with
    | nil => exact fun _ => rfl
    | cons e es ih =>
      intro input
      simp only [List.map_cons, thread, ih]
  have hf : ∀ es : List δ, firstNonEmpty ev input (es.map f) = firstNonEmpty (fun e => ev (f e)) input es := by
    intro es
    induction es with
    | nil => rfl
    | cons e es ih => rw [List.map_cons, firstNonEmpty, firstNonEmpty, ih]
  have ha : ∀ (es : List δ) (last : List NodeId),
      allOrNothing ev input last (es.map f) = allOrNothing (fun e => ev (f e)) input last es := by
    intro es
    induction es with
    | nil => exact fun _ => rfl
    | cons e es ih =>
      intro last
      simp only [List.map_cons, allOrNothing, ih]
  cases c with
  | multi => exact hu es
  | chain => exact ht es input
  | or => exact hf es
  | and => exact ha es []

end merge
end Combinator

namespace Walk
variable {w : Walk} {n : Nat}

/-- Marks have no meaning. -/
theorem eval_unmarked (w : Walk) (n : Nat) (e : Expr) (input : List NodeId) :
    w.eval n e.unmarked input = w.eval n e input := by
  induction n generalizing e input with
  | zero => rfl
  | succ n ih =>
    cases e with
    | step s sp => rfl
    | join c es sp =>
      have hev : (fun e => w.eval n e.unmarked) = w.eval n := by
        funext e input
        exact ih e input
      rw [unmarked, eval, eval, unmarkedAll_eq_map, Combinator.merge_map, hev]

/-- The operands of an expression, merged, are the expression. Where it is none of the combinator, it takes one level
less. -/
theorem merge_operandsOf_upto (c : Combinator) (e : Expr) {input : List NodeId} (hi : input ≠ []) :
    Upto (c.merge (e.operandsOf c) input (w.eval n)) (w.eval (n + 1) e input) := by
  cases e with
  | step s sp =>
    rw [operandsOf, Combinator.merge_single _ c hi]
    exact eval_upto (.refl w) (Nat.le_succ n) _ input
  | join d es sp =>
    by_cases hd : d = c
    · subst hd
      rw [operandsOf, if_pos rfl]
      exact .refl _
    · rw [operandsOf, if_neg hd, Combinator.merge_single _ c hi]
      exact eval_upto (.refl w) (Nat.le_succ n) _ input

/-- Dissolving an expression in its combinator keeps its answers. -/
theorem eval_upto_merge_operandsOf (c : Combinator) (e : Expr) {input : List NodeId} (hi : input ≠ []) :
    Upto (w.eval n e input) (c.merge (e.operandsOf c) input (w.eval n)) := by
  cases e with
  | step s sp =>
    rw [operandsOf, Combinator.merge_single _ c hi]
    exact .refl _
  | join d es sp =>
    by_cases hd : d = c
    · subst hd
      rw [operandsOf, if_pos rfl]
      exact eval_upto (.refl w) (Nat.le_succ n) (.join d es sp) input
    · rw [operandsOf, if_neg hd, Combinator.merge_single _ c hi]
      exact .refl _

theorem eval_combine {c : Combinator} {a b : Expr} (ha : a.operandsOf c ≠ []) (hb : b.operandsOf c ≠ [])
    (input : List NodeId) :
    w.eval (n + 1) (combine c a b) input =
      c.compose (fun i => c.merge (a.operandsOf c) i (w.eval n)) (fun i => c.merge (b.operandsOf c) i (w.eval n)) input :=
  Combinator.merge_append (w.eval n) c input ha hb

theorem eval_combine_upto {c : Combinator} {a b : Expr} (ha : a.operandsOf c ≠ []) (hb : b.operandsOf c ≠ [])
    {input : List NodeId} (hi : input ≠ []) :
    Upto (w.eval (n + 1) (combine c a b) input) (c.compose (w.eval (n + 1) a) (w.eval (n + 1) b) input) := by
  rw [eval_combine ha hb]
  exact Combinator.compose_upto hi (merge_operandsOf_upto c a hi) fun i hi => merge_operandsOf_upto c b hi

/-- A combinator nested in itself answers like the flat one. -/
theorem eval_nested_upto {c : Combinator} {a b : Expr} (ha : a.operandsOf c ≠ []) (hb : b.operandsOf c ≠ []) (sp : Span)
    {input : List NodeId} (hi : input ≠ []) :
    Upto (w.eval (n + 1) (.join c [a, b] sp) input) (w.eval (n + 1) (combine c a b) input) := by
  have hnest : w.eval (n + 1) (.join c [a, b] sp) input =
      c.compose (fun i => c.merge [a] i (w.eval n)) (fun i => c.merge [b] i (w.eval n)) input :=
    Combinator.merge_append (w.eval n) c input (List.cons_ne_nil a []) (List.cons_ne_nil b [])
  have hside : ∀ (e : Expr) (i : List NodeId), i ≠ [] →
      Upto (c.merge [e] i (w.eval n)) (c.merge (e.operandsOf c) i (w.eval n)) := by
    intro e i hi
    rw [Combinator.merge_single _ c hi]
    exact eval_upto_merge_operandsOf c e hi
  rw [hnest, eval_combine ha hb]
  exact Combinator.compose_upto hi (hside a input hi) (hside b)

/-- When the first outcome decides, the second expression has no influence. -/
theorem eval_combine_skips {c : Combinator} {a b b' : Expr} (ha : a.operandsOf c ≠ []) (hb : b.operandsOf c ≠ [])
    (hb' : b'.operandsOf c ≠ []) {input : List NodeId} (hi : input ≠ []) (h : c.Skips (w.eval (n + 1) a input)) :
    w.eval (n + 1) (combine c a b') input = w.eval (n + 1) (combine c a b) input := by
  rw [eval_combine ha hb, eval_combine ha hb']
  apply Combinator.compose_skips
  rcases merge_operandsOf_upto (w := w) (n := n) c a hi with ⟨limit, hx⟩ | hx
  · rw [hx]
    trivial
  · rw [hx]
    exact h

end Walk
end YamlQuery.Path
