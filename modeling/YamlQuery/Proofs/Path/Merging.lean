import YamlQuery.Proofs.Path.Collecting
/-!
Relations between outcomes that composition keeps. Every way of merging the outcomes of operands keeps them too, and so
does collecting the outcomes along a list.
-/
namespace YamlQuery.Path

structure Composes (S : List NodeId → Prop) (R : Walk.Result → Walk.Result → Prop) : Prop where
  ok : ∀ {xs}, S xs → R (.ok xs) (.ok xs)
  bind : ∀ {x y f g}, R x y → (∀ xs, S xs → R (f xs) (g xs)) → R (x >>= f) (y >>= g)
  nil : S []
  append : ∀ {xs ys}, S xs → S ys → S (xs ++ ys)

/-- Equality is one, with any lists passed on. -/
theorem composes_eq : Composes (fun _ => True) Eq where
  ok := fun _ => rfl
  bind := by
    rintro x _ f g rfl h
    have hfg : f = g := funext fun xs => h xs trivial
    rw [hfg]
  nil := trivial
  append := fun _ _ => trivial

variable {S : List NodeId → Prop} {R : Walk.Result → Walk.Result → Prop}

theorem Walk.collect_composes {α : Type} (h : Composes S R) {f g : α → Result} {as : List α}
    (hf : ∀ a ∈ as, R (f a) (g a)) : R (collect f as) (collect g as) := by
  induction as with
  | nil => exact h.ok h.nil
  | cons a as ih =>
    have htail := ih fun b hb => hf b (by simp [hb])
    exact h.bind (hf a (by simp)) fun here hh => h.bind htail fun rest hr => h.ok (h.append hh hr)

namespace Combinator
variable {γ : Type} {f g : γ → List NodeId → Walk.Result} {cs : List γ} {input last xs ys : List NodeId}

theorem thread_nil (f : γ → List NodeId → Walk.Result) (cs : List γ) : thread f [] cs = .ok [] := by
  cases cs <;> rfl

theorem thread_cons (f : γ → List NodeId → Walk.Result) (c : γ) (cs : List γ) (h : input ≠ []) :
    thread f input (c :: cs) = f c input >>= fun here => thread f here cs := by
  rw [thread, if_neg (by simpa using h)]

theorem union_composes (h : Composes S R) (hf : ∀ c ∈ cs, ∀ xs, S xs → R (f c xs) (g c xs)) (hin : S input) :
    R (union f input cs) (union g input cs) := by
  induction cs with
  | nil => exact h.ok h.nil
  | cons c cs ih =>
    have htail := ih fun d hd => hf d (by simp [hd])
    exact h.bind (hf c (by simp) input hin) fun here hh => h.bind htail fun rest hr => h.ok (h.append hh hr)

theorem thread_composes (h : Composes S R) (hf : ∀ c ∈ cs, ∀ xs, S xs → R (f c xs) (g c xs)) (hin : S input) :
    R (thread f input cs) (thread g input cs) := by
  induction cs generalizing input with
  | nil => exact h.ok hin
  | cons c cs ih =>
    rw [thread, thread]
    split
    · exact h.ok hin
    · exact h.bind (hf c (by simp) input hin) fun here hh => ih (fun d hd => hf d (by simp [hd])) hh

theorem firstNonEmpty_composes (h : Composes S R) (hf : ∀ c ∈ cs, ∀ xs, S xs → R (f c xs) (g c xs)) (hin : S input) :
    R (firstNonEmpty f input cs) (firstNonEmpty g input cs) := by
  induction cs with
  | nil => exact h.ok h.nil
  | cons c cs ih =>
    apply h.bind (hf c (by simp) input hin)
    intro here hh
    split
    · exact ih fun d hd => hf d (by simp [hd])
    · exact h.ok hh

theorem allOrNothing_composes (h : Composes S R) (hf : ∀ c ∈ cs, ∀ xs, S xs → R (f c xs) (g c xs)) (hin : S input)
    (hlast : S last) : R (allOrNothing f input last cs) (allOrNothing g input last cs) := by
  induction cs generalizing last with
  | nil => exact h.ok hlast
  | cons c cs ih =>
    apply h.bind (hf c (by simp) input hin)
    intro here hh
    split
    · exact h.ok h.nil
    · exact ih (fun d hd => hf d (by simp [hd])) hh

theorem merge_composes (c : Combinator) (h : Composes S R) (hf : ∀ e ∈ cs, ∀ xs, S xs → R (f e xs) (g e xs))
    (hin : S input) : R (c.merge cs input f) (c.merge cs input g) := by
  cases c with
  | multi => exact union_composes h hf hin
  | chain => exact thread_composes h hf hin
  | or => exact firstNonEmpty_composes h hf hin
  | and => exact allOrNothing_composes h hf hin h.nil

theorem union_congr (h : ∀ c ∈ cs, f c xs = g c ys) : union f xs cs = union g ys cs := by
  induction cs with
  | nil => rfl
  | cons c cs ih => rw [union, union, h c (by simp), ih fun d hd => h d (by simp [hd])]

theorem firstNonEmpty_congr (h : ∀ c ∈ cs, f c xs = g c ys) : firstNonEmpty f xs cs = firstNonEmpty g ys cs := by
  induction cs with
  | nil => rfl
  | cons c cs ih => rw [firstNonEmpty, firstNonEmpty, h c (by simp), ih fun d hd => h d (by simp [hd])]

theorem allOrNothing_congr (h : ∀ c ∈ cs, f c xs = g c ys) : allOrNothing f xs last cs = allOrNothing g ys last cs := by
  induction cs generalizing last with
  | nil => rfl
  | cons c cs ih =>
    have htail : ∀ here, allOrNothing f xs here cs = allOrNothing g ys here cs :=
      fun here => ih fun d hd => h d (by simp [hd])
    simp only [allOrNothing, h c (by simp), htail]

theorem merge_congr {c : Combinator} (hc : c ≠ .chain) (h : ∀ e ∈ cs, f e xs = g e ys) :
    c.merge cs xs f = c.merge cs ys g := by
  cases c with
  | multi => exact union_congr h
  | chain => exact absurd rfl hc
  | or => exact firstNonEmpty_congr h
  | and => exact allOrNothing_congr h

end Combinator
end YamlQuery.Path
