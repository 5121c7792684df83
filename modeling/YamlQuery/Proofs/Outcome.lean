/-!
Outcomes that may fail: when a composed one succeeds, and what its errors have in common.
-/
namespace YamlQuery.Outcome

variable {ε α β : Type}

theorem map_eq_ok {f : α → β} {x : Except ε α} {b : β} : x.map f = .ok b ↔ ∃ a, x = .ok a ∧ f a = b := by
  cases x <;> simp [Except.map]

theorem bind_eq_ok {f : α → Except ε β} {x : Except ε α} {b : β} :
    (x >>= f) = .ok b ↔ ∃ a, x = .ok a ∧ f a = .ok b := by
  cases x <;> simp [bind, Except.bind]

theorem eq_ok_of_toOption {x : Except ε α} {a : α} (h : x.toOption = some a) : x = .ok a := by
  cases x with
  | error e => cases h
  | ok b =>
    cases h
    rfl

theorem bind_ok (f : α → Except ε β) (a : α) : (Except.ok a >>= f) = f a := rfl

def Errs (E : ε → Prop) (x : Except ε α) : Prop := ∀ e, x = .error e → E e

variable {E : ε → Prop} {x : Except ε α}

theorem errs_ok (a : α) : Errs E (.ok a : Except ε α) := by
  intro e h
  simp at h

theorem errs_error {e : ε} (h : E e) : Errs E (.error e : Except ε α) := by
  intro f hf
  cases hf
  exact h

theorem Errs.bind {f : α → Except ε β} (h : Errs E x) (hf : ∀ a, x = .ok a → Errs E (f a)) : Errs E (x >>= f) := by
  cases x with
  | error e => exact errs_error (h e rfl)
  | ok a => exact hf a rfl

theorem Errs.map (h : Errs E x) (f : α → β) : Errs E (x.map f) := by
  cases x with
  | error e => exact errs_error (h e rfl)
  | ok a => exact errs_ok (f a)

theorem errs_mapM {f : β → Except ε α} {bs : List β} (h : ∀ b ∈ bs, Errs E (f b)) : Errs E (bs.mapM f) := by
  induction bs with
  | nil => exact errs_ok []
  | cons b bs ih =>
    rw [List.mapM_cons]
    refine (h b (by simp)).bind fun a _ => ?_
    exact (ih fun c hc => h c (by simp [hc])).bind fun as _ => errs_ok (a :: as)

def Safe (Q : α → Prop) (E : ε → Prop) : Except ε α → Prop
  | .ok a => Q a
  | .error e => E e

variable {Q : α → Prop} {R : β → Prop}

theorem safe_ok {a : α} (h : Q a) : Safe Q E (.ok a) := h

theorem safe_error {e : ε} (h : E e) : Safe Q E (.error e) := h

theorem Safe.errs (h : Safe Q E x) : Errs E x := by
  rintro e rfl
  exact h

theorem Safe.of_ok {a : α} (h : Safe Q E x) (ha : x = .ok a) : Q a := by
  subst ha
  exact h

theorem Safe.bind {f : α → Except ε β} (h : Safe Q E x) (hf : ∀ a, Q a → Safe R E (f a)) : Safe R E (x >>= f) := by
  cases x with
  | error e => exact safe_error h
  | ok a => exact hf a h

theorem Safe.map {f : α → β} (h : Safe Q E x) (hf : ∀ a, Q a → R (f a)) : Safe R E (x.map f) := by
  cases x with
  | error e => exact safe_error h
  | ok a => exact safe_ok (hf a h)

theorem safe_mapM {f : β → Except ε α} {bs : List β} (h : ∀ b ∈ bs, Safe Q E (f b)) :
    Safe (fun as => ∀ a ∈ as, Q a) E (bs.mapM f) := by
  induction bs with
  | nil => exact safe_ok (by simp)
  | cons b bs ih =>
    obtain ⟨hb, hbs⟩ := List.forall_mem_cons.1 h
    rw [List.mapM_cons]
    exact hb.bind fun a ha => (ih hbs).bind fun as has => safe_ok (List.forall_mem_cons.2 ⟨ha, has⟩)

end YamlQuery.Outcome
