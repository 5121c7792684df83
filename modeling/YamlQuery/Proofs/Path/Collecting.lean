import YamlQuery.Path.Eval
import YamlQuery.Proofs.Outcome
/-!
Outcomes one after another. Collecting along a list succeeds if every element does, and then finds all that they find.
-/
namespace YamlQuery.Path.Walk

variable {α β : Type}

def both (x y : Result) : Result := do
  let here ← x
  return here ++ (← y)

theorem both_assoc (x y z : Result) : both (both x y) z = both x (both y z) := by
  cases x with
  | error => rfl
  | ok xs =>
    cases y with
    | error => rfl
    | ok ys =>
      cases z with
      | error => rfl
      | ok zs => exact congrArg Except.ok (List.append_assoc xs ys zs)

theorem both_nil (x : Result) : both x (.ok []) = x := by
  cases x with
  | error => rfl
  | ok xs => exact congrArg Except.ok (List.append_nil xs)

theorem nil_both (x : Result) : both (.ok []) x = x := by
  cases x <;> rfl

section collect
variable {f : α → Result} {as : List α} {a : α} {e : EvalError}

theorem collect_cons (f : α → Result) (a : α) (as : List α) : collect f (a :: as) = both (f a) (collect f as) := rfl

theorem collect_singleton (f : α → Result) (a : α) : collect f [a] = f a := both_nil (f a)

theorem collect_append (f : α → Result) (as bs : List α) :
    collect f (as ++ bs) = both (collect f as) (collect f bs) := by
  induction as with
  | nil => exact (nil_both _).symm
  | cons a as ih => rw [List.cons_append, collect_cons, collect_cons, ih, both_assoc]

theorem collect_flatMap (f : α → Result) (g : β → List α) (bs : List β) :
    collect f (bs.flatMap g) = collect (fun b => collect f (g b)) bs := by
  induction bs with
  | nil => rfl
  | cons b bs ih => rw [List.flatMap_cons, collect_append, collect_cons, ih]

theorem collect_ok {g : α → List NodeId} (h : ∀ a ∈ as, f a = .ok (g a)) : collect f as = .ok (as.flatMap g) := by
  induction as with
  | nil => rfl
  | cons a as ih =>
    rw [collect, h a (by simp), ih fun b hb => h b (by simp [hb])]
    rfl

theorem collect_eq_ok {found : List NodeId} (h : collect f as = .ok found) : ∀ a ∈ as, ∃ here, f a = .ok here := by
  induction as generalizing found with
  | nil => simp
  | cons a as ih =>
    obtain ⟨here, hhere, htail⟩ := Outcome.bind_eq_ok.1 h
    obtain ⟨rest, hrest, _⟩ := Outcome.bind_eq_ok.1 htail
    intro b hb
    rcases List.mem_cons.1 hb with rfl | hb
    · exact ⟨here, hhere⟩
    · exact ih hrest b hb

theorem collect_eq_error (h : collect f as = .error e) : ∃ a ∈ as, f a = .error e := by
  induction as with
  | nil => cases h
  | cons a as ih =>
    cases ha : f a with
    | error e' =>
      rw [collect, ha] at h
      exact ⟨a, by simp, ha.trans h⟩
    | ok here =>
      cases hrest : collect f as with
      | error e' =>
        rw [collect, ha, hrest] at h
        cases h
        obtain ⟨b, hb, hfb⟩ := ih hrest
        exact ⟨b, by simp [hb], hfb⟩
      | ok rest =>
        rw [collect, ha, hrest] at h
        cases h

theorem collect_error (ha : a ∈ as) (h : f a = .error e) : ∃ e', collect f as = .error e' := by
  cases hc : collect f as with
  | error e' => exact ⟨e', rfl⟩
  | ok found =>
    obtain ⟨here, hhere⟩ := collect_eq_ok hc a ha
    rw [h] at hhere
    cases hhere

theorem collect_eq_ok_iff {found : List NodeId} : collect f as = .ok found ↔
    ∃ here : α → List NodeId, (∀ a ∈ as, f a = .ok (here a)) ∧ found = as.flatMap here := by
  constructor
  · intro h
    have hhere : ∀ a ∈ as, f a = .ok ((f a).toOption.getD []) := by
      intro a ha
      obtain ⟨here, hfa⟩ := collect_eq_ok h a ha
      rw [hfa]
      rfl
    rw [collect_ok hhere, Except.ok.injEq] at h
    exact ⟨_, hhere, h.symm⟩
  · rintro ⟨here, hhere, rfl⟩
    exact collect_ok hhere

/-- Collecting gives all that is found on single elements, or fails as one of them does. -/
theorem collect_outcome (f : α → Result) (as : List α) :
    (∃ here : α → List NodeId, (∀ a ∈ as, f a = .ok (here a)) ∧ collect f as = .ok (as.flatMap here)) ∨
      ∃ a ∈ as, ∃ e, f a = .error e ∧ collect f as = .error e := by
  cases hc : collect f as with
  | ok found =>
    obtain ⟨here, hhere, rfl⟩ := collect_eq_ok_iff.1 hc
    exact .inl ⟨here, hhere, rfl⟩
  | error e =>
    obtain ⟨a, ha, hfa⟩ := collect_eq_error hc
    exact .inr ⟨a, ha, e, hfa, rfl⟩

end collect
end YamlQuery.Path.Walk
