import YamlQuery.Proofs.Path.Merging
/-!
More levels change no answer. An evaluation either runs out of levels or answers the same with any larger number of them.
-/
namespace YamlQuery.Path

variable {α β : Type}

def Exceeded (x : Except EvalError α) : Prop := ∃ limit, x = .error (.depthExceeded limit)

/-- `y` is the outcome `x`, unless `x` ran out of levels. -/
def Upto (x y : Except EvalError α) : Prop := Exceeded x ∨ x = y

namespace Upto

theorem refl (x : Except EvalError α) : Upto x x := .inr rfl

theorem bind {x y : Except EvalError α} {f g : α → Except EvalError β} (h : Upto x y)
    (hf : ∀ a, x = .ok a → Upto (f a) (g a)) : Upto (x >>= f) (y >>= g) := by
  rcases h with ⟨limit, rfl⟩ | rfl
  · exact .inl ⟨limit, rfl⟩
  · cases x with
    | error e => exact .inr rfl
    | ok a => exact hf a rfl

theorem map {x y : Except EvalError α} (f : α → β) (h : Upto x y) : Upto (x.map f) (y.map f) := by
  rcases h with ⟨limit, rfl⟩ | rfl
  · exact .inl ⟨limit, rfl⟩
  · exact .inr rfl

theorem eq_of_not_exceeded {x y : Except EvalError α} (h : Upto x y) (hx : ¬Exceeded x) : y = x :=
  (h.resolve_left hx).symm

end Upto

theorem not_exceeded_ok (a : α) : ¬Exceeded (.ok a : Except EvalError α) := by
  simp [Exceeded]

theorem not_exceeded_unresolved (name : String) : ¬Exceeded (.error (.unresolvedAlias name) : Except EvalError α) := by
  simp [Exceeded]

theorem composes_upto : Composes (fun _ => True) Upto where
  ok := fun _ => .refl _
  bind := fun h hf => h.bind fun xs _ => hf xs trivial
  nil := trivial
  append := fun _ _ => trivial

structure Walk.Alike (w w' : Walk) : Prop where
  doc : w'.doc = w.doc
  follow : w'.options.followAliases = w.options.followAliases

theorem Walk.Alike.refl (w : Walk) : w.Alike w := ⟨rfl, rfl⟩

namespace Walk
variable {w w' : Walk} {n m : Nat}

theorem collect_upto {f g : α → Result} {as : List α} (h : ∀ a ∈ as, Upto (f a) (g a)) :
    Upto (collect f as) (collect g as) :=
  collect_composes composes_upto h

theorem tooDeep_exceeded (w : Walk) : Exceeded (w.tooDeep : Except EvalError α) := ⟨_, rfl⟩

theorem chase_upto (hw : w.Alike w') (hn : n ≤ m) (id : NodeId) : Upto (w.chase n id) (w'.chase m id) := by
  induction n generalizing m id with
  | zero =>
    unfold chase
    rw [hw.doc]
    cases w.doc.aliasName? id with
    | none => exact .refl _
    | some name => exact .inl w.tooDeep_exceeded
  | succ n ih =>
    obtain ⟨m, rfl⟩ := Nat.exists_eq_add_of_le' (Nat.le_trans (Nat.succ_le_succ (Nat.zero_le n)) hn)
    unfold chase
    rw [hw.doc]
    cases w.doc.aliasName? id with
    | none => exact .refl _
    | some name =>
      dsimp only
      cases w.doc.lookupAnchor? name with
      | none => exact .refl _
      | some target => exact ih (by omega) target

theorem resolve_upto (hw : w.Alike w') (hn : n ≤ m) (id : NodeId) : Upto (w.resolve n id) (w'.resolve m id) := by
  unfold resolve
  rw [hw.follow]
  split
  · exact chase_upto hw hn id
  · exact .refl _

theorem resolveAll_upto (hw : w.Alike w') (hn : n ≤ m) (ids : List NodeId) :
    Upto (w.resolveAll n ids) (w'.resolveAll m ids) :=
  collect_upto fun id _ => (resolve_upto hw hn id).map _

theorem descendants_upto (hw : w.Alike w') (hn : n ≤ m) (id : NodeId) :
    Upto (w.descendants n id) (w'.descendants m id) := by
  induction n generalizing m id with
  | zero => exact .inl w.tooDeep_exceeded
  | succ n ih =>
    obtain ⟨m, rfl⟩ := Nat.exists_eq_add_of_le' (Nat.le_trans (Nat.succ_le_succ (Nat.zero_le n)) hn)
    rw [descendants, descendants, hw.doc]
    apply collect_upto
    intro child _
    have hres := resolve_upto hw hn child
    exact hres.bind fun target _ => (ih (by omega) target).bind fun below _ => .refl _

theorem step_upto (hw : w.Alike w') (hn : n ≤ m) (s : Step) (input : List NodeId) :
    Upto (w.step n s input) (w'.step m s input) := by
  have hn' : n + 1 ≤ m + 1 := by omega
  cases s with
  | root | parent | filterCollection | filterScalar | filterSequence | filterMapping =>
    simp only [step, keepKind, hw.doc]
    exact .refl _
  | this => exact .refl _
  | everyChild =>
    simp only [step, hw.doc]
    exact resolveAll_upto hw hn' _
  | everyDescendant => exact collect_upto fun id _ => (descendants_upto hw hn id).map _
  | index i =>
    simp only [step, hw.doc]
    exact resolveAll_upto hw hn' _
  | slice s =>
    simp only [step, hw.doc]
    exact resolveAll_upto hw hn' _
  | mapKey key =>
    have hkey : w'.lookup? key = w.lookup? key := by
      funext id
      cases key <;> simp only [lookup?, hw.doc]
    simp only [step, hkey]
    exact resolveAll_upto hw hn' _
  | reference name =>
    simp only [step, hw.doc]
    cases w.doc.lookupAnchor? name with
    | none => exact .refl _
    | some target => exact (resolve_upto hw hn' target).map _

theorem merge_upto {γ : Type} {f g : γ → List NodeId → Result} (c : Combinator) (h : ∀ e input, Upto (f e input) (g e input))
    (es : List γ) (input : List NodeId) : Upto (c.merge es input f) (c.merge es input g) :=
  c.merge_composes composes_upto (fun e _ xs _ => h e xs) trivial

theorem eval_upto (hw : w.Alike w') (hn : n ≤ m) (e : Expr) (input : List NodeId) :
    Upto (w.eval n e input) (w'.eval m e input) := by
  induction n generalizing m e input with
  | zero => exact .inl w.tooDeep_exceeded
  | succ n ih =>
    obtain ⟨m, rfl⟩ := Nat.exists_eq_add_of_le' (Nat.le_trans (Nat.succ_le_succ (Nat.zero_le n)) hn)
    cases e with
    | step s sp => exact step_upto hw (by omega) s input
    | join c es sp => exact merge_upto c (fun e input => ih (by omega) e input) es input

end Walk

namespace Expr

/-- A larger limit keeps the nodes that were found, in their order and number, and keeps an alias that refers to
nothing. -/
theorem execute_raised {limit limit' : Nat} (h : limit ≤ limit') (e : Expr) (doc : Document) (start : NodeId)
    (follow : Bool) :
    (∀ found, e.execute doc start ⟨follow, limit⟩ = .ok found → e.execute doc start ⟨follow, limit'⟩ = .ok found) ∧
      ∀ name, e.execute doc start ⟨follow, limit⟩ = .error (.unresolvedAlias name) →
        e.execute doc start ⟨follow, limit'⟩ = .error (.unresolvedAlias name) := by
  have hupto : Upto (e.execute doc start ⟨follow, limit⟩) (e.execute doc start ⟨follow, limit'⟩) :=
    @Walk.eval_upto ⟨doc, ⟨follow, limit⟩⟩ ⟨doc, ⟨follow, limit'⟩⟩ _ _ ⟨rfl, rfl⟩ (Nat.succ_le_succ h) e [start]
  constructor
  · intro found hfound
    rw [hfound] at hupto
    exact hupto.eq_of_not_exceeded (not_exceeded_ok found)
  · intro name hname
    rw [hname] at hupto
    exact hupto.eq_of_not_exceeded (not_exceeded_unresolved name)

/-- A list of a scalar, an alias of it and an alias of nothing: by index from the first two, by a step from the third. -/
theorem execute_raised_shallow :
    let doc : Document := {
      nodes := #[{ content := .sequence [1, 2, 3] }, { content := .scalar "x" .plain }, { content := .reference "a" },
        { content := .reference "gone" }]
      anchors := ⟨[("a", 1)]⟩ }
    let pick (i j : Int64) : Expr := .join .multi [.step (.index i) {}, .step (.index j) {}] {}
    1 ≤ 256 ∧ (pick 1 0).execute doc 0 ⟨true, 1⟩ = .ok [1, 1] ∧ (pick 1 0).execute doc 0 ⟨true, 256⟩ = .ok [1, 1] ∧
      (pick 0 2).execute doc 0 ⟨true, 1⟩ = .error (.unresolvedAlias "gone") ∧
      (pick 0 2).execute doc 0 ⟨true, 256⟩ = .error (.unresolvedAlias "gone") := by
  intro doc pick
  have hle : 1 ≤ 256 := by decide
  have hfound : (pick 1 0).execute doc 0 ⟨true, 1⟩ = .ok [1, 1] := rfl
  have hgone : (pick 0 2).execute doc 0 ⟨true, 1⟩ = .error (.unresolvedAlias "gone") := rfl
  exact ⟨hle, hfound, (execute_raised hle (pick 1 0) doc 0 true).1 [1, 1] hfound, hgone,
    (execute_raised hle (pick 0 2) doc 0 true).2 "gone" hgone⟩

end Expr
end YamlQuery.Path
