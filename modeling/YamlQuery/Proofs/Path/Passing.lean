import YamlQuery.Proofs.Path.Stacks
/-!
Every expression of the grammar passes the two stacks, and leaves its tree on them.
-/
namespace YamlQuery.Path
open Path.Expr Machine Grammar

namespace Sentence

theorem Grouped.append {ts us : List Token} {ss rs : List Symbol} (ht : Grouped ts ss) (hu : Grouped us rs)
    (he : ∀ ls, EndsNumber (us.map (·.kind) ++ ls)) : Grouped (ts ++ us) (ss ++ rs) := by
  intro f rest hr
  have hur : EndsNumber ((us ++ rest).map (·.kind)) := by
    rw [List.map_append]
    exact he _
  rw [List.append_assoc, ht f (us ++ rest) hur, hu f rest hr, prepend_prepend]

theorem Grouped.sign {t : Token} {s : Span → Symbol} (h : Sign t.kind s) : Grouped [t] [s t.span] :=
  grouped_of_piece (fun _ _ => .sign h) rfl

theorem sign_of_operator {t : Token} {op : Operator} (h : t.kind = op.kind) : Sign t.kind fun sp => .operator op sp.start :=
  h ▸ .operator op

def slashesOf (ts : List Token) : List Symbol := ts.map fun t => .slash t.span

theorem Grouped.slashes {ts : List Token} {n : Nat} (h : ts.map (·.kind) = List.replicate n .slash) :
    Grouped ts (slashesOf ts) := by
  induction n generalizing ts with
  | zero =>
    obtain rfl : ts = [] := by simpa using h
    intro f rest _
    simp [prepend, slashesOf]
  | succ n ih =>
    obtain ⟨⟨k, sp⟩, us, rfl, hk, hu⟩ := List.map_eq_cons_iff.1 h
    obtain rfl : k = .slash := hk
    intro f rest hr
    rw [List.cons_append, ← List.singleton_append, ofTokens_piece (.sign .slash), ih hu f rest hr]
    rfl

theorem endsNumber_cons {k : TokenKind} (h : k ≠ .colon) (ls : List TokenKind) : EndsNumber (k :: ls) := by
  intro text ms he
  exact h (List.cons.inj he).1

end Sentence

namespace Grammar
open Sentence

theorem StepText.endsNumber {ks : List TokenKind} {es : List Expr} (h : StepText ks es) (ls : List TokenKind) :
    EndsNumber (ks ++ ls) := by
  cases h with
  | word h => cases h <;> exact endsNumber_cons (by simp) _
  | key h => cases h <;> exact endsNumber_cons (by simp) _
  | sibling h =>
    intro text ms he
    cases h <;> simp at he
  | index | range | indices | slice => exact endsNumber_cons (by simp) _

theorem Derives.endsNumber {p : Phrase} {ks : List TokenKind} {es : List Expr} (h : Derives p ks es)
    (ls : List TokenKind) : EndsNumber (ks ++ ls) := by
  induction h generalizing ls with
  | step h => exact h.endsNumber ls
  | group | root => exact endsNumber_cons (by simp) _
  | first _ ih | bare _ ih | single _ ih => exact ih ls
  | next _ _ _ ih | filtered _ _ ih | more _ _ ih =>
    rw [List.append_assoc]
    exact ih _

theorem slashes_endsNumber {ks : List TokenKind} (n : Nat) (h : ∀ ls, EndsNumber (ks ++ ls)) (ls : List TokenKind) :
    EndsNumber (List.replicate n .slash ++ ks ++ ls) := by
  cases n with
  | zero => simpa using h ls
  | succ n => exact endsNumber_cons (by simp) _

def Below (n : Nat) : List Pending → Prop
  | .operator op _ :: _ => op.precedence < n
  | _ => True

/-- Folding down to precedence `n` leaves `a` on the stacks `ps` and `es`. -/
def Settles (n : Nat) (m : Machine) (ps : List Pending) (a : Expr) (es : List Expr) : Prop :=
  m.afterOperand = true ∧ Machine.foldWhile n m.pending m.operands = .ok (ps, a :: es)

theorem foldWhile_below {n : Nat} {ps : List Pending} (es : List Expr) (h : Below n ps) :
    Machine.foldWhile n ps es = .ok (ps, es) := by
  match ps with
  | [] => rfl
  | .group .. :: _ => rfl
  | .operator op m :: ps =>
    have hlt : op.precedence < n := h
    simp [Machine.foldWhile, hlt]

theorem foldWhile_foldWhile {m n : Nat} {ps ps' : List Pending} {es es' : List Expr} (hmn : m ≤ n)
    (h : Machine.foldWhile n ps es = .ok (ps', es')) : Machine.foldWhile m ps es = Machine.foldWhile m ps' es' := by
  induction ps generalizing es with
  | nil =>
    cases h
    rfl
  | cons p ps ih =>
    cases p with
    | group =>
      cases h
      rfl
    | operator op mark =>
      by_cases hlt : op.precedence < n
      · simp only [Machine.foldWhile, hlt, ↓reduceIte, Except.ok.injEq, Prod.mk.injEq] at h
        obtain ⟨rfl, rfl⟩ := h
        rfl
      · have hlt' : ¬op.precedence < m := by omega
        cases hf : fold op mark es with
        | error e => simp [Machine.foldWhile, hlt, hf, bind, Except.bind] at h
        | ok es₁ =>
          simp only [Machine.foldWhile, hlt, ↓reduceIte, hf, bind, Except.bind] at h
          rw [Machine.foldWhile, if_neg hlt', hf]
          exact ih h

theorem Settles.loosen {m n : Nat} {c : Machine} {ps : List Pending} {a : Expr} {es : List Expr} (h : Settles n c ps a es)
    (hmn : m ≤ n) (hb : Below m ps) : Settles m c ps a es :=
  ⟨h.1, by rw [foldWhile_foldWhile hmn h.2, foldWhile_below _ hb]⟩

theorem Below.mono {m n : Nat} {ps : List Pending} (h : Below m ps) (hmn : m ≤ n) : Below n ps := by
  match ps with
  | [] => trivial
  | .group .. :: _ => trivial
  | .operator op mark :: ps => exact Nat.lt_of_lt_of_le h hmn

/-- How the symbols of a phrase change the stacks. Steps are pushed one by one; longer phrases end in a state that
settles to their tree. -/
def Passes : Phrase → List Symbol → List Expr → Prop
  | .item, ss, es => (∀ next, isTrailing (ss ++ next) = false) ∧
      ∀ (next : List Symbol) (m : Machine), (m.afterOperand = true → m.operands ≠ []) →
        ∃ bs, bs.map unmarked = es ∧ run (ss ++ next) m = run next (pushSteps bs m)
  | .steps, ss, es => ∀ (next : List Symbol) (os : List Expr) (ps : List Pending),
      ∃ a, a.unmarked = gather .chain es ∧ run (ss ++ next) ⟨os, ps, false⟩ = run next ⟨a :: os, ps, true⟩
  | .chain, ss, es => ∀ (next : List Symbol) (os : List Expr) (ps : List Pending), isTrailing next = true →
      ∃ a, a.unmarked = gather .chain es ∧ run (ss ++ next) ⟨os, ps, false⟩ = run next ⟨a :: os, ps, true⟩
  | .series op, ss, es => ∀ (next : List Symbol) (os : List Expr) (ps : List Pending), isTrailing next = true →
      Below op.precedence ps → ∃ m a, a.unmarked = gather op.combinator es ∧
        run (ss ++ next) ⟨os, ps, false⟩ = run next m ∧ Settles op.precedence m ps a os

theorem Passes.operand {op : Operator} {ss : List Symbol} {es : List Expr} (h : Passes (operand op) ss es)
    (next : List Symbol) (os : List Expr) (ps : List Pending) (hn : isTrailing next = true)
    (hb : Below (op.precedence + 1) ps) :
    ∃ m a, a.unmarked = (Grammar.operand op).tree es ∧ run (ss ++ next) ⟨os, ps, false⟩ = run next m ∧
      Settles (op.precedence + 1) m ps a os := by
  cases op with
  | multi =>
    obtain ⟨a, ha, hr⟩ := h next os ps hn
    exact ⟨_, a, ha, hr, rfl, foldWhile_below _ hb⟩
  | and => exact h next os ps hn hb
  | or => exact h next os ps hn hb

theorem isTrailing_slashes {ts : List Token} {next : List Symbol} (h : isTrailing next = false) :
    isTrailing (slashesOf ts ++ next) = false := by
  cases ts with
  | nil => exact h
  | cons => rfl

theorem run_slashes (ts : List Token) {next : List Symbol} (a : Expr) (os : List Expr) (ps : List Pending)
    (h : isTrailing next = false) :
    run (slashesOf ts ++ next) ⟨a :: os, ps, true⟩ = run next ⟨a :: os, ps, true⟩ := by
  induction ts with
  | nil => rfl
  | cons t ts ih =>
    rw [← ih]
    change run (.slash t.span :: (slashesOf ts ++ next)) ⟨a :: os, ps, true⟩ = _
    simp [run, take, slash, isTrailing_slashes h, bind, Except.bind]

/-- The slashes at the end of a chain are together one filter. -/
theorem run_trailing (t : Token) (ts : List Token) {next : List Symbol} (a : Expr) (os : List Expr) (ps : List Pending)
    (h : isTrailing next = true) :
    ∃ sp, run (slashesOf (t :: ts) ++ next) ⟨a :: os, ps, true⟩ =
      run next ⟨combine .chain a (.step .filterCollection sp) :: os, ps, true⟩ := by
  induction ts generalizing t with
  | nil =>
    refine ⟨t.span, ?_⟩
    change run (.slash t.span :: next) ⟨a :: os, ps, true⟩ = _
    simp [run, take, slash, h, pushStep, bind, Except.bind]
  | cons t₁ ts ih =>
    obtain ⟨sp, hs⟩ := ih t₁
    refine ⟨sp, ?_⟩
    rw [← hs]
    change run (.slash t.span :: (slashesOf (t₁ :: ts) ++ next)) ⟨a :: os, ps, true⟩ = _
    have ht : isTrailing (slashesOf (t₁ :: ts) ++ next) = false := rfl
    simp [run, take, slash, ht, bind, Except.bind]

theorem passes_steps {bs : List Expr} (h : bs ≠ []) : Passes .item (bs.map .step) (bs.map unmarked) := by
  obtain ⟨b, bs', rfl⟩ := List.exists_cons_of_ne_nil h
  exact ⟨fun _ => rfl, fun next m _ => ⟨_, rfl, run_steps _ next m⟩⟩

/-- A parenthesis closes around an expression that has settled, and its tree is pushed like a step. -/
theorem passes_group {ss : List Symbol} {es : List Expr} (m₁ m₂ : Mark) (h : Passes (.series .or) ss es) :
    Passes .item (.openParen m₁ :: (ss ++ [.closeParen m₂])) [gather .or es] := by
  refine ⟨fun _ => rfl, ?_⟩
  intro next m hm
  obtain ⟨m', a, ha, hr, hs⟩ := h (.closeParen m₂ :: next) m.operands
    (.group m.afterOperand m.operands.length m₁ :: m.pending) rfl trivial
  have hf : Machine.foldWhile 0 m'.pending m'.operands =
      .ok (.group m.afterOperand m.operands.length m₁ :: m.pending, a :: m.operands) :=
    (hs.loosen (Nat.zero_le _) trivial).2
  refine ⟨[a], congrArg (fun e => [e]) ha, ?_⟩
  have hopen : run (.openParen m₁ :: (ss ++ [.closeParen m₂]) ++ next) m = run (.closeParen m₂ :: next) m' := by
    rw [← hr]
    simp [run, take, openGroup, bind, Except.bind]
  have hclose : closeGroup m₂ m' = .ok (pushStep a m) := by
    obtain ⟨os, ps, after⟩ := m
    cases after with
    | false => simp [closeGroup, hs.1, hf, bind, Except.bind, pure, Except.pure, pushStep]
    | true =>
      obtain ⟨o, os', rfl⟩ := List.exists_cons_of_ne_nil (hm rfl)
      simp [closeGroup, hs.1, hf, bind, Except.bind, pure, Except.pure, pushStep]
  rw [hopen]
  simp [run, take, hclose, bind, Except.bind, pushSteps]

theorem passes_first {ss : List Symbol} {es : List Expr} (hne : es ≠ []) (h : Passes .item ss es) :
    Passes .steps ss es := by
  intro next os ps
  obtain ⟨bs, rfl, hr⟩ := h.2 next ⟨os, ps, false⟩ (by simp)
  obtain ⟨a, hp, ha⟩ := pushSteps_fresh bs os ps (by simpa using hne)
  exact ⟨a, ha, by rw [hr, hp]⟩

theorem passes_next {ss₁ ss₂ : List Symbol} {es fs : List Expr} (hne : es ≠ []) (h₁ : Passes .steps ss₁ es)
    (h₂ : Passes .item ss₂ fs) (ts : List Token) : Passes .steps (ss₁ ++ (slashesOf ts ++ ss₂)) (es ++ fs) := by
  intro next os ps
  obtain ⟨a, ha, hr⟩ := h₁ (slashesOf ts ++ (ss₂ ++ next)) os ps
  obtain ⟨bs, rfl, hr'⟩ := h₂.2 next ⟨a :: os, ps, true⟩ (by simp)
  obtain ⟨a', hp, ha'⟩ := pushSteps_behind bs os ps ha hne
  refine ⟨a', ha', ?_⟩
  simp only [List.append_assoc]
  rw [hr, run_slashes ts a os ps (h₂.1 next), hr', hp]

theorem passes_filtered {ss : List Symbol} {es : List Expr} (hne : es ≠ []) (h : Passes .steps ss es) (t : Token)
    (ts : List Token) : Passes .chain (ss ++ slashesOf (t :: ts)) (es ++ [.step .filterCollection {}]) := by
  intro next os ps hn
  obtain ⟨a, ha, hr⟩ := h (slashesOf (t :: ts) ++ next) os ps
  obtain ⟨sp, hs⟩ := run_trailing t ts a os ps hn
  exact ⟨_, unmarked_combine_gather ha rfl hne (by simp), by rw [List.append_assoc, hr, hs]⟩

/-- An operator waits on the stacks while the operand behind it is passed, and is folded with what is before it. -/
theorem passes_more {op : Operator} {ss₁ ss₂ : List Symbol} {es fs : List Expr} (hne : es ≠ []) (m : Mark)
    (h₁ : Passes (.series op) ss₁ es) (h₂ : Passes (operand op) ss₂ fs) :
    Passes (.series op) (ss₁ ++ (.operator op m :: ss₂)) (es ++ [(Grammar.operand op).tree fs]) := by
  intro next os ps hn hb
  obtain ⟨m₁, a, ha, hr₁, hs₁⟩ := h₁ (.operator op m :: (ss₂ ++ next)) os ps rfl hb
  obtain ⟨m₂, b, hb₂, hr₂, hs₂⟩ := h₂.operand next (a :: os) (.operator op m :: ps) hn (Nat.lt_succ_self _)
  refine ⟨m₂, combine op.combinator a b, unmarked_combine_gather ha hb₂ hne (by simp), ?_, hs₂.1, ?_⟩
  · have ht : pushOperator op m m₁ = .ok ⟨a :: os, .operator op m :: ps, false⟩ := by
      simp [pushOperator, hs₁.1, hs₁.2, bind, Except.bind, pure, Except.pure]
    rw [List.append_assoc, List.cons_append, hr₁, ← hr₂]
    simp [run, take, ht, bind, Except.bind]
  · rw [foldWhile_foldWhile (Nat.le_succ _) hs₂.2]
    simpa [Machine.foldWhile, fold, bind, Except.bind] using foldWhile_below _ hb

/-- Every phrase, wherever its tokens stand, is grouped into symbols that pass the stacks with its operands. -/
theorem Derives.passes {p : Phrase} {ks : List TokenKind} {es : List Expr} (h : Derives p ks es) {ts : List Token}
    (hk : ts.map (·.kind) = ks) : ∃ ss, Grouped ts ss ∧ Passes p ss es := by
  induction h generalizing ts with
  | step h =>
    subst hk
    obtain ⟨bs, rfl, hg⟩ := grouped_of_stepText h
    exact ⟨_, hg, passes_steps (by simpa using h.ne_nil)⟩
  | group h ih =>
    obtain ⟨t₁, us, rfl, h₁, hus⟩ := List.map_eq_cons_iff.1 hk
    obtain ⟨us, vs, rfl, hks, hvs⟩ := List.map_eq_append_iff.1 hus
    obtain ⟨t₂, rfl, h₂⟩ := List.map_eq_singleton_iff.1 hvs
    obtain ⟨ss, hg, hp⟩ := ih hks
    refine ⟨_, ?_, passes_group t₁.span.start t₂.span.start hp⟩
    have hopen : Sign t₁.kind fun sp => .openParen sp.start := h₁ ▸ .openParen
    have hclose : Sign t₂.kind fun sp => .closeParen sp.start := h₂ ▸ .closeParen
    have hc := hg.append (.sign hclose) (fun ls => endsNumber_cons (by simp [h₂]) ls)
    refine (Grouped.sign hopen).append hc ?_
    intro ls
    simpa [hks] using h.endsNumber (t₂.kind :: ls)
  | root =>
    obtain ⟨t, rfl, ht⟩ := List.map_eq_singleton_iff.1 hk
    refine ⟨[.slash t.span], Grouped.slashes (n := 1) hk, ?_⟩
    intro next os ps
    exact ⟨.step .root t.span, rfl, by simp [run, take, slash, pushStep, bind, Except.bind]⟩
  | first h ih =>
    obtain ⟨ss, hg, hp⟩ := ih hk
    exact ⟨ss, hg, passes_first h.ne_nil hp⟩
  | next n h hi ih₁ ih₂ =>
    obtain ⟨us, vs, rfl, rfl, hvs⟩ := List.map_eq_append_iff.1 hk
    obtain ⟨vs, ws, rfl, hs, rfl⟩ := List.map_eq_append_iff.1 hvs
    obtain ⟨ss₁, hg₁, hp₁⟩ := ih₁ rfl
    obtain ⟨ss₂, hg₂, hp₂⟩ := ih₂ rfl
    refine ⟨ss₁ ++ (slashesOf vs ++ ss₂), ?_, passes_next h.ne_nil hp₁ hp₂ vs⟩
    refine hg₁.append ((Grouped.slashes hs).append hg₂ hi.endsNumber) ?_
    intro ls
    rw [List.map_append, hs]
    exact slashes_endsNumber n hi.endsNumber ls
  | bare _ ih =>
    obtain ⟨ss, hg, hp⟩ := ih hk
    exact ⟨ss, hg, fun next os ps _ => hp next os ps⟩
  | filtered n h ih =>
    obtain ⟨us, vs, rfl, hks, hvs⟩ := List.map_eq_append_iff.1 hk
    obtain ⟨ss, hg, hp⟩ := ih hks
    obtain ⟨t, vs, rfl⟩ := List.exists_cons_of_ne_nil (by rintro rfl; simp at hvs : vs ≠ [])
    refine ⟨ss ++ slashesOf (t :: vs), hg.append (Grouped.slashes hvs) ?_, passes_filtered h.ne_nil hp t vs⟩
    intro ls
    rw [hvs]
    exact endsNumber_cons (by simp) _
  | @single op _ _ _ ih =>
    obtain ⟨ss, hg, hp⟩ := ih hk
    refine ⟨ss, hg, ?_⟩
    intro next os ps hn hb
    obtain ⟨m, a, ha, hr, hs⟩ := hp.operand next os ps hn (hb.mono (by omega))
    exact ⟨m, a, ha, hr, hs.loosen (by omega) hb⟩
  | @more op _ _ _ _ h ho ih₁ ih₂ =>
    obtain ⟨us, vs, rfl, hks, hvs⟩ := List.map_eq_append_iff.1 hk
    obtain ⟨t, ws, rfl, ht, hws⟩ := List.map_eq_cons_iff.1 hvs
    obtain ⟨ss₁, hg₁, hp₁⟩ := ih₁ hks
    obtain ⟨ss₂, hg₂, hp₂⟩ := ih₂ hws
    have hcolon : op.kind ≠ .colon := by cases op <;> simp [Operator.kind]
    refine ⟨_, ?_, passes_more h.ne_nil t.span.start hp₁ hp₂⟩
    refine hg₁.append ((Grouped.sign (sign_of_operator ht)).append hg₂ (hws ▸ ho.endsNumber)) ?_
    intro ls
    simpa [ht] using endsNumber_cons hcolon (ws.map (·.kind) ++ ls)

end Grammar
end YamlQuery.Path
