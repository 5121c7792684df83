import YamlQuery.Proofs.Path.Grouping
/-!
The two stacks against the grammar. What is pending holds, innermost first, the phrases that have been begun; what has
been read is their text in front of the phrase being read. Every symbol keeps this, and every phrase passes through
the stacks as its tree.
-/
namespace YamlQuery.Path.Grammar
open Path.Expr Machine

theorem StepText.ne_nil {ks : List TokenKind} {es : List Expr} (h : StepText ks es) : es ≠ [] := by
  cases h <;> simp

theorem Derives.ne_nil {p : Phrase} {ks : List TokenKind} {es : List Expr} (h : Derives p ks es) : es ≠ [] := by
  induction h with
  | step h => exact h.ne_nil
  | group | root | filtered | single | more => simp
  | first _ ih | bare _ ih => exact ih
  | next _ _ _ ih => simp [ih]

theorem operator_precedence_pos (op : Operator) : 0 < op.precedence := by
  cases op <;> simp [Operator.precedence]

theorem Spells.single (op : Operator) {ks : List TokenKind} {e : Expr} (h : Spells (operand op) ks e) :
    Spells (.series op) ks e := by
  obtain ⟨es, he, rfl⟩ := h
  exact ⟨_, .single he, rfl⟩

theorem Spells.join {op : Operator} {ks ls : List TokenKind} {a b : Expr} (ha : Spells (.series op) ks a.unmarked)
    (hb : Spells (operand op) ls b.unmarked) :
    Spells (.series op) (ks ++ op.kind :: ls) (combine op.combinator a b).unmarked := by
  obtain ⟨as, has, ha⟩ := ha
  obtain ⟨bs, hbs, hb⟩ := hb
  refine ⟨_, .more has hbs, ?_⟩
  rw [← hb]
  exact unmarked_combine_gather ha rfl has.ne_nil (by simp)

inductive Tight (n : Nat) (ks : List TokenKind) (e : Expr) : Prop
  | chain (h : Spells .chain ks e)
  | series (op : Operator) (hn : n ≤ op.precedence) (h : Spells (.series op) ks e)

theorem Tight.operand {op : Operator} {ks : List TokenKind} {e : Expr} (h : Tight (op.precedence + 1) ks e) :
    Spells (Grammar.operand op) ks e := by
  cases h with
  | chain h =>
    have hm : Spells (.series .multi) ks e := Spells.single .multi h
    cases op with
    | multi => exact h
    | and => exact hm
    | or => exact Spells.single .and hm
  | series op' hn h =>
    cases op <;> cases op' <;> simp only [Operator.precedence] at hn <;> try omega
    · exact h
    · exact Spells.single .and h
    · exact h

theorem Tight.spells {op : Operator} {ks : List TokenKind} {e : Expr} (h : Tight op.precedence ks e) :
    Spells (.series op) ks e := by
  cases h with
  | chain h => exact .single op (Tight.operand (.chain h))
  | series op' hn h =>
    by_cases hop : op' = op
    · exact hop ▸ h
    · have hlt : op.precedence + 1 ≤ op'.precedence := by
        cases op <;> cases op' <;> simp_all [Operator.precedence]
      exact .single op (Tight.operand (.series op' hlt h))

theorem Tight.reads {ks : List TokenKind} {e : Expr} (h : Tight 0 ks e) : Reads ks e := by
  have h1 : Tight 1 ks e := by
    cases h with
    | chain h => exact .chain h
    | series op _ h => exact .series op (operator_precedence_pos op) h
  exact Tight.spells (h1 : Tight Operator.or.precedence ks e)

/-- `Context ks p ps es`: behind the text `ks` a phrase is due whose operators bind more tightly than `p`, and `ps` and
`es` are the stacks that wait for it. -/
inductive Context : List TokenKind → Nat → List Pending → List Expr → Prop
  | start : Context [] 0 [] []
  | operator {ks ls : List TokenKind} {p : Nat} {ps : List Pending} {es : List Expr} {a : Expr} {op : Operator}
    (m : Mark) (h : Context ks p ps es) (hp : p < op.precedence) (ha : Spells (.series op) ls a.unmarked) :
    Context (ks ++ (ls ++ [op.kind])) op.precedence (.operator op m :: ps) (a :: es)
  | group {ks : List TokenKind} {p : Nat} {ps : List Pending} {es : List Expr} (m : Mark) (h : Context ks p ps es) :
    Context (ks ++ [.openParen]) 0 (.group false es.length m :: ps) es
  | groupBehind {ks ls : List TokenKind} {p : Nat} {ps : List Pending} {es : List Expr} {a : Expr} (m : Mark) (n : Nat)
    (h : Context ks p ps es) (ha : Spells .steps ls a.unmarked) :
    Context (ks ++ (ls ++ (List.replicate n .slash ++ [.openParen]))) 0 (.group true (a :: es).length m :: ps) (a :: es)

/-- Folding takes in the pending operators that bind at least as tightly as `q`; what it leaves is a context again. -/
theorem Context.foldWhile {ks : List TokenKind} {p : Nat} {ps : List Pending} {es : List Expr}
    (h : Context ks p ps es) {q : Nat} {ls : List TokenKind} {a : Expr} {ps' : List Pending} {es' : List Expr}
    (hp : Tight (p + 1) ls a.unmarked) (hq : Tight q ls a.unmarked)
    (hf : Machine.foldWhile q ps (a :: es) = .ok (ps', es')) :
    ∃ ks' p' ls' a' es₀, ks ++ ls = ks' ++ ls' ∧ es' = a' :: es₀ ∧ Context ks' p' ps' es₀ ∧ (p' < q ∨ p' = 0) ∧
      Tight q ls' a'.unmarked := by
  induction h generalizing ls a with
  | start =>
    cases hf
    exact ⟨[], 0, ls, a, [], rfl, rfl, .start, .inr rfl, hq⟩
  | group m h _ =>
    cases hf
    exact ⟨_, 0, ls, a, _, rfl, rfl, .group m h, .inr rfl, hq⟩
  | groupBehind m n h ha _ =>
    cases hf
    exact ⟨_, 0, ls, a, _, rfl, rfl, .groupBehind m n h ha, .inr rfl, hq⟩
  | @operator ks ks₁ p₀ ps es b op m h hp₀ hb ih =>
    by_cases hlt : op.precedence < q
    · simp only [Machine.foldWhile, hlt, ↓reduceIte, Except.ok.injEq, Prod.mk.injEq] at hf
      obtain ⟨rfl, rfl⟩ := hf
      exact ⟨_, op.precedence, ls, a, _, rfl, rfl, .operator m h hp₀ hb, .inl hlt, hq⟩
    · simp only [Machine.foldWhile, hlt, ↓reduceIte, fold, bind, Except.bind] at hf
      have hj : Spells (.series op) (ks₁ ++ op.kind :: ls) (b.combine op.combinator a).unmarked := hb.join hp.operand
      obtain ⟨ks', p', ls', a', es₀, hks, hes, hc, hp', ht⟩ := ih (.series op (by omega) hj) (.series op (by omega) hj) hf
      exact ⟨ks', p', ls', a', es₀, by simpa using hks, hes, hc, hp', ht⟩

def pushSteps (es : List Expr) (m : Machine) : Machine := es.foldl (fun m e => m.pushStep e) m

theorem run_steps (es : List Expr) (ss : List Symbol) (m : Machine) :
    run (es.map .step ++ ss) m = run ss (pushSteps es m) := by
  induction es generalizing m with
  | nil => rfl
  | cons e es ih => simpa [run, take, bind, Except.bind, pushSteps] using ih (m.pushStep e)

theorem pushSteps_behind (bs : List Expr) {a : Expr} {as : List Expr} (es : List Expr) (ps : List Pending)
    (ha : a.unmarked = gather .chain as) (has : as ≠ []) :
    ∃ a', pushSteps bs ⟨a :: es, ps, true⟩ = ⟨a' :: es, ps, true⟩ ∧
      a'.unmarked = gather .chain (as ++ bs.map unmarked) := by
  induction bs generalizing a as with
  | nil => exact ⟨a, rfl, by simpa using ha⟩
  | cons b bs ih =>
    have hb : (combine .chain a b).unmarked = gather .chain (as ++ [b.unmarked]) :=
      unmarked_combine_gather ha rfl has (by simp)
    obtain ⟨a', hp, ha'⟩ := ih hb (by simp)
    exact ⟨a', hp, by simpa using ha'⟩

theorem pushSteps_fresh (bs : List Expr) (es : List Expr) (ps : List Pending) (hbs : bs ≠ []) :
    ∃ a, pushSteps bs ⟨es, ps, false⟩ = ⟨a :: es, ps, true⟩ ∧ a.unmarked = gather .chain (bs.map unmarked) := by
  match bs with
  | b :: bs =>
    have hb : b.unmarked = gather .chain [b.unmarked] := rfl
    obtain ⟨a, hp, ha⟩ := pushSteps_behind bs es ps hb (by simp)
    exact ⟨a, hp, by simpa using ha⟩

/-- `Reading next ks m`: the symbols of `ks` have led to the machine `m`, and `next` follows. Slashes behind steps wait
for the step behind them; those at the end of a chain have become its filter. -/
inductive Reading (next : List Symbol) : List TokenKind → Machine → Prop
  | fresh {ks : List TokenKind} {p : Nat} {ps : List Pending} {es : List Expr} (h : Context ks p ps es) :
    Reading next ks ⟨es, ps, false⟩
  | steps {ks ls : List TokenKind} {p : Nat} {ps : List Pending} {es : List Expr} {a : Expr} (n : Nat)
    (h : Context ks p ps es) (ha : Spells .steps ls a.unmarked) (hn : isTrailing next = false) :
    Reading next (ks ++ (ls ++ List.replicate n .slash)) ⟨a :: es, ps, true⟩
  | chain {ks ls : List TokenKind} {p : Nat} {ps : List Pending} {es : List Expr} {a : Expr}
    (h : Context ks p ps es) (ha : Spells .chain ls a.unmarked) (hn : isTrailing next = true) :
    Reading next (ks ++ ls) ⟨a :: es, ps, true⟩

theorem Reading.ofSteps {next : List Symbol} {ks ls : List TokenKind} {p : Nat} {ps : List Pending} {es : List Expr}
    {a : Expr} (h : Context ks p ps es) (ha : Spells .steps ls a.unmarked) :
    Reading next (ks ++ ls) ⟨a :: es, ps, true⟩ := by
  cases hn : isTrailing next with
  | true =>
    obtain ⟨as, has, ha⟩ := ha
    exact .chain h ⟨as, .bare has, ha⟩ hn
  | false => simpa using Reading.steps 0 h ha hn

variable {next : List Symbol} {ks ls : List TokenKind} {m m' : Machine}

theorem Reading.take_steps {es : List Expr} (hi : Derives .item ls (es.map unmarked))
    (h : Reading (es.map .step ++ next) ks m) : Reading next (ks ++ ls) (pushSteps es m) := by
  have hes : es ≠ [] := by simpa using hi.ne_nil
  obtain ⟨e, es', rfl⟩ := List.exists_cons_of_ne_nil hes
  cases h with
  | @fresh _ p ps os h =>
    obtain ⟨a, hp, ha⟩ := pushSteps_fresh (e :: es') os ps hes
    rw [hp]
    exact .ofSteps h ⟨_, .first hi, ha⟩
  | @steps ks ls₁ p ps os a n h hs hn =>
    obtain ⟨as, has, ha⟩ := hs
    obtain ⟨a', hp, ha'⟩ := pushSteps_behind (e :: es') os ps ha has.ne_nil
    rw [hp]
    simpa using Reading.ofSteps h ⟨_, .next n has hi, ha'⟩
  | chain _ _ hn => simp [isTrailing] at hn

theorem Reading.take_slash {sp : Span} (h : Reading (.slash sp :: next) ks m) :
    Reading next (ks ++ [.slash]) (m.slash sp next) := by
  cases h with
  | fresh h => exact .ofSteps h ⟨_, .root, rfl⟩
  | @steps ks ls₁ p ps os a n h hs hn =>
    cases ht : isTrailing next with
    | true =>
      obtain ⟨as, has, ha⟩ := hs
      obtain ⟨a', hp, ha'⟩ := pushSteps_behind [.step .filterCollection sp] os ps ha has.ne_nil
      have hr : Reading next (ks ++ (ls₁ ++ List.replicate (n + 1) .slash)) ⟨a' :: os, ps, true⟩ :=
        .chain h ⟨_, .filtered n has, ha'⟩ ht
      have hm : slash sp next ⟨a :: os, ps, true⟩ = ⟨a' :: os, ps, true⟩ := by
        rw [← hp]
        simp [slash, ht, pushSteps]
      rw [hm]
      simpa [List.replicate_succ'] using hr
    | false =>
      have hr := Reading.steps (n + 1) h hs ht
      have hm : slash sp next ⟨a :: os, ps, true⟩ = ⟨a :: os, ps, true⟩ := by simp [slash, ht]
      rw [hm]
      simpa [List.replicate_succ'] using hr
  | chain _ _ hn => simp [isTrailing] at hn

theorem Reading.take_operator {op : Operator} {mark : Mark} (h : Reading (.operator op mark :: next) ks m)
    (ht : m.pushOperator op mark = .ok m') : Reading next (ks ++ [op.kind]) m' := by
  cases h with
  | fresh h => simp [pushOperator, bind, Except.bind, throw, throwThe, MonadExceptOf.throw] at ht
  | steps _ _ _ hn => simp [isTrailing] at hn
  | @chain ks ls p ps es a h ha hn =>
    cases hf : Machine.foldWhile op.precedence ps (a :: es) with
    | error e => simp [pushOperator, hf, bind, Except.bind] at ht
    | ok r =>
      obtain ⟨ps', es'⟩ := r
      simp only [pushOperator, hf, bind, Except.bind, pure, Except.pure, Bool.not_true, Bool.false_eq_true, ↓reduceIte,
        Except.ok.injEq] at ht
      obtain ⟨ks', p', ls', a', es₀, hks, rfl, hc, hp', ht'⟩ := h.foldWhile (.chain ha) (.chain ha) hf
      have hpos := operator_precedence_pos op
      subst ht
      rw [hks, List.append_assoc]
      exact .fresh (.operator mark hc (by omega) ht'.spells)

theorem Reading.take_openParen {mark : Mark} (h : Reading (.openParen mark :: next) ks m) :
    Reading next (ks ++ [.openParen]) (m.openGroup mark) := by
  cases h with
  | fresh h => exact .fresh (.group mark h)
  | steps n h ha _ => simpa [openGroup] using Reading.fresh (.groupBehind mark n h ha)
  | chain _ _ hn => simp [isTrailing] at hn

theorem Reading.take_closeParen {mark : Mark} (h : Reading (.closeParen mark :: next) ks m)
    (ht : m.closeGroup mark = .ok m') : Reading next (ks ++ [.closeParen]) m' := by
  cases h with
  | fresh h =>
    cases h <;> simp [closeGroup, bind, Except.bind, throw, throwThe, MonadExceptOf.throw] at ht
  | steps _ _ _ hn => simp [isTrailing] at hn
  | @chain ks ls p ps es a h ha hn =>
    cases hf : Machine.foldWhile 0 ps (a :: es) with
    | error e => simp [closeGroup, hf, bind, Except.bind] at ht
    | ok r =>
      obtain ⟨ps', es'⟩ := r
      obtain ⟨ks', p', ls', a', es₀, hks, rfl, hc, hp', ht'⟩ := h.foldWhile (.chain ha) (.chain ha) hf
      have hp0 : p' = 0 := by omega
      obtain ⟨bs, hbs, ha'⟩ := ht'.reads
      have hi : Derives .item (.openParen :: (ls' ++ [.closeParen])) [a'.unmarked] := ha' ▸ .group hbs
      simp only [closeGroup, hf, bind, Except.bind, pure, Except.pure, Bool.not_true, Bool.false_eq_true, ↓reduceIte]
        at ht
      rw [hks]
      cases hc with
      | start => simp [throw, throwThe, MonadExceptOf.throw] at ht
      | @operator _ _ _ _ _ _ op => exact absurd hp0 (Nat.ne_of_gt (operator_precedence_pos op))
      | group start h =>
        simp only [List.length_cons, ne_eq, not_true_eq_false, ↓reduceIte, Bool.false_eq_true, Except.ok.injEq] at ht
        subst ht
        simpa using Reading.ofSteps h ⟨_, .first hi, rfl⟩
      | @groupBehind ks₀ ls₀ _ ps₀ es₀ b start n h hb =>
        obtain ⟨as, has, hb⟩ := hb
        simp only [List.length_cons, ne_eq, not_true_eq_false, ↓reduceIte, Except.ok.injEq] at ht
        subst ht
        have hu : (combine .chain b a').unmarked = gather .chain (as ++ [a'.unmarked]) :=
          unmarked_combine_gather hb rfl has.ne_nil (by simp)
        simpa using Reading.ofSteps h ⟨_, .next n has hi, hu⟩

theorem Reading.run {ss : List Symbol} (hg : Groups ls ss) (h : Reading ss ks m) (hr : Machine.run ss m = .ok m') :
    Reading [] (ks ++ ls) m' := by
  induction hg generalizing ks m with
  | nil =>
    cases hr
    simpa using h
  | steps es ht _ ih =>
    rw [run_steps] at hr
    simpa using ih (h.take_steps (.step ht)) hr
  | slash sp _ ih => simpa using ih h.take_slash hr
  | openParen mark _ ih => simpa using ih h.take_openParen hr
  | @operator ls ss op mark _ ih =>
    obtain ⟨m₁, ht, hr⟩ := Outcome.bind_eq_ok.1 hr
    simpa using ih (h.take_operator ht) hr
  | @closeParen ls ss mark _ ih =>
    obtain ⟨m₁, ht, hr⟩ := Outcome.bind_eq_ok.1 hr
    simpa using ih (h.take_closeParen ht) hr

theorem Reading.finish {stop : Mark} {e : Expr} (h : Reading [] ks m) (hf : m.finish stop = .ok e) :
    Reads ks e.unmarked := by
  cases h with
  | fresh h =>
    cases h <;> simp [Machine.finish, Machine.foldWhile, bind, Except.bind, throw, throwThe, MonadExceptOf.throw] at hf
  | steps _ _ _ hn => simp [isTrailing] at hn
  | @chain ks ls p ps es a h ha hn =>
    cases hw : Machine.foldWhile 0 ps (a :: es) with
    | error e => simp [Machine.finish, hw, bind, Except.bind] at hf
    | ok r =>
      obtain ⟨ps', es'⟩ := r
      obtain ⟨ks', p', ls', a', es₀, hks, rfl, hc, hp', ht'⟩ := h.foldWhile (.chain ha) (.chain ha) hw
      have hp0 : p' = 0 := by omega
      rw [hks]
      cases hc with
      | start =>
        simp only [Machine.finish, hw, bind, Except.bind, pure, Except.pure, List.reverse_singleton, Except.ok.injEq] at hf
        subst hf
        simpa using ht'.reads
      | @operator _ _ _ _ _ _ op => exact absurd hp0 (Nat.ne_of_gt (operator_precedence_pos op))
      | group | groupBehind =>
        simp [Machine.finish, hw, bind, Except.bind, throw, throwThe, MonadExceptOf.throw] at hf

/-- What the stacks accept is an expression, and they give its tree. -/
theorem reads_of_run {ss : List Symbol} {stop : Mark} {e : Expr} (hg : Groups ks ss) (hr : Machine.run ss {} = .ok m)
    (hf : m.finish stop = .ok e) : Reads ks e.unmarked := by
  have h : Reading ss [] {} := .fresh .start
  simpa using (h.run hg hr).finish hf

end YamlQuery.Path.Grammar
