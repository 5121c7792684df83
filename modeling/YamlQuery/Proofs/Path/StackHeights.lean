import YamlQuery.Proofs.Path.Faults
/-!
The two stacks keep in step. Every pending operator waits for a second operand, and so does every open parenthesis that
follows one, to be chained to it. Between two symbols there are as many operands as that, and one more behind an operand.
So whatever is folded has both its operands, and at the end a single one is left.
-/
namespace YamlQuery.Path
open Outcome ParseError

namespace Pending

def isOperator : Pending → Bool
  | operator .. => true
  | group .. => false

def isAttached : Pending → Bool
  | operator .. => false
  | group follows .. => follows

def folds (precedence : Nat) : Pending → Bool
  | operator op _ => precedence ≤ op.precedence
  | group .. => false

end Pending

namespace Machine
variable {failure : Option LexError} {n : Nat} {p : Pending} {ps below : List Pending} {es es' : List Expr} {m m' m₀ : Machine}
  {s : Symbol} {ss next : List Symbol} {follows : Bool} {base : Nat} {mark : Mark}

def waiting (ps : List Pending) : Nat := ps.countP Pending.isOperator + ps.countP Pending.isAttached

@[simp] theorem waiting_nil : waiting [] = 0 := rfl

@[simp] theorem waiting_operator (op : Operator) (mark : Mark) (ps : List Pending) :
    waiting (.operator op mark :: ps) = waiting ps + 1 := by
  simp [waiting, List.countP_cons, Pending.isOperator, Pending.isAttached]
  omega

@[simp] theorem waiting_group (follows : Bool) (base : Nat) (mark : Mark) (ps : List Pending) :
    waiting (.group follows base mark :: ps) = waiting ps + follows.toNat := by
  cases follows with
  | false => rfl
  | true =>
    simp [waiting, List.countP_cons, Pending.isOperator, Pending.isAttached]
    omega

/-- Between two symbols: the height of the operands, and the one that every open parenthesis has recorded. -/
structure InStep (m : Machine) : Prop where
  height : m.operands.length = waiting m.pending + m.afterOperand.toNat
  base : ∀ {follows base mark below}, .group follows base mark :: below <:+ m.pending →
    base = waiting below + follows.toNat

theorem inStep_start : InStep {} where
  height := rfl
  base h := absurd (List.suffix_nil.mp h) (List.cons_ne_nil _ _)

def joinUnder : Pending → List Expr → Except ParseError (List Expr)
  | .operator op mark, es => fold op mark es
  | .group _ _ mark, _ => .error (.unmatchedParen mark)

theorem foldWhile_cons (n : Nat) (p : Pending) (ps : List Pending) (es : List Expr) :
    foldWhile n (p :: ps) es = if p.folds n then joinUnder p es >>= foldWhile n ps else .ok (p :: ps, es) := by
  cases p with
  | group => rfl
  | operator op mark =>
    by_cases h : op.precedence < n
    · simp [foldWhile, Pending.folds, h, Nat.not_le.mpr h]
    · simp [foldWhile, Pending.folds, joinUnder, h, Nat.le_of_not_lt h]

/-- `Joins n ps es p es'`: folding `ps` at precedence `n` over the operands `es` comes to join `es'` under `p`. -/
inductive Joins (n : Nat) : List Pending → List Expr → Pending → List Expr → Prop
  | here {p : Pending} {ps : List Pending} {es : List Expr} (hp : p.folds n) : Joins n (p :: ps) es p es
  | later {p q : Pending} {ps : List Pending} {es es' es'' : List Expr} (hp : p.folds n)
    (hj : joinUnder p es = .ok es') (h : Joins n ps es' q es'') : Joins n (p :: ps) es q es''

/-- Folding fails only where a join does. -/
theorem joins_of_foldWhile_error {e : ParseError} (h : foldWhile n ps es = .error e) :
    ∃ p es', Joins n ps es p es' ∧ joinUnder p es' = .error e := by
  induction ps generalizing es with
  | nil => cases h
  | cons p ps ih =>
    rw [foldWhile_cons] at h
    split at h
    · next hp =>
      cases hj : joinUnder p es with
      | error e' =>
        rw [hj] at h
        cases h
        exact ⟨p, es, .here hp, hj⟩
      | ok es₁ =>
        rw [hj] at h
        obtain ⟨q, es', hjoins, herror⟩ := ih h
        exact ⟨q, es', .later hp hj hjoins, herror⟩
    · cases h

/-- Joining under a pending operator finds both operands, and leaves one behind those that wait. -/
theorem joinUnder_height (hp : p.folds n) (h : es.length = waiting (p :: ps) + 1) :
    ∃ es', joinUnder p es = .ok es' ∧ es'.length = waiting ps + 1 := by
  cases p with
  | group => cases hp
  | operator op mark =>
    rw [waiting_operator] at h
    match es, h with
    | b :: a :: rest, h => exact ⟨_, rfl, by simpa using h⟩

theorem Joins.joinable (h : Joins n ps es p es') (hes : es.length = waiting ps + 1) : ∃ es'', joinUnder p es' = .ok es'' := by
  induction h with
  | here hp =>
    obtain ⟨es'', hj, _⟩ := joinUnder_height hp hes
    exact ⟨es'', hj⟩
  | later hp hj _ ih =>
    obtain ⟨es₁, hj₁, hes₁⟩ := joinUnder_height hp hes
    cases hj.symm.trans hj₁
    exact ih hes₁

theorem foldWhile_leaves {ps' : List Pending} (h : es.length = waiting ps + 1) (hf : foldWhile n ps es = .ok (ps', es')) :
    ps' <:+ ps ∧ es'.length = waiting ps' + 1 := by
  induction ps generalizing es with
  | nil =>
    cases hf
    exact ⟨List.suffix_rfl, h⟩
  | cons p ps ih =>
    rw [foldWhile_cons] at hf
    split at hf
    · next hp =>
      obtain ⟨es₁, hj, hes₁⟩ := joinUnder_height hp h
      rw [hj] at hf
      obtain ⟨hps', hes'⟩ := ih hes₁ hf
      exact ⟨hps'.trans (List.suffix_cons p ps), hes'⟩
    · cases hf
      exact ⟨List.suffix_rfl, h⟩

/-- Folding behind an operand succeeds, since every join that it comes to finds both operands. What it leaves pending is in
step again. -/
theorem foldWhile_height (n : Nat) (h : es.length = waiting ps + 1) :
    ∃ ps' es', foldWhile n ps es = .ok (ps', es') ∧ ps' <:+ ps ∧ es'.length = waiting ps' + 1 := by
  cases hf : foldWhile n ps es with
  | error e =>
    obtain ⟨p, es', hjoins, herror⟩ := joins_of_foldWhile_error hf
    obtain ⟨es'', hj⟩ := hjoins.joinable h
    cases herror.symm.trans hj
  | ok r => exact ⟨r.1, r.2, rfl, foldWhile_leaves h hf⟩

/-- The stacks are in step behind `s`. What is pending there as a parenthesis was pending before, unless `s` opens it. -/
structure Advance (s : Symbol) (m m' : Machine) : Prop where
  height : m'.operands.length = waiting m'.pending + m'.afterOperand.toNat
  opened : ∀ {follows base mark below}, .group follows base mark :: below <:+ m'.pending →
    .group follows base mark :: below <:+ m.pending ∨
      s = .openParen mark ∧ m' = m.openGroup mark ∧ m'.pending = .group follows base mark :: below

theorem Advance.inStep (h : Advance s m m') (hm : m.InStep) : m'.InStep where
  height := h.height
  base := by
    intro follows base mark below hg
    obtain hg | ⟨-, rfl, hp⟩ := h.opened hg
    · exact hm.base hg
    · cases hp
      exact hm.height

theorem advance_of_suffix (h : m'.operands.length = waiting m'.pending + m'.afterOperand.toNat) (hps : m'.pending <:+ m.pending) :
    Advance s m m' where
  height := h
  opened hg := .inl (hg.trans hps)

theorem InStep.pushStep (h : m.InStep) (e : Expr) : Advance s m (m.pushStep e) := by
  have hh := h.height
  obtain ⟨es, ps, after⟩ := m
  cases after with
  | false => exact advance_of_suffix (congrArg Nat.succ hh) List.suffix_rfl
  | true =>
    cases es with
    | nil => cases hh
    | cons e' es => exact advance_of_suffix hh List.suffix_rfl

theorem InStep.slash (h : m.InStep) (span : Span) (next : List Symbol) : Advance s m (m.slash span next) := by
  unfold Machine.slash
  split
  · exact h.pushStep _
  · split
    · exact h.pushStep _
    · exact advance_of_suffix h.height List.suffix_rfl

theorem InStep.openGroup (h : m.InStep) (mark : Mark) : Advance (.openParen mark) m (m.openGroup mark) where
  height := by simpa [Machine.openGroup] using h.height
  opened := by
    intro follows base mark' below hg
    obtain hg | hg := List.suffix_cons_iff.mp hg
    · cases hg
      exact .inr ⟨rfl, rfl, rfl⟩
    · exact .inl hg

theorem InStep.pushOperator (h : m.InStep) (op : Operator) (mark : Mark) :
    Safe (Advance s m) (Reported failure) (m.pushOperator op mark) := by
  have hh := h.height
  obtain ⟨es, ps, after⟩ := m
  cases after with
  | false => exact trivial
  | true =>
    obtain ⟨ps', es', hf, hps', hes'⟩ := foldWhile_height op.precedence hh
    simp only [Machine.pushOperator, hf, bind_ok]
    refine ⟨by simpa using hes', ?_⟩
    intro follows base mark' below hg
    obtain hg | hg := List.suffix_cons_iff.mp hg
    · cases hg
    · exact .inl (hg.trans hps')

/-- The height that the parenthesis has recorded is the one found, so what it holds is a single operand. -/
theorem InStep.closeGroup (h : m.InStep) (mark : Mark) : Safe (Advance s m) (Reported failure) (m.closeGroup mark) := by
  have hh := h.height
  obtain ⟨es, ps, after⟩ := m
  cases after with
  | false =>
    match ps with
    | [] | .operator .. :: _ | .group .. :: _ => exact trivial
  | true =>
    obtain ⟨ps', es', hf, hps', hes'⟩ := foldWhile_height 0 hh
    simp only [Machine.closeGroup, hf, bind_ok]
    match ps', hps', hes' with
    | [], _, _ | .operator .. :: _, _, _ => exact trivial
    | .group follows base start :: below, hps', hes' =>
      have hbase := h.base hps'
      have hbelow : below <:+ ps := (List.suffix_cons _ below).trans hps'
      rw [waiting_group, ← hbase] at hes'
      simp only [hes', ne_eq, not_true_eq_false, ↓reduceIte]
      cases follows with
      | false => exact advance_of_suffix (by simpa [hbase] using hes') hbelow
      | true =>
        match es', hes' with
        | [_], hes' => simp [hbase] at hes'
        | inner :: outer :: rest, hes' => exact advance_of_suffix (by simpa [hbase] using hes') hbelow

theorem InStep.take (h : m.InStep) (s : Symbol) (next : List Symbol) :
    Safe (Advance s m) (Reported failure) (m.take s next) := by
  cases s with
  | step e => exact h.pushStep e
  | slash span => exact h.slash span next
  | operator op mark => exact h.pushOperator op mark
  | openParen mark => exact h.openGroup mark
  | closeParen mark => exact h.closeGroup mark

theorem InStep.advance (h : m.InStep) (ht : m.take s next = .ok m') : Advance s m m' := by
  have hsafe : Safe (Advance s m) (Reported none) (m.take s next) := h.take s next
  exact hsafe.of_ok ht

inductive Reaches (ss : List Symbol) (m₀ : Machine) : List Symbol → Machine → Prop
  | start : Reaches ss m₀ ss m₀
  | take {s : Symbol} {next : List Symbol} {m m' : Machine} (h : Reaches ss m₀ (s :: next) m) (ht : m.take s next = .ok m') :
    Reaches ss m₀ next m'

theorem Reaches.inStep (h : Reaches ss m₀ next m) (h₀ : m₀.InStep) : m.InStep := by
  induction h with
  | start => exact h₀
  | take _ ht ih => exact (ih.advance ht).inStep ih

/-- Every parenthesis still open has recorded the machine at its opening: whether an operand stands before it, and the
height of the operands there. -/
theorem Reaches.opened (h : Reaches ss {} next m) (hg : .group follows base mark :: below <:+ m.pending) :
    ∃ opened rest, Reaches ss {} (.openParen mark :: rest) opened ∧ Reaches rest (opened.openGroup mark) next m ∧
      opened.pending = below ∧ opened.afterOperand = follows ∧ opened.operands.length = base := by
  induction h with
  | start => exact absurd (List.suffix_nil.mp hg) (List.cons_ne_nil _ _)
  | @take s next m m' h ht ih =>
    obtain hg | ⟨rfl, rfl, hp⟩ := ((h.inStep inStep_start).advance ht).opened hg
    · obtain ⟨opened, rest, hopen, hreach, hrecorded⟩ := ih hg
      exact ⟨opened, rest, hopen, hreach.take ht, hrecorded⟩
    · cases hp
      exact ⟨m, next, h, .start, rfl, rfl, rfl⟩

/-- A run passes through what it reaches, and never leaves operands that no operator joins. -/
theorem Reaches.safe_run (h : Reaches ss {} next m) : Safe (Reaches ss {} []) (Reported failure) (run next m) := by
  induction next generalizing m with
  | nil => exact h
  | cons s next ih =>
    have hsafe : Safe (Advance s m) (Reported failure) (m.take s next) := (h.inStep inStep_start).take s next
    rw [run]
    cases ht : m.take s next with
    | error e =>
      rw [ht] at hsafe
      exact hsafe
    | ok m' => exact ih (h.take ht)

theorem reaches_of_run (h : run ss {} = .ok m) : Reaches ss {} [] m := by
  have hsafe : Safe (Reaches ss {} []) (Reported none) (run ss {}) := Reaches.start.safe_run
  exact hsafe.of_ok h

theorem InStep.errs_finish (h : m.InStep) (stop : Mark) : Errs (Reported failure) (m.finish stop) := by
  have hh := h.height
  obtain ⟨es, ps, after⟩ := m
  match after, ps with
  | false, .group .. :: _ | false, .operator .. :: _ => exact errs_error trivial
  | false, [] =>
    cases List.length_eq_zero_iff.mp hh
    exact errs_error trivial
  | true, ps =>
    obtain ⟨ps', es', hf, -, hes'⟩ := foldWhile_height 0 hh
    simp only [Machine.finish, hf, bind_ok]
    match ps', hes' with
    | _ :: _, _ => exact errs_error trivial
    | [], hes' =>
      obtain ⟨e, rfl⟩ := List.length_eq_one_iff.mp hes'
      exact errs_ok e

structure Balanced (ss next : List Symbol) (m : Machine) : Prop where
  height : m.operands.length =
    m.pending.countP Pending.isOperator + m.pending.countP Pending.isAttached + m.afterOperand.toNat
  opened : ∀ {follows base mark below}, .group follows base mark :: below <:+ m.pending →
    ∃ opened rest, Reaches ss {} (.openParen mark :: rest) opened ∧ Reaches rest (opened.openGroup mark) next m ∧
      opened.pending = below ∧ opened.afterOperand = follows ∧ opened.operands.length = base
  /-- Wherever an operator, a closing parenthesis or the end folds what is pending, there is something to join. -/
  joinable : m.afterOperand = true ∨ m.pending = [] → ∀ {n p es}, Joins n m.pending m.operands p es →
    ∃ es', joinUnder p es = .ok es'

theorem Reaches.balanced (h : Reaches ss {} next m) : Balanced ss next m where
  height := (h.inStep inStep_start).height
  opened := h.opened
  joinable := by
    have hh := (h.inStep inStep_start).height
    rintro (hafter | hnone) n p es hj
    · rw [hafter] at hh
      exact hj.joinable hh
    · rw [hnone] at hj
      cases hj

end Machine

theorem Sentence.errs_parse {failure : Option LexError} {s : Sentence} (h : Errs (Reported failure) s.ending) :
    Errs (Reported failure) s.parse := by
  have hrun : Safe (Machine.Reaches s.symbols {} []) (Reported failure) (Machine.run s.symbols {}) :=
    Machine.Reaches.start.safe_run
  refine Errs.bind hrun.errs fun m hm => ?_
  refine h.bind fun stop _ => ?_
  exact ((Machine.reaches_of_run hm).inStep Machine.inStep_start).errs_finish stop

namespace Parsed

def symbols (bytes : List UInt8) : List Symbol :=
  (Sentence.ofTokens (Lexed.ofBytes bytes).failure none (Lexed.ofBytes bytes).tokens).symbols

theorem errs_ofBytes (bytes : List UInt8) : Errs (Reported (Lexed.ofBytes bytes).failure) (ofBytes bytes) := by
  have hparse := Sentence.errs_parse (Sentence.errs_ofTokens (Lexed.ofBytes bytes).failure none (Lexed.ofBytes bytes).tokens)
  exact hparse.bind fun _ _ => errs_ok _

/-- Whatever the bytes, the stacks are balanced between any two symbols, and no parse ends with operands that no operator
joins. -/
theorem ofBytes_balanced (bytes : List UInt8) :
    (∀ next m, Machine.Reaches (symbols bytes) {} next m → Machine.Balanced (symbols bytes) next m) ∧
      ∀ mark, ofBytes bytes ≠ .error (.incompleteExpression mark) :=
  ⟨fun _ _ h => h.balanced, fun mark h => errs_ofBytes bytes (.incompleteExpression mark) h⟩

/-- Within the parenthesis of `a(b,c`, two operands wait: one before the parenthesis and one before the comma. -/
theorem ofBytes_balanced_within :
    ∃ m, Machine.Reaches (symbols [0x61, 0x28, 0x62, 0x2C, 0x63]) {} [] m ∧
      Machine.Balanced (symbols [0x61, 0x28, 0x62, 0x2C, 0x63]) [] m ∧ m.operands.length = 3 ∧ m.pending.length = 2 := by
  have hlengths : (Machine.run (symbols [0x61, 0x28, 0x62, 0x2C, 0x63]) {}).toOption.map
      (fun m => (m.operands.length, m.pending.length)) = some (3, 2) := by decide +kernel
  obtain ⟨m, hm, hlength⟩ := Option.map_eq_some_iff.mp hlengths
  have hreach := Machine.reaches_of_run (eq_ok_of_toOption hm)
  have hes : m.operands.length = 3 := congrArg Prod.fst hlength
  have hps : m.pending.length = 2 := congrArg Prod.snd hlength
  exact ⟨m, hreach, (ofBytes_balanced _).1 [] m hreach, hes, hps⟩

end Parsed
end YamlQuery.Path
