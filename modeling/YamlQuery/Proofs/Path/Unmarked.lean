import YamlQuery.Proofs.Outcome
import YamlQuery.Proofs.Path.Grouping
/-!
Parsing without marks. The grammar carries marks along and never looks at them: tokens without marks parse to the tree or
to the error that the tokens parse to, without its marks. So tokens of the same kinds parse alike.
-/
namespace YamlQuery.Path

def LexError.unmarked : LexError → LexError
  | invalidUtf8 _ => invalidUtf8 {}
  | partialUtf8 _ => partialUtf8 {}
  | unterminatedQuote _ => unterminatedQuote {}
  | invalidEscape _ => invalidEscape {}
  | invalidTag _ => invalidTag {}
  | unterminatedKey _ => unterminatedKey {}
  | unexpectedChar c _ => unexpectedChar c {}

def ParseError.unmarked : ParseError → ParseError
  | lex e => lex e.unmarked
  | unexpectedToken found _ => unexpectedToken found {}
  | unmatchedBracket _ => unmatchedBracket {}
  | unmatchedParen _ => unmatchedParen {}
  | missingOperand _ => missingOperand {}
  | emptyExpression _ => emptyExpression {}
  | incompleteExpression _ => incompleteExpression {}
  | numberOutOfRange text _ => numberOutOfRange text {}
  | zeroStride _ => zeroStride {}
  | invalidKey fault _ => invalidKey fault {}

section
variable {α β γ δ : Type}

def unmarkedBy (f : α → β) : Except ParseError α → Except ParseError β
  | .ok a => .ok (f a)
  | .error e => .error e.unmarked

theorem unmarkedBy_bind {f : α → β} {g : γ → δ} {k : α → Except ParseError γ} {k' : β → Except ParseError δ}
    (h : ∀ a, unmarkedBy g (k a) = k' (f a)) (x : Except ParseError α) :
    unmarkedBy g (x >>= k) = unmarkedBy f x >>= k' := by
  cases x with
  | error e => rfl
  | ok a => exact h a

theorem unmarkedBy_map {f : α → β} {g : γ → δ} {k : α → γ} {k' : β → δ} (h : ∀ a, g (k a) = k' (f a))
    (x : Except ParseError α) : unmarkedBy g (x.map k) = (unmarkedBy f x).map k' := by
  cases x with
  | error e => rfl
  | ok a => exact congrArg Except.ok (h a)

theorem unmarkedBy_mapM {f : α → β} {g : γ → δ} {k : α → Except ParseError γ} {k' : β → Except ParseError δ}
    (h : ∀ a, unmarkedBy g (k a) = k' (f a)) (as : List α) :
    unmarkedBy (List.map g) (as.mapM k) = (as.map f).mapM k' := by
  induction as with
  | nil => rfl
  | cons a as ih =>
    rw [List.map_cons, List.mapM_cons, List.mapM_cons, ← h, ← ih]
    refine unmarkedBy_bind (fun c => ?_) (k a)
    exact unmarkedBy_bind (f := List.map g) (fun cs => rfl) (as.mapM k)

end

def Token.unmarked (t : Token) : Token := ⟨t.kind, {}⟩

namespace Expr

theorem span_unmarked (e : Expr) : e.unmarked.span = {} := by cases e <;> rfl

theorem combine_unmarked (c : Combinator) (a b : Expr) : combine c a.unmarked b.unmarked = (combine c a b).unmarked := by
  rw [unmarked_combine, combine, span_unmarked, span_unmarked]
  rfl

end Expr

namespace Symbol
variable {sp : Span} {m : Mark}

def unmarked : Symbol → Symbol
  | step e => step e.unmarked
  | slash _ => slash {}
  | operator op _ => operator op {}
  | openParen _ => openParen {}
  | closeParen _ => closeParen {}

theorem integer_unmarked (text : String) (m : Mark) : unmarkedBy id (integer text m) = integer text {} := by
  unfold integer
  split <;> rfl

theorem integer_bind_unmarked {α β : Type} {g : α → β} {k : Int64 → Except ParseError α} {k' : Int64 → Except ParseError β}
    (h : ∀ n, unmarkedBy g (k n) = k' n) (text : String) (m : Mark) :
    unmarkedBy g (integer text m >>= k) = integer text {} >>= k' := by
  rw [← integer_unmarked text m]
  exact unmarkedBy_bind (f := id) h _

/-- What is made of a number forgets its marks alike. -/
theorem integer_map_unmarked {α β : Type} {g : α → β} {k : Int64 → α} {k' : Int64 → β} (h : ∀ n, g (k n) = k' n)
    (text : String) (m : Mark) : unmarkedBy g ((integer text m).map k) = (integer text {}).map k' := by
  rw [← integer_unmarked text m]
  exact unmarkedBy_map (f := id) h _

theorem keyLiteral_unmarked (text : String) (sp : Span) :
    unmarkedBy Expr.unmarked (keyLiteral text sp) = keyLiteral text {} := by
  unfold keyLiteral
  split
  · rfl
  · split <;> rfl

theorem siblingKey_unmarked (t : Token) : unmarkedBy Expr.unmarked (siblingKey t) = siblingKey t.unmarked := by
  obtain ⟨k, sp⟩ := t
  cases k with
  | keyLiteral text => exact keyLiteral_unmarked text sp
  | _ => rfl

theorem fields_unmarked (done : List (List Token)) (last items : List Token) :
    unmarkedBy (List.map (List.map Token.unmarked)) (fields done last items) =
      fields (done.map (List.map Token.unmarked)) (last.map Token.unmarked) (items.map Token.unmarked) := by
  induction items generalizing done last with
  | nil => simp [fields, unmarkedBy]
  | cons t ts ih =>
    obtain ⟨k, sp⟩ := t
    cases k with
    | colon =>
      by_cases hd : done.length = 2
      · simp [fields, hd, Token.unmarked, unmarkedBy, ParseError.unmarked]
      · simpa [fields, hd, Token.unmarked] using ih (done ++ [last.reverse]) []
    | comma => rfl
    | _ => exact ih done (_ :: last)

def unmarkedBound (v : Option (Int64 × Mark)) : Option (Int64 × Mark) := v.map fun n => (n.1, {})

theorem field_unmarked (ts : List Token) : unmarkedBy unmarkedBound (field ts) = field (ts.map Token.unmarked) := by
  match ts with
  | [] => rfl
  | [⟨k, sp⟩] =>
    cases k with
    | number text =>
      refine integer_map_unmarked (fun n => ?_) text sp.start
      rfl
    | _ => rfl
  | _ :: _ :: _ => rfl

theorem slice_unmarked (items : List Token) (sp : Span) :
    unmarkedBy Expr.unmarked (slice items sp) = slice (items.map Token.unmarked) {} := by
  unfold slice
  have hfields := fields_unmarked [] [] items
  simp only [List.map_nil] at hfields
  rw [← hfields]
  refine unmarkedBy_bind (fun fs => ?_) (fields [] [] items)
  rw [← unmarkedBy_mapM field_unmarked fs]
  refine unmarkedBy_bind (fun values => ?_) (fs.mapM field)
  have hbound : ∀ i : Nat, ((values.map unmarkedBound)[i]?).join = unmarkedBound (values[i]?).join := by
    intro i
    rw [List.getElem?_map]
    cases values[i]? <;> rfl
  have hnumber : ∀ v : Option (Int64 × Mark), (unmarkedBound v).map (·.1) = v.map (·.1) := by
    intro v
    cases v <;> rfl
  simp only [hbound, hnumber]
  cases (values[2]?).join with
  | none => rfl
  | some n =>
    obtain ⟨n, mark⟩ := n
    by_cases h0 : n = 0
    · subst h0
      rfl
    · simp only [unmarkedBound, Option.map_some, h0, ↓reduceIte]
      rfl

theorem indices_unmarked (close : Mark) (expecting : Bool) (items : List Token) :
    unmarkedBy (List.map Expr.unmarked) (indices close expecting items) =
      indices {} expecting (items.map Token.unmarked) := by
  induction items generalizing expecting with
  | nil => cases expecting <;> rfl
  | cons t ts ih =>
    obtain ⟨k, sp⟩ := t
    cases k with
    | comma =>
      cases expecting with
      | true => rfl
      | false => exact ih true
    | number text =>
      cases expecting with
      | false => rfl
      | true =>
        show unmarkedBy _ (integer text sp.start >>= fun i => indices close false ts >>= fun es => pure _) =
          integer text {} >>= fun i => indices {} false (ts.map Token.unmarked) >>= fun es => pure _
        rw [← integer_unmarked text sp.start, ← ih false]
        refine unmarkedBy_bind (fun i => ?_) (integer text sp.start)
        exact unmarkedBy_bind (f := List.map Expr.unmarked) (fun es => rfl) (indices close false ts)
    | _ => rfl

theorem bracket_unmarked (items : List Token) (close : Mark) (sp : Span) :
    unmarkedBy Expr.unmarked (bracket items close sp) = bracket (items.map Token.unmarked) {} {} := by
  have hany : (items.map Token.unmarked).any (fun t => t.kind = .colon) = items.any fun t => t.kind = .colon := by
    rw [List.any_map]
    rfl
  unfold bracket
  rw [hany]
  split
  · exact slice_unmarked items sp
  · rw [← indices_unmarked close true items]
    refine unmarkedBy_map (fun es => ?_) _
    match es with
    | [] => rfl
    | [.step _ _] => rfl
    | [.join _ _ _] => simp [Expr.unmarked, Expr.unmarkedAll]
    | _ :: _ :: _ => simp [Expr.unmarked, Expr.unmarkedAll_eq_map]

def OpenBracket.unmarked (b : OpenBracket) : OpenBracket := ⟨{}, b.items.map Token.unmarked⟩

end Symbol

namespace Sentence

def unmarked (r : Sentence) : Sentence := ⟨r.symbols.map Symbol.unmarked, unmarkedBy (fun _ => {}) r.ending⟩

theorem unmarked_fail (e : ParseError) : (fail e).unmarked = fail e.unmarked := rfl

theorem unmarked_consPiece (made : Except ParseError (List Symbol)) (r : Sentence) :
    (consPiece made r).unmarked = consPiece (unmarkedBy (List.map Symbol.unmarked) made) r.unmarked := by
  cases made with
  | error e => rfl
  | ok ss => simp [consPiece, prepend, unmarked, unmarkedBy]

theorem Sign.unmarked {k : TokenKind} {s : Span → Symbol} (h : Sign k s) (sp : Span) : (s sp).unmarked = s {} := by
  cases h <;> rfl

/-- A piece without marks. -/
theorem Piece.unmarked {b b' : Option Symbol.OpenBracket} {taken rest : List Token} {made : Except ParseError (List Symbol)}
    (h : Piece b taken rest b' made) :
    Piece (b.map Symbol.OpenBracket.unmarked) (taken.map Token.unmarked) (rest.map Token.unmarked)
      (b'.map Symbol.OpenBracket.unmarked) (unmarkedBy (List.map Symbol.unmarked) made) := by
  -- what makes the symbols of a piece forgets its marks alike
  have hstep : ∀ {x : Except ParseError Expr}, unmarkedBy (List.map Symbol.unmarked) (x.map fun e => [.step e]) =
      (unmarkedBy Expr.unmarked x).map fun e => [.step e] := by
    intro x
    cases x <;> rfl
  cases h with
  | inner h => exact .inner h
  | @close b sp =>
    rw [hstep, Symbol.bracket_unmarked, List.map_reverse]
    exact .close
  | unclosed => exact .unclosed
  | foreign hb hc hf => exact .foreign hb hc hf
  | bracket => exact .bracket
  | @sign k s sp rest hs =>
    have hsign : Piece none [⟨k, {}⟩] (rest.map Token.unmarked) none (.ok [s {}]) := .sign hs
    rw [← hs.unmarked sp] at hsign
    exact hsign
  | word h => exact .word h
  | keyLiteral =>
    rw [hstep, Symbol.keyLiteral_unmarked]
    exact .keyLiteral
  | @sibling colon t =>
    have hkey : unmarkedBy (List.map Symbol.unmarked) ((Symbol.siblingKey t).map fun key =>
        [.step (.step .parent colon), .step key]) =
        (unmarkedBy Expr.unmarked (Symbol.siblingKey t)).map fun key => [.step (.step .parent {}), .step key] := by
      cases Symbol.siblingKey t <;> rfl
    rw [hkey, Symbol.siblingKey_unmarked]
    exact .sibling
  | @number text sp rest h =>
    rw [Symbol.integer_map_unmarked fun n => rfl]
    refine .number ?_
    rw [List.map_map]
    exact h
  | @range first second sp colon sp' =>
    have hsecond : ∀ i, unmarkedBy (List.map Symbol.unmarked) ((Symbol.integer second sp'.start).map fun j =>
        [.step (.step (.slice ⟨some i, some j, 1⟩) (sp.merge sp'))]) =
        (Symbol.integer second {}).map fun j => [.step (.step (.slice ⟨some i, some j, 1⟩) (Span.merge {} {}))] :=
      fun i => Symbol.integer_map_unmarked (fun j => rfl) second sp'.start
    rw [Symbol.integer_bind_unmarked hsecond]
    exact .range
  | stray h => exact .stray h

/-- Grouping tokens into symbols uses their kinds alone. -/
theorem ofTokens_unmarked (f : Option LexError) (b : Option Symbol.OpenBracket) (ts : List Token) :
    (ofTokens f b ts).unmarked =
      ofTokens (f.map LexError.unmarked) (b.map Symbol.OpenBracket.unmarked) (ts.map Token.unmarked) := by
  induction b, ts using piece_induction with
  | nil b =>
    rw [List.map_nil, ofTokens_nil, ofTokens_nil]
    cases f <;> rfl
  | finish sp ts =>
    rw [ofTokens_finish]
    exact (ofTokens_finish (f.map LexError.unmarked) {} (ts.map Token.unmarked)).symm
  | colon sp =>
    rw [ofTokens_colon, unmarked_fail]
    refine Eq.trans ?_ (ofTokens_colon _ _).symm
    cases f <;> rfl
  | piece hp ih => rw [ofTokens_piece hp, unmarked_consPiece, ih, List.map_append, ofTokens_piece hp.unmarked]

end Sentence

def Pending.unmarked : Pending → Pending
  | operator op _ => operator op {}
  | group follows base _ => group follows base {}

namespace Machine
variable {op : Operator} {mark : Mark} {operands : List Expr} {pending : List Pending}

def unmarked (m : Machine) : Machine := ⟨m.operands.map Expr.unmarked, m.pending.map Pending.unmarked, m.afterOperand⟩

theorem pushStep_unmarked (e : Expr) (m : Machine) : (m.pushStep e).unmarked = m.unmarked.pushStep e.unmarked := by
  obtain ⟨operands, pending, after⟩ := m
  cases after with
  | false => rfl
  | true =>
    cases operands with
    | nil => rfl
    | cons prev rest => simp [pushStep, unmarked, Expr.combine_unmarked]

theorem fold_unmarked (op : Operator) (mark : Mark) (operands : List Expr) :
    unmarkedBy (List.map Expr.unmarked) (fold op mark operands) = fold op {} (operands.map Expr.unmarked) := by
  match operands with
  | [] => rfl
  | [_] => rfl
  | b :: a :: rest => simp [fold, unmarkedBy, Expr.combine_unmarked]

def unmarkedStacks (r : List Pending × List Expr) : List Pending × List Expr :=
  (r.1.map Pending.unmarked, r.2.map Expr.unmarked)

theorem foldWhile_unmarked (n : Nat) (pending : List Pending) (operands : List Expr) :
    unmarkedBy unmarkedStacks (foldWhile n pending operands) =
      foldWhile n (pending.map Pending.unmarked) (operands.map Expr.unmarked) := by
  induction pending generalizing operands with
  | nil => rfl
  | cons p pending ih =>
    cases p with
    | group => rfl
    | operator op mark =>
      rw [List.map_cons, Pending.unmarked, foldWhile, foldWhile]
      split
      · rfl
      · rw [← fold_unmarked op mark]
        exact unmarkedBy_bind ih (fold op mark operands)

theorem pushOperator_unmarked (op : Operator) (mark : Mark) (m : Machine) :
    unmarkedBy unmarked (m.pushOperator op mark) = m.unmarked.pushOperator op {} := by
  obtain ⟨operands, pending, after⟩ := m
  cases after with
  | false => rfl
  | true =>
    show unmarkedBy unmarked (foldWhile op.precedence pending operands >>= _) =
      foldWhile op.precedence (pending.map Pending.unmarked) (operands.map Expr.unmarked) >>= _
    rw [← foldWhile_unmarked]
    exact unmarkedBy_bind (f := unmarkedStacks) (fun r => rfl) (foldWhile op.precedence pending operands)

theorem openGroup_unmarked (mark : Mark) (m : Machine) : (m.openGroup mark).unmarked = m.unmarked.openGroup {} := by
  simp [openGroup, unmarked, Pending.unmarked]

theorem closeGroup_unmarked (mark : Mark) (m : Machine) :
    unmarkedBy unmarked (m.closeGroup mark) = m.unmarked.closeGroup {} := by
  obtain ⟨operands, pending, after⟩ := m
  cases after with
  | false =>
    match pending with
    | [] => rfl
    | .group .. :: _ => rfl
    | .operator .. :: _ => rfl
  | true =>
    show unmarkedBy unmarked (foldWhile 0 pending operands >>= _) =
      foldWhile 0 (pending.map Pending.unmarked) (operands.map Expr.unmarked) >>= _
    rw [← foldWhile_unmarked]
    refine unmarkedBy_bind (fun r => ?_) (foldWhile 0 pending operands)
    obtain ⟨pending, operands⟩ := r
    match pending with
    | [] => rfl
    | .operator .. :: _ => rfl
    | .group follows base start :: pending =>
      by_cases hlen : operands.length = base + 1
      · cases follows with
        | false =>
          simp [unmarkedStacks, Pending.unmarked, hlen]
          rfl
        | true =>
          match operands with
          | [] => simp at hlen
          | [_] =>
            obtain rfl : base = 0 := by simpa using hlen.symm
            rfl
          | inner :: outer :: rest =>
            obtain rfl : base = rest.length + 1 := by simpa using hlen.symm
            simp [unmarkedStacks, Pending.unmarked, Expr.combine_unmarked]
            rfl
      · simp [unmarkedStacks, Pending.unmarked, hlen]
        rfl

theorem isTrailing_unmarked (next : List Symbol) : isTrailing (next.map Symbol.unmarked) = isTrailing next := by
  match next with
  | [] => rfl
  | s :: _ => cases s <;> rfl

theorem slash_unmarked (sp : Span) (next : List Symbol) (m : Machine) :
    (m.slash sp next).unmarked = m.unmarked.slash {} (next.map Symbol.unmarked) := by
  unfold slash
  rw [isTrailing_unmarked]
  have hafter : m.unmarked.afterOperand = m.afterOperand := rfl
  rw [hafter]
  split
  · exact pushStep_unmarked _ m
  · split
    · exact pushStep_unmarked _ m
    · rfl

theorem take_unmarked (s : Symbol) (next : List Symbol) (m : Machine) :
    unmarkedBy unmarked (m.take s next) = m.unmarked.take s.unmarked (next.map Symbol.unmarked) := by
  cases s with
  | step e => exact congrArg Except.ok (pushStep_unmarked e m)
  | slash sp => exact congrArg Except.ok (slash_unmarked sp next m)
  | operator op mark => exact pushOperator_unmarked op mark m
  | openParen mark => exact congrArg Except.ok (openGroup_unmarked mark m)
  | closeParen mark => exact closeGroup_unmarked mark m

theorem run_unmarked (ss : List Symbol) (m : Machine) :
    unmarkedBy unmarked (run ss m) = run (ss.map Symbol.unmarked) m.unmarked := by
  induction ss generalizing m with
  | nil => rfl
  | cons s ss ih =>
    rw [List.map_cons, run, run, ← take_unmarked]
    exact unmarkedBy_bind ih (m.take s ss)

/-- Where nothing is pending one operand must be left. -/
theorem finish_last_unmarked (stop : Mark) (es : List Expr) :
    unmarkedBy Expr.unmarked (finish stop ⟨es, [], false⟩) = finish {} ⟨es.map Expr.unmarked, [], false⟩ := by
  obtain ⟨rs, rfl⟩ : ∃ rs, es = rs.reverse := ⟨es.reverse, (List.reverse_reverse es).symm⟩
  have hfold : ∀ es, foldWhile 0 [] es = .ok ([], es) := fun _ => rfl
  simp only [finish, hfold, Outcome.bind_ok, List.map_reverse, List.reverse_reverse]
  rcases rs with _ | ⟨e, _ | ⟨e', rs⟩⟩
  · rfl
  · rfl
  · simp only [List.map_cons, Expr.span_unmarked]
    rfl

theorem finish_unmarked (stop : Mark) (m : Machine) :
    unmarkedBy Expr.unmarked (m.finish stop) = m.unmarked.finish {} := by
  obtain ⟨operands, pending, after⟩ := m
  cases after with
  | false =>
    rcases pending with _ | ⟨_ | _, ps⟩
    · exact finish_last_unmarked stop operands
    · rfl
    · rfl
  | true =>
    show unmarkedBy Expr.unmarked (foldWhile 0 pending operands >>= _) =
      foldWhile 0 (pending.map Pending.unmarked) (operands.map Expr.unmarked) >>= _
    rw [← foldWhile_unmarked]
    refine unmarkedBy_bind (f := unmarkedStacks) (fun r => ?_) (foldWhile 0 pending operands)
    obtain ⟨ps, es⟩ := r
    rcases ps with _ | ⟨_ | _, ps⟩
    · exact finish_last_unmarked stop es
    · rfl
    · rfl

end Machine

/-- Parsing without marks gives what parsing gives, without its marks. -/
theorem Sentence.parse_unmarked (r : Sentence) : unmarkedBy Expr.unmarked r.parse = r.unmarked.parse := by
  unfold parse
  have hrun := Machine.run_unmarked r.symbols {}
  have hstart : Machine.unmarked {} = {} := rfl
  rw [hstart] at hrun
  rw [unmarked, ← hrun]
  refine unmarkedBy_bind (fun m => ?_) (Machine.run r.symbols {})
  refine unmarkedBy_bind (f := fun _ => ({} : Mark)) ?_ r.ending
  intro stop
  exact Machine.finish_unmarked stop m

/-- Tokens of the same kinds parse to the same tree or to the same error, up to marks. -/
theorem Sentence.parse_of_kinds {ts us : List Token} (h : ts.map (·.kind) = us.map (·.kind)) :
    unmarkedBy Expr.unmarked (ofTokens none none ts).parse = unmarkedBy Expr.unmarked (ofTokens none none us).parse := by
  have hmap : ∀ vs : List Token, vs.map Token.unmarked = (vs.map (·.kind)).map fun k => ⟨k, {}⟩ := by
    intro vs
    rw [List.map_map]
    rfl
  rw [parse_unmarked, parse_unmarked, ofTokens_unmarked, ofTokens_unmarked, hmap, hmap, h]

end YamlQuery.Path
