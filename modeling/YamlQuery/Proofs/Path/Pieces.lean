import YamlQuery.Proofs.Path.Grammar
/-!
Sentences piece by piece. A piece is what the grouping of tokens takes in before it goes on: a token of an open bracket, a
step, or the sign of a symbol. What holds of every piece holds of the sentence.
-/
namespace YamlQuery.Path
open Grammar

namespace Sentence

inductive Sign : TokenKind → (Span → Symbol) → Prop
  | slash : Sign .slash .slash
  | operator (op : Operator) : Sign op.kind fun sp => .operator op sp.start
  | openParen : Sign .openParen fun sp => .openParen sp.start
  | closeParen : Sign .closeParen fun sp => .closeParen sp.start

def EndsNumber (ks : List TokenKind) : Prop := ∀ text ls, ks ≠ .colon :: .number text :: ls

/-- `Piece b taken rest b' made`: with `b` as the open bracket, if there is one, the tokens `taken` before `rest` make the
symbols `made`, or are a fault, and `b'` is open behind them. -/
inductive Piece : Option Symbol.OpenBracket → List Token → List Token → Option Symbol.OpenBracket →
    Except ParseError (List Symbol) → Prop
  | inner {b : Symbol.OpenBracket} {t : Token} {rest : List Token} (h : Bracketed t.kind) :
    Piece (some b) [t] rest (some { b with items := t :: b.items }) (.ok [])
  | close {b : Symbol.OpenBracket} {sp : Span} {rest : List Token} :
    Piece (some b) [⟨.closeBracket, sp⟩] rest none
      ((Symbol.bracket b.items.reverse sp.start ⟨b.mark, sp.stop⟩).map fun e => [.step e])
  | unclosed {b : Symbol.OpenBracket} {sp : Span} {rest : List Token} :
    Piece (some b) [⟨.finish, sp⟩] rest none (.error (.unmatchedBracket b.mark))
  | foreign {b : Symbol.OpenBracket} {t : Token} {rest : List Token} (hb : ¬Bracketed t.kind) (hc : t.kind ≠ .closeBracket)
    (hf : t.kind ≠ .finish) : Piece (some b) [t] rest none (.error (.unexpectedToken t.kind t.span.start))
  | bracket {sp : Span} {rest : List Token} : Piece none [⟨.openBracket, sp⟩] rest (some ⟨sp.start, []⟩) (.ok [])
  | sign {k : TokenKind} {s : Span → Symbol} {sp : Span} {rest : List Token} (h : Sign k s) :
    Piece none [⟨k, sp⟩] rest none (.ok [s sp])
  | word {k : TokenKind} {s : Step} {sp : Span} {rest : List Token} (h : Symbol.simpleStep? k = some s) :
    Piece none [⟨k, sp⟩] rest none (.ok [.step (.step s sp)])
  | keyLiteral {text : String} {sp : Span} {rest : List Token} :
    Piece none [⟨.keyLiteral text, sp⟩] rest none ((Symbol.keyLiteral text sp).map fun e => [.step e])
  | sibling {colon : Span} {t : Token} {rest : List Token} :
    Piece none [⟨.colon, colon⟩, t] rest none
      ((Symbol.siblingKey t).map fun key => [.step (.step .parent colon), .step key])
  | number {text : String} {sp : Span} {rest : List Token} (h : EndsNumber (rest.map (·.kind))) :
    Piece none [⟨.number text, sp⟩] rest none
      ((Symbol.integer text sp.start).map fun n => [.step (.step (.index n) sp)])
  | range {first second : String} {sp colon sp' : Span} {rest : List Token} :
    Piece none [⟨.number first, sp⟩, ⟨.colon, colon⟩, ⟨.number second, sp'⟩] rest none
      (Symbol.integer first sp.start >>= fun i => (Symbol.integer second sp'.start).map fun j =>
        [.step (.step (.slice ⟨some i, some j, 1⟩) (sp.merge sp'))])
  | stray {k : TokenKind} {sp : Span} {rest : List Token} (h : k = .closeBracket ∨ k = .equals) :
    Piece none [⟨k, sp⟩] rest none (.error (.unexpectedToken k sp.start))

variable {b b' : Option Symbol.OpenBracket} {taken rest ts : List Token} {made : Except ParseError (List Symbol)}

theorem Piece.ne_nil (h : Piece b taken rest b' made) : taken ≠ [] := by
  cases h <;> simp

theorem endsNumber_or_range (rest : List Token) :
    EndsNumber (rest.map (·.kind)) ∨ ∃ colon second sp ts, rest = ⟨.colon, colon⟩ :: ⟨.number second, sp⟩ :: ts := by
  by_cases h : EndsNumber (rest.map (·.kind))
  · exact .inl h
  · obtain ⟨second, h⟩ := Classical.not_forall.1 h
    obtain ⟨ks, h⟩ := Classical.not_forall.1 h
    obtain ⟨⟨k, colon⟩, ts, rfl, hk, hts⟩ := List.map_eq_cons_iff.1 (Classical.not_not.1 h)
    obtain ⟨⟨k', sp⟩, ts, rfl, hk', -⟩ := List.map_eq_cons_iff.1 hts
    obtain rfl : k = .colon := hk
    obtain rfl : k' = .number second := hk'
    exact .inr ⟨colon, second, sp, ts, rfl⟩

/-- Tokens in an open bracket begin with a piece. -/
theorem exists_piece_some (b : Symbol.OpenBracket) (t : Token) (ts : List Token) :
    ∃ b' made, Piece (some b) [t] ts b' made := by
  obtain ⟨k, sp⟩ := t
  by_cases hb : Bracketed k
  · exact ⟨_, _, .inner hb⟩
  · by_cases hc : k = .closeBracket
    · subst hc
      exact ⟨_, _, .close⟩
    · by_cases hf : k = .finish
      · subst hf
        exact ⟨_, _, .unclosed⟩
      · exact ⟨_, _, .foreign hb hc hf⟩

/-- Outside of brackets tokens begin with a piece, unless they begin with the end or are a colon with nothing behind it. -/
theorem exists_piece_none (k : TokenKind) (sp : Span) (ts : List Token) :
    k = .finish ∨ (k = .colon ∧ ts = []) ∨
      ∃ taken rest b' made, ⟨k, sp⟩ :: ts = taken ++ rest ∧ Piece none taken rest b' made := by
  have hone : ∀ {b' made}, Piece none [⟨k, sp⟩] ts b' made →
      ∃ taken rest b' made, ⟨k, sp⟩ :: ts = taken ++ rest ∧ Piece none taken rest b' made :=
    fun h => ⟨_, _, _, _, rfl, h⟩
  cases k with
  | finish => exact .inl rfl
  | colon =>
    cases ts with
    | nil => exact .inr (.inl ⟨rfl, rfl⟩)
    | cons t ts => exact .inr (.inr ⟨[_, t], ts, _, _, rfl, .sibling⟩)
  | number text =>
    rcases endsNumber_or_range ts with h | ⟨colon, second, sp', ts, rfl⟩
    · exact .inr (.inr (hone (.number h)))
    · exact .inr (.inr ⟨[_, _, _], ts, _, _, rfl, .range⟩)
  | slash => exact .inr (.inr (hone (.sign .slash)))
  | comma => exact .inr (.inr (hone (.sign (.operator .multi))))
  | and => exact .inr (.inr (hone (.sign (.operator .and))))
  | or => exact .inr (.inr (hone (.sign (.operator .or))))
  | openParen => exact .inr (.inr (hone (.sign .openParen)))
  | closeParen => exact .inr (.inr (hone (.sign .closeParen)))
  | openBracket => exact .inr (.inr (hone .bracket))
  | keyLiteral text => exact .inr (.inr (hone .keyLiteral))
  | closeBracket | equals => exact .inr (.inr (hone (.stray (by simp))))
  | _ => exact .inr (.inr (hone (.word rfl)))

/-- Induction on tokens by the pieces of their sentence. -/
@[elab_as_elim]
theorem piece_induction {motive : Option Symbol.OpenBracket → List Token → Prop} (b : Option Symbol.OpenBracket)
    (ts : List Token) (nil : ∀ b, motive b [])
    (finish : ∀ sp ts, motive none (⟨.finish, sp⟩ :: ts))
    (colon : ∀ sp, motive none [⟨.colon, sp⟩])
    (piece : ∀ {b taken rest b' made}, Piece b taken rest b' made → motive b' rest → motive b (taken ++ rest)) :
    motive b ts := by
  induction hn : ts.length using Nat.strongRecOn generalizing b ts with
  | ind n ih =>
    have hpiece : ∀ {taken rest b' made}, ts = taken ++ rest → Piece b taken rest b' made → motive b ts := by
      rintro taken rest b' made rfl hp
      have hpos := List.length_pos_iff.2 hp.ne_nil
      exact piece hp (ih rest.length (by rw [← hn, List.length_append]; omega) b' rest rfl)
    match b, ts with
    | b, [] => exact nil b
    | some b, t :: ts =>
      obtain ⟨b', made, hp⟩ := exists_piece_some b t ts
      exact hpiece rfl hp
    | none, ⟨k, sp⟩ :: ts =>
      rcases exists_piece_none k sp ts with rfl | ⟨rfl, rfl⟩ | ⟨taken, rest, b', made, hts, hp⟩
      · exact finish sp ts
      · exact colon sp
      · exact hpiece hts hp

def prepend (ss : List Symbol) (r : Sentence) : Sentence := ⟨ss ++ r.symbols, r.ending⟩

def consPiece (made : Except ParseError (List Symbol)) (r : Sentence) : Sentence :=
  match made with
  | .ok ss => prepend ss r
  | .error e => fail e

theorem consStep_eq_consPiece (x : Except ParseError Expr) (r : Sentence) :
    consStep x r = consPiece (x.map fun e => [.step e]) r := by
  cases x <;> rfl

section
variable {f : Option LexError}

theorem ofTokens_nil (f : Option LexError) (b : Option Symbol.OpenBracket) :
    ofTokens f b [] = (f.map fun e => fail (.lex e)).getD ⟨[], .ok {}⟩ := by
  cases f <;> rw [ofTokens] <;> rfl

theorem ofTokens_finish (f : Option LexError) (sp : Span) (ts : List Token) :
    ofTokens f none (⟨.finish, sp⟩ :: ts) = ⟨[], .ok sp.start⟩ := by
  simp [ofTokens]

/-- A colon with nothing behind it: the fault that cut the tokens off, if there is one, is behind it. -/
theorem ofTokens_colon (f : Option LexError) (sp : Span) :
    ofTokens f none [⟨.colon, sp⟩] = fail ((f.map .lex).getD (.unexpectedToken .colon sp.start)) := by
  cases f <;> simp [ofTokens, Symbol.simpleStep?]

/-- The sentence of a piece and of the tokens behind it. -/
theorem ofTokens_piece (h : Piece b taken rest b' made) :
    ofTokens f b (taken ++ rest) = consPiece made (ofTokens f b' rest) := by
  cases h with
  | @inner b t rest hk => rcases hk with hk | hk | ⟨text, hk⟩ <;> simp [ofTokens, hk, consPiece, prepend]
  | close => simp [ofTokens, consStep_eq_consPiece]
  | unclosed => simp [ofTokens, consPiece]
  | @foreign b t rest hb hc hf =>
    obtain ⟨k, sp⟩ := t
    cases k <;> simp_all [ofTokens, consPiece, Bracketed]
  | bracket => simp [ofTokens, consPiece, prepend]
  | sign hs =>
    cases hs with
    | operator op => cases op <;> simp [ofTokens, Operator.kind, consPiece, prepend, cons]
    | _ => simp [ofTokens, consPiece, prepend, cons]
  | @word k s sp rest hs => cases k <;> simp_all [ofTokens, Symbol.simpleStep?, consPiece, prepend, cons]
  | keyLiteral => simp [ofTokens, consStep_eq_consPiece]
  | @sibling colon t rest =>
    cases hkey : Symbol.siblingKey t <;> simp [ofTokens, hkey, Except.map, consPiece, prepend, cons]
  | @number text sp rest hr =>
    rw [List.singleton_append, ofTokens]
    · exact (consStep_eq_consPiece _ _).trans (by cases Symbol.integer text sp.start <;> rfl)
    · rintro first sp₁ colon second sp₂ ts - rfl
      exact hr second (ts.map (·.kind)) rfl
    · intro colon t ts h
      cases h
  | @range first second sp colon sp' rest =>
    cases hi : Symbol.integer first sp.start with
    | error e => simp [ofTokens, hi, bind, Except.bind, consPiece]
    | ok i =>
      cases hj : Symbol.integer second sp'.start <;>
        simp [ofTokens, hi, hj, bind, Except.bind, Except.map, consStep, consPiece, prepend, cons]
  | stray hk => rcases hk with rfl | rfl <;> simp [ofTokens, Symbol.simpleStep?, consPiece]

end

end Sentence
end YamlQuery.Path
