import YamlQuery.Proofs.Path.Parenthesised
/-!
Operators between two paths as they stand. Both spellings of `|` read alike behind every path. The ampersand is written
twice only where the last token ends an operand, which a slash does not: there the second one lacks an operand.
-/
namespace YamlQuery.Path
open CharClass Path.Expr Grammar Outcome

namespace Expr

mutual

theorem displayAt_unmarked (depth : Nat) : ∀ e : Expr, e.unmarked.displayAt depth = e.displayAt depth
  | step _ _ => rfl
  | join c es _ => by
    rw [unmarked, displayAt, displayAt, displayAll_unmarkedAll (depth + 1) es]

theorem displayAll_unmarkedAll (depth : Nat) : ∀ es : List Expr, displayAll depth (unmarkedAll es) = displayAll depth es
  | [] => rfl
  | e :: es => by
    rw [unmarkedAll, displayAll, displayAll, displayAt_unmarked depth e, displayAll_unmarkedAll depth es]

end

theorem display_of_unmarked {e f : Expr} (h : e.unmarked = f.unmarked) : e.display = f.display := by
  rw [display, display, ← displayAt_unmarked, h, displayAt_unmarked]

end Expr

namespace Grammar
variable {ks ls : List TokenKind} {es fs : List Expr}

/-- Two series of operands with their operator between them are one series. -/
theorem Derives.append_series {op : Operator} (h : Derives (.series op) ks es) (h' : Derives (.series op) ls fs) :
    Derives (.series op) (ks ++ op.kind :: ls) (es ++ fs) := by
  generalize hp : Phrase.series op = p at h'
  induction h' with
  | single ho =>
    cases hp
    exact .more h ho
  | more _ ho ih =>
    cases hp
    have := Derives.more (ih rfl) ho
    simpa using this
  | step | group | root | first | next | bare | filtered => cases hp

/-- An ampersand between two expressions joins the last operand of the first to the first one of the second. -/
theorem Derives.append_and (h : Derives (.series .or) ks es) (h' : Derives (.series .or) ls fs) :
    ∃ gs, Derives (.series .or) (ks ++ Operator.and.kind :: ls) gs := by
  generalize hp : Phrase.series .or = p at h'
  induction h' with
  | single hb =>
    cases hp
    cases h with
    | single ha => exact ⟨_, .single (ha.append_series hb)⟩
    | more h ha =>
      have := Derives.more h (ha.append_series hb)
      exact ⟨_, by simpa using this⟩
  | more _ hb ih =>
    cases hp
    obtain ⟨gs, hg⟩ := ih rfl
    have := Derives.more hg hb
    exact ⟨_, by simpa using this⟩
  | step | group | root | first | next | bare | filtered => cases hp

theorem Reads.append_or {s t : Expr} (h : Reads ks s) (h' : Reads ls t) : ∃ u, Reads (ks ++ .or :: ls) u := by
  obtain ⟨es, he, rfl⟩ := h
  obtain ⟨fs, hf, rfl⟩ := h'
  exact ⟨_, _, he.append_series hf, rfl⟩

theorem Reads.append_and {s t : Expr} (h : Reads ks s) (h' : Reads ls t) : ∃ u, Reads (ks ++ .and :: ls) u := by
  obtain ⟨es, he, rfl⟩ := h
  obtain ⟨fs, hf, rfl⟩ := h'
  obtain ⟨gs, hg⟩ := he.append_and hf
  exact ⟨_, _, hg, rfl⟩

def EndsChain (ks : List TokenKind) : Prop := ∃ k ∈ ks.getLast?, k = .slash ∨ k.endsOperand = true

theorem endsChain_append (ks : List TokenKind) (h : EndsChain ls) : EndsChain (ks ++ ls) := by
  obtain ⟨k, hk, h⟩ := h
  refine ⟨k, ?_, h⟩
  rw [List.getLast?_append, Option.mem_def.1 hk]
  rfl

theorem endsChain_concat {k : TokenKind} (h : k = .slash ∨ k.endsOperand = true) (ks : List TokenKind) :
    EndsChain (ks ++ [k]) := endsChain_append ks ⟨k, rfl, h⟩

theorem Word.endsOperand {k : TokenKind} {s : Step} (h : Word k s) : k.endsOperand = true := by
  cases h <;> rfl

theorem Key.endsOperand {k : TokenKind} {s : Step} (h : Key k s) : k.endsOperand = true := by
  cases h <;> rfl

theorem StepText.endsChain (h : StepText ks es) : EndsChain ks := by
  cases h with
  | word h => exact endsChain_concat (.inr h.endsOperand) []
  | key h => exact endsChain_concat (.inr h.endsOperand) []
  | sibling h => exact endsChain_concat (.inr h.endsOperand) [.colon]
  | index => exact endsChain_concat (.inr rfl) []
  | range => exact endsChain_concat (.inr rfl) [_, .colon]
  | indices | slice => exact endsChain_concat (.inr rfl) (.openBracket :: _)

theorem Derives.endsChain {p : Phrase} (h : Derives p ks es) : EndsChain ks := by
  induction h with
  | step h => exact h.endsChain
  | group => exact endsChain_concat (.inr rfl) (.openParen :: _)
  | root => exact endsChain_concat (.inl rfl) []
  | first _ ih | bare _ ih | single _ ih => exact ih
  | next n _ _ _ ih => exact endsChain_append _ (endsChain_append _ ih)
  | filtered n =>
    rw [List.replicate_succ']
    exact endsChain_append _ (endsChain_concat (.inl rfl) _)
  | @more op _ _ _ _ _ _ _ ih => exact endsChain_append _ (endsChain_append [op.kind] ih)

theorem Reads.endsChain {t : Expr} (h : Reads ks t) : EndsChain ks := by
  obtain ⟨es, hd, _⟩ := h
  exact hd.endsChain

end Grammar

namespace Machine
open Grammar

/-- Folding fewer operators succeeds where folding more does. -/
theorem foldWhile_of_le {m n : Nat} (hmn : m ≤ n) {ps : List Pending} {es : List Expr} {r : List Pending × List Expr}
    (h : foldWhile m ps es = .ok r) : ∃ r', foldWhile n ps es = .ok r' := by
  induction ps generalizing es with
  | nil => exact ⟨_, rfl⟩
  | cons p ps ih =>
    cases p with
    | group => exact ⟨_, rfl⟩
    | operator op mark =>
      by_cases hn : op.precedence < n
      · exact ⟨_, by rw [foldWhile, if_pos hn]⟩
      · rw [foldWhile, if_neg (by omega)] at h
        obtain ⟨es', hf, h⟩ := bind_eq_ok.1 h
        obtain ⟨r', hr⟩ := ih h
        exact ⟨r', by rw [foldWhile, if_neg hn, hf, bind_ok, hr]⟩

theorem run_operators {m : Machine} {a : Expr} {n : Nat} (h : Settles n m [] a []) (op op' : Operator)
    (hn : n ≤ op.precedence) (m₁ m₂ : Mark) (next : List Symbol) :
    run (.operator op m₁ :: .operator op' m₂ :: next) m = .error (.missingOperand m₂) := by
  obtain ⟨⟨ps, es⟩, hr⟩ := foldWhile_of_le hn h.2
  have hfirst : pushOperator op m₁ m = .ok ⟨es, .operator op m₁ :: ps, false⟩ := by
    simp [pushOperator, h.1, hr, bind, Except.bind, pure, Except.pure]
  rw [run, take, hfirst, bind_ok, run]
  rfl

end Machine

namespace Sentence
open Grammar

/-- Behind an expression and an operator no other operator can stand. -/
theorem parse_operators {ts : List Token} {t u : Token} {e : Expr} {op op' : Operator} (us : List Token)
    (f : Option LexError) (h : Reads (ts.map (·.kind)) e) (ht : t.kind = op.kind) (hu : u.kind = op'.kind) :
    (ofTokens f none (ts ++ t :: u :: us)).parse = .error (.missingOperand u.span.start) := by
  obtain ⟨es, hd, rfl⟩ := h
  obtain ⟨ss, hg, hp⟩ := hd.passes rfl
  have hends : ∀ {v : Token} {op : Operator} (vs : List Token), v.kind = op.kind → EndsNumber ((v :: vs).map (·.kind)) := by
    intro v op vs hv
    rw [List.map_cons, hv]
    exact endsNumber_cons (by cases op <;> simp [Operator.kind]) _
  have hu' : ofTokens f none (u :: us) = prepend [.operator op' u.span.start] (ofTokens f none us) :=
    ofTokens_piece (.sign (sign_of_operator hu))
  have hs : ofTokens f none (ts ++ t :: u :: us) =
      prepend (ss ++ [.operator op t.span.start, .operator op' u.span.start]) (ofTokens f none us) := by
    rw [hg f _ (hends _ ht), ← List.singleton_append, Grouped.sign (sign_of_operator ht) f _ (hends _ hu), hu',
      prepend_prepend, prepend_prepend]
    simp
  obtain ⟨m, a, _, hr, hm⟩ := hp (.operator op t.span.start :: .operator op' u.span.start :: (ofTokens f none us).symbols)
    [] [] rfl trivial
  have hrun := hr.trans (Machine.run_operators hm op op' (operator_precedence_pos op) _ _ _)
  have hrun' : Machine.run (ofTokens f none (ts ++ t :: u :: us)).symbols {} =
      .error (.missingOperand u.span.start) := by
    rw [hs]
    simpa [prepend] using hrun
  rw [Sentence.parse, hrun']
  rfl

end Sentence

namespace Lexer
variable {b : Bool} {cs more : List Char} {ks ls : List TokenKind}

theorem Lexes.space (h : Lexes b cs ks) : Lexes b (' ' :: cs) ks := by
  have hb : ∀ c ∈ [' '], isBlank c = true := List.forall_mem_singleton.2 (by decide)
  exact h.blanks hb

theorem lexes_or (b : Bool) (h : Lexes false more ls) : Lexes b ('|' :: ' ' :: more) (.or :: ls) := by
  have hk : kindAt b '|' ⟨{}, '|' :: ' ' :: more, .complete⟩ = .ok (.or, ⟨Mark.advance {} '|', ' ' :: more, .complete⟩) := rfl
  exact .token (takes_cons (by decide) hk) (by simp) h.space

theorem lexes_or_or (b : Bool) (h : Lexes false more ls) : Lexes b ('|' :: '|' :: ' ' :: more) (.or :: ls) := by
  have hk : kindAt b '|' ⟨{}, '|' :: '|' :: ' ' :: more, .complete⟩ =
      .ok (.or, ⟨(Mark.advance {} '|').advance '|', ' ' :: more, .complete⟩) := rfl
  exact .token (takes_cons (by decide) hk) (by simp) h.space

theorem lexes_and (b : Bool) (h : Lexes false more ls) : Lexes b ('&' :: ' ' :: more) (.and :: ls) := by
  have hk : kindAt b '&' ⟨{}, '&' :: ' ' :: more, .complete⟩ =
      .ok (.and, ⟨Mark.advance {} '&', ' ' :: more, .complete⟩) := by
    cases b <;> rfl
  exact .token (takes_cons (by decide) hk) (by simp) h.space

/-- Behind an operand two ampersands are one token. -/
theorem lexes_and_and (h : Lexes false more ls) : Lexes true ('&' :: '&' :: ' ' :: more) (.and :: ls) := by
  have hk : kindAt true '&' ⟨{}, '&' :: '&' :: ' ' :: more, .complete⟩ =
      .ok (.and, ⟨(Mark.advance {} '&').advance '&', ' ' :: more, .complete⟩) := rfl
  exact .token (takes_cons (by decide) hk) (by simp) h.space

/-- Elsewhere they are two. -/
theorem lexes_and_apart (h : Lexes false more ls) : Lexes false ('&' :: '&' :: ' ' :: more) (.and :: .and :: ls) := by
  have hk : kindAt false '&' ⟨{}, '&' :: '&' :: ' ' :: more, .complete⟩ =
      .ok (.and, ⟨Mark.advance {} '&', '&' :: ' ' :: more, .complete⟩) := rfl
  exact .token (takes_cons (by decide) hk) (by simp) (lexes_and false h)

/-- A text whose last token belongs to a chain keeps its tokens before a blank and more text. -/
theorem Lexes.behind (h : Lexes b cs ks) (he : EndsChain ks) (hm : Lexes (operandEnds b ks) more ls) :
    Lexes b (cs ++ ' ' :: more) (ks ++ ls) := by
  refine h.append_bounds (bounds_cons (by decide) more) ?_ hm.space
  intro hl
  obtain ⟨k, hk, hs⟩ := he
  rw [hl, Option.mem_some] at hk
  subst hk
  simp [TokenKind.endsOperand] at hs

theorem operandEnds_slash (h : ks.getLast? = some .slash) (b : Bool) : operandEnds b ks = false := by
  rw [operandEnds, h]
  rfl

theorem operandEnds_of_ne_slash (h : EndsChain ks) (hs : ks.getLast? ≠ some .slash) (b : Bool) :
    operandEnds b ks = true := by
  obtain ⟨k, hk, rfl | hk'⟩ := h
  · exact absurd hk hs
  · rw [operandEnds, Option.mem_def.1 hk]
    exact hk'

end Lexer

namespace Parsed
open Lexer

def EndsInSlash (text : String) : Prop := ∃ ks, (Lexed.ofBytes (Utf8.encode text.toList)).Yields (ks ++ [.slash])

theorem endsInSlash_iff {a : String} {ks : List TokenKind} (h : Lexes false a.toList ks) :
    EndsInSlash a ↔ ks.getLast? = some .slash := by
  have hy := ofText_yields_iff.2 h
  constructor
  · rintro ⟨ls, hls⟩
    obtain rfl := List.append_cancel_right (hy.2.symm.trans hls.2)
    exact List.getLast?_concat
  · intro hl
    obtain ⟨ls, rfl⟩ := List.getLast?_eq_some_iff.1 hl
    exact ⟨ls, hy⟩

/-- Tokens that read alike show alike. -/
theorem display_of_lexes {a b : String} {ks : List TokenKind} {t : Expr} (ha : Lexes false a.toList ks)
    (hb : Lexes false b.toList ks) (h : Reads ks t) :
    ∃ r s, ofText a = .ok r ∧ ofText b = .ok s ∧ s.expr.display = r.expr.display := by
  obtain ⟨r, hr, hu⟩ := ok_of_lexes ha h
  obtain ⟨s, hs, hv⟩ := ok_of_lexes hb h
  exact ⟨r, s, hr, hs, display_of_unmarked (hv.trans hu.symm)⟩

theorem ofText_operators {a : String} {ks ls : List TokenKind} {t : Expr} (op op' : Operator)
    (h : Lexes false a.toList (ks ++ op.kind :: op'.kind :: ls)) (hr : Reads ks t) :
    ∃ m, ofText a = .error (.missingOperand m) := by
  obtain ⟨hf, hts⟩ := ofText_yields_iff.2 h
  rw [List.append_assoc] at hts
  obtain ⟨ts, vs, htv, rfl, hvs⟩ := List.map_eq_append_iff.1 hts
  obtain ⟨v, ws, rfl, hv, hws⟩ := List.map_eq_cons_iff.1 hvs
  obtain ⟨w, us, rfl, hw, _⟩ := List.map_eq_cons_iff.1 hws
  have hp := Sentence.parse_operators us (Lexed.ofBytes (Utf8.encode a.toList)).failure hr hv hw
  refine ⟨w.span.start, ?_⟩
  rw [ofText, ofBytes, htv, hp]
  rfl

/-- Written twice, the bar means the same behind every path, and the ampersand behind every path that does not end in a
slash. Behind a slash the second ampersand is an operator of its own, which lacks an operand. -/
theorem ofText_doubled {a b : String} {p q : Parsed} (ha : ofText a = .ok p) (hb : ofText b = .ok q) :
    (∃ r s, ofText (a ++ " | " ++ b) = .ok r ∧ ofText (a ++ " || " ++ b) = .ok s ∧
        s.expr.display = r.expr.display) ∧
      ∃ r, ofText (a ++ " & " ++ b) = .ok r ∧
        (¬EndsInSlash a → ∃ s, ofText (a ++ " && " ++ b) = .ok s ∧ s.expr.display = r.expr.display) ∧
        (EndsInSlash a → ∃ m, ofText (a ++ " && " ++ b) = .error (.missingOperand m)) := by
  obtain ⟨ks, hks, hrs⟩ := lexes_of_ok ha
  obtain ⟨ls, hls, hrt⟩ := lexes_of_ok hb
  have hend := hrs.endsChain
  have hor : Lexes false (a ++ " | " ++ b).toList (ks ++ .or :: ls) := by
    simpa using hks.behind hend (lexes_or _ hls)
  have hor' : Lexes false (a ++ " || " ++ b).toList (ks ++ .or :: ls) := by
    simpa using hks.behind hend (lexes_or_or _ hls)
  have hand : Lexes false (a ++ " & " ++ b).toList (ks ++ .and :: ls) := by
    simpa using hks.behind hend (lexes_and _ hls)
  obtain ⟨u, hu⟩ := hrs.append_or hrt
  obtain ⟨v, hv⟩ := hrs.append_and hrt
  obtain ⟨r, hr, hrv⟩ := ok_of_lexes hand hv
  refine ⟨display_of_lexes hor hor' hu, r, hr, ?_, ?_⟩
  · intro hs
    have hopen : operandEnds false ks = true := operandEnds_of_ne_slash hend (fun h => hs ((endsInSlash_iff hks).2 h)) _
    have hone : Lexes (operandEnds false ks) ('&' :: '&' :: ' ' :: b.toList) (.and :: ls) := by
      rw [hopen]
      exact lexes_and_and hls
    have hand' : Lexes false (a ++ " && " ++ b).toList (ks ++ .and :: ls) := by
      simpa using hks.behind hend hone
    obtain ⟨s, hs, hsv⟩ := ok_of_lexes hand' hv
    exact ⟨s, hs, display_of_unmarked (hsv.trans hrv.symm)⟩
  · intro hs
    have hclosed : operandEnds false ks = false := operandEnds_slash ((endsInSlash_iff hks).1 hs) _
    have htwo : Lexes (operandEnds false ks) ('&' :: '&' :: ' ' :: b.toList) (.and :: .and :: ls) := by
      rw [hclosed]
      exact lexes_and_apart hls
    have hand' : Lexes false (a ++ " && " ++ b).toList (ks ++ .and :: .and :: ls) := by
      simpa using hks.behind hend htwo
    exact ofText_operators .and .and hand' hrs

/-- Twice behind a slash in quotes, which is a key. -/
theorem ofText_doubled_quoted_slash : ∃ p q, ofText "/a/\"/\"" = .ok p ∧ ofText "b" = .ok q ∧
    (∃ r s, ofText ("/a/\"/\"" ++ " | " ++ "b") = .ok r ∧ ofText ("/a/\"/\"" ++ " || " ++ "b") = .ok s ∧
        s.expr.display = r.expr.display) ∧
      ∃ r, ofText ("/a/\"/\"" ++ " & " ++ "b") = .ok r ∧
        (¬EndsInSlash "/a/\"/\"" → ∃ s, ofText ("/a/\"/\"" ++ " && " ++ "b") = .ok s ∧
          s.expr.display = r.expr.display) ∧
        (EndsInSlash "/a/\"/\"" → ∃ m, ofText ("/a/\"/\"" ++ " && " ++ "b") = .error (.missingOperand m)) := by
  obtain ⟨p, hp⟩ : ∃ p, ofText "/a/\"/\"" = .ok p := ⟨_, rfl⟩
  obtain ⟨q, hq⟩ : ∃ q, ofText "b" = .ok q := ⟨_, rfl⟩
  exact ⟨p, q, hp, hq, ofText_doubled hp hq⟩

/-- The root and a key parse, and so does their conjunction with one ampersand, but not with two. -/
theorem ofText_root_and_and : (∃ p, ofText "/" = .ok p) ∧ (∃ q, ofText "a" = .ok q) ∧ (∃ r, ofText "/ & a" = .ok r) ∧
    ofText "/ && a" = .error (.missingOperand ⟨3, 0, 3⟩) :=
  ⟨⟨_, rfl⟩, ⟨_, rfl⟩, ⟨_, rfl⟩, rfl⟩

end Parsed
end YamlQuery.Path
