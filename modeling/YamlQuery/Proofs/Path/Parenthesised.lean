import YamlQuery.Proofs.Path.Composition
/-!
Two paths in parentheses with an operator between them: what they parse to, and what they select.
-/
namespace YamlQuery.Path
open CharClass Path.Expr Grammar Outcome

namespace Grammar
variable {ks ls : List TokenKind}

def Filled (e : Expr) : Prop := ∀ c, e.operandsOf c ≠ []

theorem filled_step (s : Step) (sp : Span) : Filled (.step s sp) := by
  intro c
  simp [operandsOf]

theorem filled_gather (c : Combinator) {es : List Expr} (hne : es ≠ []) (h : ∀ e ∈ es, Filled e) : Filled (gather c es) := by
  obtain ⟨e, es, rfl⟩ := List.exists_cons_of_ne_nil hne
  cases es with
  | nil => exact h e (by simp)
  | cons f fs =>
    intro d
    by_cases hd : c = d
    · subst hd
      have he := h e (by simp) c
      rw [operandsOf_gather, List.flatMap_cons]
      exact List.append_ne_nil_of_left_ne_nil he _
    · simp [gather, operandsOf, hd]

theorem StepText.filled {es : List Expr} (h : StepText ks es) : ∀ e ∈ es, Filled e := by
  intro e he
  cases h with
  | word | key | index | range | slice =>
    obtain rfl := List.mem_singleton.1 he
    exact filled_step _ _
  | sibling =>
    simp only [List.mem_cons, List.not_mem_nil, or_false] at he
    rcases he with rfl | rfl <;> exact filled_step _ _
  | indices hi =>
    obtain rfl := List.mem_singleton.1 he
    apply filled_gather
    · cases hi <;> simp
    · intro e he
      obtain ⟨i, _, rfl⟩ := List.mem_map.1 he
      exact filled_step _ _

theorem filled_tree {p : Phrase} {es : List Expr} (hne : es ≠ []) (h : ∀ e ∈ es, Filled e) : Filled (p.tree es) := by
  cases p <;> exact filled_gather _ hne h

theorem Derives.filled {p : Phrase} {es : List Expr} (h : Derives p ks es) : ∀ e ∈ es, Filled e := by
  induction h with
  | step h => exact h.filled
  | @group _ es h ih =>
    intro e he
    obtain rfl := List.mem_singleton.1 he
    exact filled_gather .or h.ne_nil ih
  | root =>
    intro e he
    obtain rfl := List.mem_singleton.1 he
    exact filled_step _ _
  | first _ ih | bare _ ih => exact ih
  | next _ _ _ ih₁ ih₂ =>
    intro e he
    cases List.mem_append.1 he with
    | inl he => exact ih₁ e he
    | inr he => exact ih₂ e he
  | filtered _ _ ih =>
    intro e he
    cases List.mem_append.1 he with
    | inl he => exact ih e he
    | inr he =>
      obtain rfl := List.mem_singleton.1 he
      exact filled_step _ _
  | single h ih =>
    intro e he
    obtain rfl := List.mem_singleton.1 he
    exact filled_tree h.ne_nil ih
  | more _ ho ih₁ ih₂ =>
    intro e he
    cases List.mem_append.1 he with
    | inl he => exact ih₁ e he
    | inr he =>
      obtain rfl := List.mem_singleton.1 he
      exact filled_tree ho.ne_nil ih₂

theorem Reads.filled {t : Expr} (h : Reads ks t) : Filled t := by
  obtain ⟨es, hd, rfl⟩ := h
  exact filled_tree hd.ne_nil hd.filled

theorem filled_of_unmarked {e : Expr} (h : Filled e.unmarked) : Filled e := by
  intro c hc
  have hu := h c
  rw [operandsOf_unmarked, hc] at hu
  exact hu rfl

end Grammar

def Combinator.operator? : Combinator → Option Operator
  | multi => some .multi
  | chain => none
  | or => some .or
  | and => some .and

def Operator.char : Operator → Char
  | multi => ','
  | and => '&'
  | or => '|'

def Combinator.joinText (c : Combinator) (a b : String) : String :=
  "(" ++ a ++ ")" ++ String.ofList (c.operator?.map Operator.char).toList ++ "(" ++ b ++ ")"

namespace Grammar
variable {ks ls : List TokenKind}

def parenthesised (ks : List TokenKind) : List TokenKind := .openParen :: (ks ++ [.closeParen])

theorem derives_parenthesised {t : Expr} (h : Reads ks t) : Derives .chain (parenthesised ks) [t] := by
  obtain ⟨es, hd, rfl⟩ := h
  exact .bare (.first (.group hd))

theorem gather_pair (c : Combinator) (s t : Expr) :
    gather c [s, t] = .join c (s.operandsOf c ++ t.operandsOf c) {} := by
  simp [gather]

/-- Two parenthesised expressions under a combinator read to their trees, dissolved in it. -/
theorem reads_join (c : Combinator) {s t : Expr} (hs : Reads ks s) (ht : Reads ls t) :
    Reads (parenthesised ks ++ ((c.operator?.map Operator.kind).toList ++ parenthesised ls))
      (.join c (s.operandsOf c ++ t.operandsOf c) {}) := by
  rw [← gather_pair]
  have hks := derives_parenthesised hs
  have hls := derives_parenthesised ht
  have hms := derives_series .multi hks
  have hmt := derives_series .multi hls
  have has := derives_series .and hms
  have hat := derives_series .and hmt
  cases c with
  | multi =>
    have h := Derives.more hms hls
    exact reads_of_multi h
  | chain =>
    obtain ⟨es, hd, rfl⟩ := hs
    obtain ⟨fs, hd', rfl⟩ := ht
    have h := Derives.bare (Derives.next 0 (.first (.group hd)) (.group hd'))
    exact reads_of_chain h
  | or =>
    have h := Derives.more (derives_series .or has) hat
    exact ⟨_, h, rfl⟩
  | and =>
    have h := Derives.more has hmt
    have ho : Derives (.series .or) _ [(operand .or).tree _] := .single h
    exact ⟨_, ho, rfl⟩

end Grammar

namespace Lexer
variable {b : Bool} {cs more : List Char} {ks ls : List TokenKind}

theorem lexes_parenthesised (b : Bool) (h : Lexes false cs ks) (hm : Lexes true more ls) :
    Lexes b ('(' :: (cs ++ ')' :: more)) (parenthesised ks ++ ls) := by
  have hclose : ∀ b', Lexes b' (')' :: more) (.closeParen :: ls) := by
    intro b'
    exact .token (takes_single (by decide) rfl more) (by simp) hm
  have hinner := h.append (delimits_cons (.inr (.inl rfl)) more) hclose
  have hkinds : parenthesised ks ++ ls = .openParen :: (ks ++ .closeParen :: ls) := by
    simp [parenthesised]
  rw [hkinds]
  exact .token (takes_single (by decide) rfl _) (by simp) hinner

theorem takes_operator (op : Operator) (rest : List Char) :
    Takes true (op.char :: '(' :: rest) op.kind ('(' :: rest) := by
  cases op with
  | multi => exact takes_single (by decide) rfl _
  | and =>
    have hb : isBlank '&' = false := by decide
    have hk : kindAt true '&' ⟨{}, '&' :: '(' :: rest, .complete⟩ =
        .ok (.and, ⟨Mark.advance {} '&', '(' :: rest, .complete⟩) := rfl
    exact takes_cons hb hk
  | or =>
    have hb : isBlank '|' = false := by decide
    have hk : kindAt true '|' ⟨{}, '|' :: '(' :: rest, .complete⟩ =
        .ok (.or, ⟨Mark.advance {} '|', '(' :: rest, .complete⟩) := rfl
    exact takes_cons hb hk

theorem lexes_join (c : Combinator) {a : List Char} (ha : Lexes false a ks) (hb : Lexes false cs ls) :
    Lexes false ('(' :: (a ++ ')' :: ((c.operator?.map Operator.char).toList ++ '(' :: (cs ++ [')']))))
      (parenthesised ks ++ ((c.operator?.map Operator.kind).toList ++ parenthesised ls)) := by
  have hend : Lexes true [] [] := .finish (by simp)
  have hlast : ∀ b', Lexes b' ('(' :: (cs ++ [')'])) (parenthesised ls) := by
    intro b'
    have h := lexes_parenthesised b' hb hend
    rwa [List.append_nil] at h
  apply lexes_parenthesised false ha
  cases c.operator? with
  | none => exact hlast true
  | some op => exact .token (takes_operator op _) (by cases op <;> simp [Operator.kind]) (hlast _)

end Lexer

namespace Parsed
open Walk

/-- Two paths that parse also parse under a combinator, to their trees dissolved in it. -/
theorem ofText_joinText (c : Combinator) {a b : String} {p q : Parsed} (hp : ofText a = .ok p) (hq : ofText b = .ok q) :
    ∃ r, ofText (c.joinText a b) = .ok r ∧ r.expr.unmarked = (combine c p.expr q.expr).unmarked := by
  obtain ⟨ks, hks, hrs⟩ := lexes_of_ok hp
  obtain ⟨ls, hls, hrt⟩ := lexes_of_ok hq
  have htext : (c.joinText a b).toList =
      '(' :: (a.toList ++ ')' :: ((c.operator?.map Operator.char).toList ++ '(' :: (b.toList ++ [')']))) := by
    simp [Combinator.joinText]
  have hlex := Lexer.lexes_join c hks hls
  rw [← htext] at hlex
  rw [unmarked_combine]
  exact ok_of_lexes hlex (reads_join c hrs hrt)

theorem filled_of_ok {a : String} {p : Parsed} (h : ofText a = .ok p) : Filled p.expr := by
  obtain ⟨ks, _, hr⟩ := lexes_of_ok h
  exact filled_of_unmarked hr.filled

theorem execute_of_unmarked {e f : Expr} (h : e.unmarked = f.unmarked) (doc : Document) (start : NodeId)
    (options : EvalOptions) : e.execute doc start options = f.execute doc start options := by
  rw [execute, execute, ← eval_unmarked, h, eval_unmarked]

/-- The meaning of two paths in parentheses is composed from their meanings, unless it runs out of levels. A path that
the first outcome skips has no influence, and the combinator means the same as one that keeps the two trees apart. -/
theorem execute_joinText (c : Combinator) {a b : String} {p q : Parsed} (hp : ofText a = .ok p) (hq : ofText b = .ok q) :
    ∃ r, ofText (c.joinText a b) = .ok r ∧
      ∀ (doc : Document) (start : NodeId) (options : EvalOptions),
        Upto (r.expr.execute doc start options)
            (c.compose (Walk.eval ⟨doc, options⟩ (options.maxDepth + 1) p.expr)
              (Walk.eval ⟨doc, options⟩ (options.maxDepth + 1) q.expr) [start]) ∧
          (c.Skips (p.expr.execute doc start options) → ∀ b' q' r', ofText b' = .ok q' →
            ofText (c.joinText a b') = .ok r' → r'.expr.execute doc start options = r.expr.execute doc start options) ∧
          Upto (Expr.execute (.join c [p.expr, q.expr] {}) doc start options) (r.expr.execute doc start options) := by
  obtain ⟨r, hr, hu⟩ := ofText_joinText c hp hq
  have hfp := filled_of_ok hp c
  have hfq := filled_of_ok hq c
  refine ⟨r, hr, ?_⟩
  intro doc start options
  have hstart : [start] ≠ [] := List.cons_ne_nil _ _
  rw [execute_of_unmarked hu]
  refine ⟨eval_combine_upto hfp hfq hstart, ?_, eval_nested_upto hfp hfq {} hstart⟩
  intro hskip b' q' r' hq' hr'
  obtain ⟨r'', hr'', hu'⟩ := ofText_joinText c hp hq'
  rw [hr'] at hr''
  cases hr''
  rw [execute_of_unmarked hu']
  exact eval_combine_skips hfp hfq (filled_of_ok hq' c) hstart hskip

/-- The first of two paths that selects something, for the children of a node and the node itself. -/
theorem execute_joinText_children_or_this : ∃ p q r, ofText "*" = .ok p ∧ ofText "." = .ok q ∧ ofText "(*)|(.)" = .ok r ∧
    ∀ (doc : Document) (start : NodeId) (options : EvalOptions),
      Upto (r.expr.execute doc start options)
        (Combinator.or.compose (Walk.eval ⟨doc, options⟩ (options.maxDepth + 1) p.expr)
          (Walk.eval ⟨doc, options⟩ (options.maxDepth + 1) q.expr) [start]) := by
  obtain ⟨p, hp⟩ : ∃ p, ofText "*" = .ok p := ⟨_, rfl⟩
  obtain ⟨q, hq⟩ : ∃ q, ofText "." = .ok q := ⟨_, rfl⟩
  obtain ⟨r, hr, h⟩ := execute_joinText .or hp hq
  exact ⟨p, q, r, hp, hq, hr, fun doc start options => (h doc start options).1⟩

end Parsed
end YamlQuery.Path
