import YamlQuery.Path.Parse
/-!
The grammar of path expressions over the kinds of tokens, with the tree that each phrase spells. It knows no marks and
no stacks; precedence is the nesting of its phrases.

    expr  := conj ('|' conj)*      conj := multi ('&' multi)*      multi := chain (',' chain)*
    chain := ('/' | item) ('/'* item)* '/'*                        item  := step | '(' expr ')'
-/
namespace YamlQuery.Path

namespace Expr

mutual

def unmarked : Expr → Expr
  | step s _ => step s {}
  | join c es _ => join c (unmarkedAll es) {}

def unmarkedAll : List Expr → List Expr
  | [] => []
  | e :: es => unmarked e :: unmarkedAll es

end

/-- Operands under one combinator, with those of its own kind dissolved in it. A single operand stands for itself. -/
def gather (c : Combinator) : List Expr → Expr
  | [e] => e
  | es => join c (es.flatMap (operandsOf c)) {}

theorem unmarkedAll_eq_map (es : List Expr) : unmarkedAll es = es.map unmarked := by
  induction es with
  | nil => rfl
  | cons e es ih => simp [unmarkedAll, ih]

theorem operandsOf_unmarked (c : Combinator) (e : Expr) :
    e.unmarked.operandsOf c = (e.operandsOf c).map unmarked := by
  cases e with
  | step s sp => rfl
  | join d es sp =>
    by_cases h : d = c
    · simp [unmarked, operandsOf, h, unmarkedAll_eq_map]
    · simp [unmarked, operandsOf, h]

theorem unmarked_combine (c : Combinator) (a b : Expr) :
    (combine c a b).unmarked = join c (a.unmarked.operandsOf c ++ b.unmarked.operandsOf c) {} := by
  simp [combine, unmarked, unmarkedAll_eq_map, operandsOf_unmarked]

theorem operandsOf_gather (c : Combinator) (es : List Expr) :
    (gather c es).operandsOf c = es.flatMap (operandsOf c) := by
  match es with
  | [] => simp [gather, operandsOf]
  | [e] => simp [gather]
  | e :: f :: es => simp [gather, operandsOf]

theorem gather_append (c : Combinator) (as bs : List Expr) (ha : as ≠ []) (hb : bs ≠ []) :
    gather c (as ++ bs) = join c ((gather c as).operandsOf c ++ (gather c bs).operandsOf c) {} := by
  match as, bs with
  | a :: as, b :: bs =>
    have h : gather c (a :: as ++ b :: bs) = join c ((a :: as ++ b :: bs).flatMap (operandsOf c)) {} := by
      cases as <;> rfl
    rw [h, operandsOf_gather, operandsOf_gather, List.flatMap_append]

/-- Joining two operands extends the list of operands that they were gathered from. -/
theorem unmarked_combine_gather {c : Combinator} {a b : Expr} {as bs : List Expr} (ha : a.unmarked = gather c as)
    (hb : b.unmarked = gather c bs) (has : as ≠ []) (hbs : bs ≠ []) :
    (combine c a b).unmarked = gather c (as ++ bs) := by
  rw [unmarked_combine, ha, hb, gather_append c as bs has hbs]

end Expr

def Operator.kind : Operator → TokenKind
  | multi => .comma
  | and => .and
  | or => .or

namespace Grammar
open Path.Expr

def Numeral (text : String) (i : Int64) : Prop := Integer.int64? 10 text.toList = some i

inductive Word : TokenKind → Step → Prop
  | root : Word .caret .root
  | this : Word .dot .this
  | parent : Word .dotDot .parent
  | everyChild : Word .star .everyChild
  | everyDescendant : Word .starStar .everyDescendant
  | filterScalar : Word .scalarFilter .filterScalar
  | filterCollection : Word .collectionFilter .filterCollection
  | filterSequence : Word .sequenceFilter .filterSequence
  | filterMapping : Word .mappingFilter .filterMapping
  | reference (name : String) : Word (.reference name) (.reference name)

inductive Key : TokenKind → Step → Prop
  | name (text : String) : Key (.key text) (.mapKey (.simple text))
  | literal {text : String} {key : Document} (h : Document.read text = .ok key) (hr : key.root.isSome) :
    Key (.keyLiteral text) (.mapKey (.complex text key))

inductive Bound : List TokenKind → Option Int64 → Prop
  | missing : Bound [] none
  | given {text : String} {i : Int64} (h : Numeral text i) : Bound [.number text] (some i)

inductive Range : List TokenKind → Slice → Prop
  | short {ks ls : List TokenKind} {i j : Option Int64} (hi : Bound ks i) (hj : Bound ls j) :
    Range (ks ++ .colon :: ls) ⟨i, j, 1⟩
  | long {ks ls ms : List TokenKind} {i j n : Option Int64} (hi : Bound ks i) (hj : Bound ls j) (hn : Bound ms n)
    (h0 : n ≠ some 0) : Range (ks ++ .colon :: (ls ++ .colon :: ms)) ⟨i, j, n.getD 1⟩

theorem Bound.colon_not_mem {ks : List TokenKind} {v : Option Int64} (h : Bound ks v) : TokenKind.colon ∉ ks := by
  cases h <;> simp

inductive Indices : List TokenKind → List Int64 → Prop
  | last {text : String} {i : Int64} (h : Numeral text i) : Indices [.number text] [i]
  | cons {text : String} {i : Int64} {ks : List TokenKind} {is : List Int64} (h : Numeral text i) (t : Indices ks is) :
    Indices (.number text :: .comma :: ks) (i :: is)

theorem Indices.colon_not_mem {ks : List TokenKind} {is : List Int64} (h : Indices ks is) :
    TokenKind.colon ∉ ks := by
  induction h with
  | last => simp
  | cons _ _ ih => simpa using ih

theorem Range.colon_mem {ks : List TokenKind} {s : Slice} (h : Range ks s) : TokenKind.colon ∈ ks := by
  cases h <;> simp

def Bracketed (k : TokenKind) : Prop := k = .colon ∨ k = .comma ∨ ∃ text, k = .number text

theorem Bound.bracketed {ks : List TokenKind} {v : Option Int64} (h : Bound ks v) : ∀ k ∈ ks, Bracketed k := by
  cases h <;> simp [Bracketed]

theorem Range.bracketed {ks : List TokenKind} {s : Slice} (h : Range ks s) : ∀ k ∈ ks, Bracketed k := by
  have hc : Bracketed .colon := .inl rfl
  intro k hk
  cases h with
  | short hi hj =>
    cases List.mem_append.1 hk with
    | inl hk => exact hi.bracketed k hk
    | inr hk =>
      rcases List.mem_cons.1 hk with rfl | hk
      · exact hc
      · exact hj.bracketed k hk
  | long hi hj hn _ =>
    simp only [List.mem_append, List.mem_cons] at hk
    rcases hk with hk | rfl | hk | rfl | hk
    · exact hi.bracketed k hk
    · exact hc
    · exact hj.bracketed k hk
    · exact hc
    · exact hn.bracketed k hk

theorem Indices.bracketed {ks : List TokenKind} {is : List Int64} (h : Indices ks is) : ∀ k ∈ ks, Bracketed k := by
  induction h with
  | last => simp [Bracketed]
  | cons _ _ ih => simpa [Bracketed] using ih

inductive StepText : List TokenKind → List Expr → Prop
  | word {k : TokenKind} {s : Step} (h : Word k s) : StepText [k] [.step s {}]
  | key {k : TokenKind} {s : Step} (h : Key k s) : StepText [k] [.step s {}]
  | sibling {k : TokenKind} {s : Step} (h : Key k s) : StepText [.colon, k] [.step .parent {}, .step s {}]
  | index {text : String} {i : Int64} (h : Numeral text i) : StepText [.number text] [.step (.index i) {}]
  | range {first second : String} {i j : Int64} (hi : Numeral first i) (hj : Numeral second j) :
    StepText [.number first, .colon, .number second] [.step (.slice ⟨some i, some j, 1⟩) {}]
  | indices {ks : List TokenKind} {is : List Int64} (h : Indices ks is) :
    StepText (.openBracket :: (ks ++ [.closeBracket])) [gather .multi (is.map fun i => .step (.index i) {})]
  | slice {ks : List TokenKind} {s : Slice} (h : Range ks s) :
    StepText (.openBracket :: (ks ++ [.closeBracket])) [.step (.slice s) {}]

/-- The phrases of the grammar. `steps` is a chain before the slashes at its end, `series op` are operands with `op`
between them. -/
inductive Phrase
  | item
  | steps
  | chain
  | series (op : Operator)

def operand : Operator → Phrase
  | .multi => .chain
  | .and => .series .multi
  | .or => .series .and

def Phrase.tree : Phrase → List Expr → Expr
  | item, es | steps, es | chain, es => gather .chain es
  | series op, es => gather op.combinator es

/-- `Derives p ks es`: the kinds `ks` derive from the phrase `p` and spell the operands `es`. A leading slash is the
root, slashes between steps spell nothing, and those at the end of a chain are together one filter. -/
inductive Derives : Phrase → List TokenKind → List Expr → Prop
  | step {ks : List TokenKind} {es : List Expr} (h : StepText ks es) : Derives .item ks es
  | group {ks : List TokenKind} {es : List Expr} (h : Derives (.series .or) ks es) :
    Derives .item (.openParen :: (ks ++ [.closeParen])) [gather .or es]
  | root : Derives .steps [.slash] [.step .root {}]
  | first {ks : List TokenKind} {es : List Expr} (h : Derives .item ks es) : Derives .steps ks es
  | next {ks ls : List TokenKind} {es fs : List Expr} (n : Nat) (h : Derives .steps ks es) (hi : Derives .item ls fs) :
    Derives .steps (ks ++ (List.replicate n .slash ++ ls)) (es ++ fs)
  | bare {ks : List TokenKind} {es : List Expr} (h : Derives .steps ks es) : Derives .chain ks es
  | filtered {ks : List TokenKind} {es : List Expr} (n : Nat) (h : Derives .steps ks es) :
    Derives .chain (ks ++ List.replicate (n + 1) .slash) (es ++ [.step .filterCollection {}])
  | single {op : Operator} {ks : List TokenKind} {es : List Expr} (h : Derives (operand op) ks es) :
    Derives (.series op) ks [(operand op).tree es]
  | more {op : Operator} {ks ls : List TokenKind} {es fs : List Expr} (h : Derives (.series op) ks es)
    (ho : Derives (operand op) ls fs) : Derives (.series op) (ks ++ op.kind :: ls) (es ++ [(operand op).tree fs])

def Spells (p : Phrase) (ks : List TokenKind) (e : Expr) : Prop := ∃ es, Derives p ks es ∧ e = p.tree es

def Reads (ks : List TokenKind) (e : Expr) : Prop := Spells (.series .or) ks e

section
variable {ks : List TokenKind}

/-- One operand between no operators is itself. -/
theorem derives_series (op : Operator) {t : Expr} (h : Derives (operand op) ks [t]) : Derives (.series op) ks [t] := by
  have hs := Derives.single h
  cases op <;> exact hs

/-- Operands of the tightest operator make a whole expression. -/
theorem reads_of_multi {es : List Expr} (h : Derives (.series .multi) ks es) : Reads ks (gather .multi es) := by
  have hand : Derives (.series .and) ks [(operand .and).tree es] := .single h
  have hor : Derives (.series .or) ks [(operand .and).tree es] := derives_series .or hand
  exact ⟨_, hor, rfl⟩

/-- So does a chain. -/
theorem reads_of_chain {es : List Expr} (h : Derives .chain ks es) : Reads ks (gather .chain es) := by
  have hm : Derives (.series .multi) ks [(operand .multi).tree es] := .single h
  exact reads_of_multi hm

end

end Grammar
end YamlQuery.Path
