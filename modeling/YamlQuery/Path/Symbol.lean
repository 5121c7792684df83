import YamlQuery.Text.Integer
import YamlQuery.Document.Read
import YamlQuery.Path.Lexer
import YamlQuery.Path.Expr
import YamlQuery.Path.ParseError
/-!
The symbols of a path expression: tokens grouped into steps, slashes, operators and parentheses. Brackets, slices,
sibling keys and key literals become steps here, so that only operators are left to the grammar.
-/
namespace YamlQuery.Path

inductive Operator
  | multi
  | and
  | or
  deriving DecidableEq

namespace Operator

def precedence : Operator → Nat
  | multi => 3
  | and => 2
  | or => 1

def combinator : Operator → Combinator
  | multi => .multi
  | and => .and
  | or => .or

end Operator

inductive Symbol
  | step (e : Expr)
  | slash (span : Span)
  | operator (op : Operator) (mark : Mark)
  | openParen (mark : Mark)
  | closeParen (mark : Mark)

namespace Symbol

def integer (text : String) (mark : Mark) : Except ParseError Int64 :=
  match Integer.int64? 10 text.toList with
  | some n => .ok n
  | none => .error (.numberOutOfRange text mark)

def keyLiteral (text : String) (span : Span) : Except ParseError Expr :=
  match Document.read text with
  | .error e => .error (.invalidKey (.unreadable e) span.start)
  | .ok key =>
    if key.root.isNone then .error (.invalidKey .empty span.start)
    else .ok (.step (.mapKey (.complex text key)) span)

def simpleStep? : TokenKind → Option Step
  | .caret => some .root
  | .dot => some .this
  | .dotDot => some .parent
  | .star => some .everyChild
  | .starStar => some .everyDescendant
  | .scalarFilter => some .filterScalar
  | .collectionFilter => some .filterCollection
  | .sequenceFilter => some .filterSequence
  | .mappingFilter => some .filterMapping
  | .key text => some (.mapKey (.simple text))
  | .reference name => some (.reference name)
  | _ => none

def siblingKey (t : Token) : Except ParseError Expr :=
  match t.kind with
  | .key text => .ok (.step (.mapKey (.simple text)) t.span)
  | .keyLiteral text => keyLiteral text t.span
  | other => .error (.unexpectedToken other t.span.start)

/-- The fields of a slice, between its colons, at most three. `last` is the field being collected, in reverse. -/
def fields (done : List (List Token)) (last : List Token) : List Token → Except ParseError (List (List Token))
  | [] => .ok (done ++ [last.reverse])
  | t :: ts =>
    match t.kind with
    | .colon =>
      if done.length = 2 then .error (.unexpectedToken .colon t.span.start)
      else fields (done ++ [last.reverse]) [] ts
    | .comma => .error (.unexpectedToken .comma t.span.start)
    | _ => fields done (t :: last) ts

def field : List Token → Except ParseError (Option (Int64 × Mark))
  | [] => .ok none
  | [t] =>
    match t.kind with
    | .number text => (integer text t.span.start).map fun n => some (n, t.span.start)
    | other => .error (.unexpectedToken other t.span.start)
  | _ :: t :: _ => .error (.unexpectedToken t.kind t.span.start)

/-- The slice of a bracket with colons. A stride that is written may not be zero. -/
def slice (items : List Token) (span : Span) : Except ParseError Expr := do
  let values ← (← fields [] [] items).mapM field
  let bound := fun (i : Nat) => (values[i]?).join
  match bound 2 with
  | some (n, mark) => if n = 0 then throw (.zeroStride mark)
  | none => pure ()
  let stride := ((bound 2).map (·.1)).getD 1
  return .step (.slice ⟨(bound 0).map (·.1), (bound 1).map (·.1), stride⟩) span

def indices (close : Mark) : Bool → List Token → Except ParseError (List Expr)
  | expecting, [] => if expecting then .error (.missingOperand close) else .ok []
  | expecting, t :: ts =>
    match t.kind with
    | .comma => if expecting then .error (.missingOperand t.span.start) else indices close true ts
    | .number text =>
      if expecting then do
        let i ← integer text t.span.start
        return .step (.index i) t.span :: (← indices close false ts)
      else .error (.unexpectedToken t.kind t.span.start)
    | other => .error (.unexpectedToken other t.span.start)

def bracket (items : List Token) (close : Mark) (span : Span) : Except ParseError Expr :=
  if items.any (·.kind = .colon) then slice items span
  else
    (indices close true items).map fun es =>
      match es with
      | [.step s _] => .step s span
      | es => .join .multi es span

structure OpenBracket where
  mark : Mark
  items : List Token

end Symbol

structure Sentence where
  symbols : List Symbol
  ending : Except ParseError Mark

namespace Sentence

def fail (e : ParseError) : Sentence := ⟨[], .error e⟩

def cons (s : Symbol) (r : Sentence) : Sentence := ⟨s :: r.symbols, r.ending⟩

def consStep (e : Except ParseError Expr) (r : Sentence) : Sentence :=
  match e with
  | .ok e => cons (.step e) r
  | .error e => fail e

/-- Groups tokens into symbols. Two numbers with a colon between them are a slice; elsewhere a colon makes a sibling
step of the key after it: the parent, then the key. -/
def ofTokens (failure : Option LexError) : Option Symbol.OpenBracket → List Token → Sentence
  | _, [] =>
    -- tokens end with the end of the text, unless a fault cut them off
    match failure with
    | some e => fail (.lex e)
    | none => ⟨[], .ok {}⟩
  | some b, t :: ts =>
    match t.kind with
    | .closeBracket =>
      consStep (Symbol.bracket b.items.reverse t.span.start ⟨b.mark, t.span.stop⟩) (ofTokens failure none ts)
    | .finish => fail (.unmatchedBracket b.mark)
    | .number _ | .colon | .comma => ofTokens failure (some { b with items := t :: b.items }) ts
    | other => fail (.unexpectedToken other t.span.start)
  | none, ⟨.number first, sp⟩ :: ⟨.colon, _⟩ :: ⟨.number second, sp'⟩ :: ts =>
    match Symbol.integer first sp.start with
    | .error e => fail e
    | .ok a =>
      consStep
        ((Symbol.integer second sp'.start).map fun b => .step (.slice ⟨some a, some b, 1⟩) (sp.merge sp'))
        (ofTokens failure none ts)
  | none, ⟨.colon, colon⟩ :: t :: ts =>
    match Symbol.siblingKey t with
    | .ok key => cons (.step (.step .parent colon)) (cons (.step key) (ofTokens failure none ts))
    | .error e => fail e
  | none, t :: ts =>
    match t.kind with
    | .finish => ⟨[], .ok t.span.start⟩
    | .slash => cons (.slash t.span) (ofTokens failure none ts)
    | .comma => cons (.operator .multi t.span.start) (ofTokens failure none ts)
    | .and => cons (.operator .and t.span.start) (ofTokens failure none ts)
    | .or => cons (.operator .or t.span.start) (ofTokens failure none ts)
    | .openParen => cons (.openParen t.span.start) (ofTokens failure none ts)
    | .closeParen => cons (.closeParen t.span.start) (ofTokens failure none ts)
    | .openBracket => ofTokens failure (some ⟨t.span.start, []⟩) ts
    | .keyLiteral text => consStep (Symbol.keyLiteral text t.span) (ofTokens failure none ts)
    | .number text =>
      consStep ((Symbol.integer text t.span.start).map fun n => .step (.index n) t.span) (ofTokens failure none ts)
    | other =>
      match Symbol.simpleStep? other with
      | some s => cons (.step (.step s t.span)) (ofTokens failure none ts)
      | none =>
        -- a colon at the end of what could be read: what follows it is the fault
        match other, failure with
        | .colon, some e => fail (.lex e)
        | _, _ => fail (.unexpectedToken other t.span.start)

end Sentence
end YamlQuery.Path
