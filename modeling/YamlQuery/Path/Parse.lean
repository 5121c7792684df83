import YamlQuery.Path.Symbol
/-!
From symbols to an expression, with a stack of operands and a stack of operators. A step behind an operand is chained
to it. An operator first folds the pending ones that bind at least as tightly, so each is left associative. A
parenthesis keeps the operators before it pending until it closes.
-/
namespace YamlQuery.Path

inductive Pending
  | operator (op : Operator) (mark : Mark)
  /-- An open parenthesis: whether it follows an operand, and the number of operands before it. -/
  | group (followsOperand : Bool) (base : Nat) (mark : Mark)

def Pending.mark : Pending → Mark
  | operator _ m | group _ _ m => m

structure Machine where
  operands : List Expr := []
  pending : List Pending := []
  afterOperand : Bool := false

namespace Machine

def pushStep (e : Expr) (m : Machine) : Machine :=
  match m.afterOperand, m.operands with
  | true, prev :: rest => { m with operands := prev.combine .chain e :: rest }
  | _, operands => { m with operands := e :: operands, afterOperand := true }

def fold (op : Operator) (mark : Mark) (operands : List Expr) : Except ParseError (List Expr) :=
  match operands with
  | b :: a :: rest => .ok (a.combine op.combinator b :: rest)
  | _ => .error (.missingOperand mark)

def foldWhile (precedence : Nat) :
    List Pending → List Expr → Except ParseError (List Pending × List Expr)
  | .operator op mark :: pending, operands =>
    if op.precedence < precedence then .ok (.operator op mark :: pending, operands)
    else do foldWhile precedence pending (← fold op mark operands)
  | pending, operands => .ok (pending, operands)

def pushOperator (op : Operator) (mark : Mark) (m : Machine) : Except ParseError Machine := do
  if !m.afterOperand then throw (.missingOperand mark)
  let (pending, operands) ← foldWhile op.precedence m.pending m.operands
  return ⟨operands, .operator op mark :: pending, false⟩

def openGroup (mark : Mark) (m : Machine) : Machine :=
  { m with pending := .group m.afterOperand m.operands.length mark :: m.pending, afterOperand := false }

/-- Closes the innermost parenthesis. What it holds is chained to an operand before it. -/
def closeGroup (mark : Mark) (m : Machine) : Except ParseError Machine := do
  if !m.afterOperand then
    match m.pending with
    | .group _ _ start :: _ => throw (.emptyExpression start)
    | .operator _ opMark :: _ => throw (.missingOperand opMark)
    | [] => throw (.unmatchedParen mark)
  let (pending, operands) ← foldWhile 0 m.pending m.operands
  match pending with
  | .group follows base start :: pending =>
    if operands.length ≠ base + 1 then throw (.incompleteExpression start)
    if follows then
      match operands with
      | inner :: outer :: rest => return ⟨outer.combine .chain inner :: rest, pending, true⟩
      | _ => throw (.incompleteExpression start)
    else return ⟨operands, pending, true⟩
  | _ => throw (.unmatchedParen mark)

def isTrailing : List Symbol → Bool
  | [] | .closeParen _ :: _ | .operator .. :: _ => true
  | _ => false

/-- A slash is the root where an operand is due, a filter for collections at the end of a chain, and else only
separates steps. -/
def slash (span : Span) (next : List Symbol) (m : Machine) : Machine :=
  if !m.afterOperand then m.pushStep (.step .root span)
  else if isTrailing next then m.pushStep (.step .filterCollection span)
  else m

def take (s : Symbol) (next : List Symbol) (m : Machine) : Except ParseError Machine :=
  match s with
  | .step e => .ok (m.pushStep e)
  | .slash span => .ok (m.slash span next)
  | .operator op mark => m.pushOperator op mark
  | .openParen mark => .ok (m.openGroup mark)
  | .closeParen mark => m.closeGroup mark

def run : List Symbol → Machine → Except ParseError Machine
  | [], m => .ok m
  | s :: next, m => do run next (← m.take s next)

def finish (stop : Mark) (m : Machine) : Except ParseError Expr := do
  match m.afterOperand, m.pending with
  | false, .group _ _ mark :: _ => throw (.unmatchedParen mark)
  | false, .operator _ mark :: _ => throw (.missingOperand mark)
  | _, _ => pure ()
  let (pending, operands) ← foldWhile 0 m.pending m.operands
  match pending with
  | p :: _ => throw (.unmatchedParen p.mark)
  | [] =>
    match operands.reverse with
    | [e] => return e
    | [] => throw (.emptyExpression stop)
    | _ :: e :: _ => throw (.incompleteExpression e.span.start)

end Machine

/-- The expression that a sentence spells. A fault of the grammar comes before one of the text behind it. -/
def Sentence.parse (s : Sentence) : Except ParseError Expr := do
  let m ← Machine.run s.symbols {}
  m.finish (← s.ending)

structure Parsed where
  expr : Expr
  source : String

namespace Parsed

def ofBytes (bytes : List UInt8) : Except ParseError Parsed := do
  let lexed := Lexed.ofBytes bytes
  let expr ← (Sentence.ofTokens lexed.failure none lexed.tokens).parse
  return ⟨expr, String.ofList (Utf8.read bytes).1⟩

def ofText (text : String) : Except ParseError Parsed := ofBytes (Utf8.encode text.toList)

end Parsed
end YamlQuery.Path
