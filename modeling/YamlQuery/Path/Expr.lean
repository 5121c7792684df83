import YamlQuery.Text.Escape
import YamlQuery.Document.Basic
import YamlQuery.Path.Mark
import YamlQuery.Path.Slice
/-!
Path expressions: trees of steps under combinators. `display` shows one node a line; `nodes` lists the tree in
pre-order with the numbers of parents and children.
-/
namespace YamlQuery.Path

inductive MapKey
  | simple (text : String)
  /-- Any key, by structural comparison with the root of a document that was read from `text`. -/
  | complex (text : String) (key : Document)

inductive Step
  | root
  | this
  | parent
  | everyChild
  | everyDescendant
  | filterCollection
  | filterScalar
  | filterSequence
  | filterMapping
  | index (i : Int64)
  | slice (s : Slice)
  | mapKey (key : MapKey)
  | reference (name : String)

namespace Step

def kindName : Step → String
  | root => "root"
  | this => "this"
  | parent => "parent"
  | everyChild => "every-child"
  | everyDescendant => "every-child-r"
  | filterCollection => "filter-collection"
  | filterScalar => "filter-scalar"
  | filterSequence => "filter-sequence"
  | filterMapping => "filter-mapping"
  | index _ => "seq-index"
  | slice _ => "seq-slice"
  | mapKey _ => "map-key"
  | reference _ => "alias"

def isSingle : Step → Bool
  | everyChild | everyDescendant | slice _ => false
  | _ => true

def payloadText : Step → String
  | index i => " " ++ toString i.toInt
  | slice s => " " ++ s.display
  | mapKey (.simple text) => " \"" ++ String.ofList (Escape.renderAll .double text.toList) ++ "\""
  | mapKey (.complex text _) => " \x7b" ++ text ++ "\x7d"
  | reference name => " *" ++ name
  | _ => ""

end Step

inductive Combinator
  | multi
  | chain
  | or
  | and
  deriving DecidableEq

def Combinator.kindName : Combinator → String
  | multi => "multi"
  | chain => "chain"
  | or => "logical-or"
  | and => "logical-and"

inductive Expr
  | step (s : Step) (span : Span)
  | join (c : Combinator) (operands : List Expr) (span : Span)

namespace Expr

def span : Expr → Span
  | step _ s | join _ _ s => s

def kindName : Expr → String
  | step s _ => s.kindName
  | join c _ _ => c.kindName

def isCombinator : Expr → Bool
  | step .. => false
  | join .. => true

def isSingle : Expr → Bool
  | step s _ => s.isSingle
  | join .. => false

def payloadText : Expr → String
  | step s _ => s.payloadText
  | join .. => ""

def operands : Expr → List Expr
  | step .. => []
  | join _ es _ => es

/-- The operands that an expression contributes to a combinator: its own, if it is of that kind. -/
def operandsOf (c : Combinator) (e : Expr) : List Expr :=
  match e with
  | join d es _ => if d = c then es else [e]
  | step .. => [e]

def combine (c : Combinator) (a b : Expr) : Expr :=
  join c (a.operandsOf c ++ b.operandsOf c) (a.span.merge b.span)

mutual

def size : Expr → Nat
  | step .. => 1
  | join _ es _ => sizeAll es + 1

def sizeAll : List Expr → Nat
  | [] => 0
  | e :: es => size e + sizeAll es

end

mutual

def displayAt (depth : Nat) : Expr → String
  | step s _ => String.ofList (List.replicate (2 * depth) ' ') ++ s.kindName ++ s.payloadText ++ "\n"
  | join c es _ => String.ofList (List.replicate (2 * depth) ' ') ++ c.kindName ++ "\n" ++ displayAll (depth + 1) es

def displayAll (depth : Nat) : List Expr → String
  | [] => ""
  | e :: es => displayAt depth e ++ displayAll depth es

end

def display (e : Expr) : String := displayAt 0 e

end Expr

structure Entry where
  expr : Expr
  parent : Option Nat
  children : List Nat

def numberFrom (first : Nat) : List Expr → List Nat
  | [] => []
  | e :: es => first :: numberFrom (first + e.size) es

mutual

def Expr.nodesFrom (parent : Option Nat) (id : Nat) : Expr → List Entry
  | .step s sp => [⟨.step s sp, parent, []⟩]
  | .join c es sp => ⟨.join c es sp, parent, numberFrom (id + 1) es⟩ :: Expr.nodesFromAll id (id + 1) es

def Expr.nodesFromAll (parent : Nat) (id : Nat) : List Expr → List Entry
  | [] => []
  | e :: es => Expr.nodesFrom (some parent) id e ++ Expr.nodesFromAll parent (id + e.size) es

end

def Expr.nodes (e : Expr) : List Entry := Expr.nodesFrom none 0 e

end YamlQuery.Path
