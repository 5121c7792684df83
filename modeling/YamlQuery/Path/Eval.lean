import YamlQuery.Document.Equality
import YamlQuery.Path.Combine
/-!
Evaluating an expression over a document. An expression maps a list of nodes to a list of nodes, in order and with
duplicates; no match is an empty list, not an error. The number of levels left bounds the nesting of operands, the
depth of descent and the length of alias chains.
-/
namespace YamlQuery.Path

structure EvalOptions where
  followAliases : Bool := true
  maxDepth : Nat := 256
  deriving DecidableEq

inductive EvalError
  | unresolvedAlias (name : String)
  | depthExceeded (limit : Nat)
  deriving DecidableEq

def EvalError.message : EvalError → String
  | unresolvedAlias name => "unresolved alias *" ++ name
  | depthExceeded limit => "recursion depth limit of " ++ toString limit ++ " exceeded"

structure Walk where
  doc : Document
  options : EvalOptions

namespace Walk

abbrev Result := Except EvalError (List NodeId)

def tooDeep {α : Type} (w : Walk) : Except EvalError α := .error (.depthExceeded w.options.maxDepth)

def collect {α : Type} (f : α → Result) : List α → Result
  | [] => .ok []
  | a :: as => do
    let here ← f a
    return here ++ (← collect f as)

/-- Follows a chain of alias nodes to its end. Every alias takes a level. -/
def chase (w : Walk) (levels : Nat) (id : NodeId) : Except EvalError NodeId :=
  match w.doc.aliasName? id with
  | none => .ok id
  | some name =>
    match levels with
    | 0 => w.tooDeep
    | levels + 1 =>
      match w.doc.lookupAnchor? name with
      | some target => w.chase levels target
      | none => .error (.unresolvedAlias name)

def resolve (w : Walk) (levels : Nat) (id : NodeId) : Except EvalError NodeId :=
  if w.options.followAliases then w.chase levels id else .ok id

def resolveAll (w : Walk) (levels : Nat) (ids : List NodeId) : Result :=
  collect (fun id => (w.resolve levels id).map ([·])) ids

def descendants (w : Walk) : Nat → NodeId → Result
  | 0, _ => w.tooDeep
  | levels + 1, id =>
    collect (fun child => do
      let target ← w.resolve (levels + 1) child
      return target :: (← w.descendants levels target)) (w.doc.children id)

def keepKind (w : Walk) (keep : NodeKind → Bool) (input : List NodeId) : List NodeId :=
  input.filter fun id => ((w.doc.kind? id).map keep).getD false

def itemAt? (items : List NodeId) (i : Int64) : Option NodeId :=
  let place := if i < 0 then saturatingAdd i (Int64.ofNat items.length) else i
  if place < 0 then none else items[place.toNatClampNeg]?

def lookup? (w : Walk) (key : MapKey) (id : NodeId) : Option NodeId :=
  match key with
  | .simple text => w.doc.lookupText? id text
  | .complex _ key => key.root.bind fun probe => w.doc.lookupKey? id key probe

/-- A single step with `levels + 1` levels left. -/
def step (w : Walk) (levels : Nat) (s : Step) (input : List NodeId) : Result :=
  match s with
  | .root => .ok (if input.isEmpty then [] else w.doc.root.toList)
  | .this => .ok input
  | .parent => .ok (input.filterMap w.doc.parent?)
  | .everyChild => w.resolveAll (levels + 1) (input.flatMap w.doc.children)
  | .everyDescendant => collect (fun id => (w.descendants levels id).map (id :: ·)) input
  | .filterCollection => .ok (w.keepKind (·.isCollection) input)
  | .filterScalar => .ok (w.keepKind (fun k => k = .scalar || k = .reference) input)
  | .filterSequence => .ok (w.keepKind (· = .sequence) input)
  | .filterMapping => .ok (w.keepKind (· = .mapping) input)
  | .index i => w.resolveAll (levels + 1) (input.filterMap fun id => (w.doc.items? id).bind (itemAt? · i))
  | .slice s =>
    w.resolveAll (levels + 1) (input.flatMap fun id =>
      match w.doc.items? id with
      | some items => (s.indices items.length).filterMap (items[·]?)
      | none => [])
  | .mapKey key => w.resolveAll (levels + 1) (input.filterMap (w.lookup? key))
  | .reference name =>
    match w.doc.lookupAnchor? name with
    | none => .error (.unresolvedAlias name)
    | some target => (w.resolve (levels + 1) target).map fun id => input.map fun _ => id

def eval (w : Walk) : Nat → Expr → List NodeId → Result
  | 0, _, _ => w.tooDeep
  | levels + 1, e, input =>
    match e with
    | .step s _ => w.step levels s input
    | .join c operands _ => c.merge operands input (w.eval levels)

end Walk

def Expr.execute (e : Expr) (doc : Document) (start : NodeId) (options : EvalOptions) : Walk.Result :=
  Walk.eval ⟨doc, options⟩ (options.maxDepth + 1) e [start]

def Expr.executeAtRoot (e : Expr) (doc : Document) (options : EvalOptions) : Walk.Result :=
  match doc.root with
  | some root => e.execute doc root options
  | none => .ok []

end YamlQuery.Path
