import YamlQuery.Document.Basic
/-!
Structural comparison of nodes, and looking up a mapping value by its key.
-/
namespace YamlQuery.Document

/-- Is node `x` of `a` structurally equal to node `y` of `b`? A tag on `y` must be matched, a missing one matches
any; mappings compare as sets of pairs, aliases by name. `levels` bounds the nesting looked at. -/
def equalWithin (a b : Document) : Nat → NodeId → NodeId → Bool
  | 0, _, _ => false
  | levels + 1, x, y =>
    match a.node? x, b.node? y with
    | some m, some n =>
      (n.tag.isNone || m.tag == n.tag) &&
      match m.content, n.content with
      | .scalar s _, .scalar t _ => s == t
      | .reference s, .reference t => s == t
      | .sequence xs, .sequence ys =>
        xs.length == ys.length && (xs.zip ys).all fun p => equalWithin a b levels p.1 p.2
      | .mapping xs, .mapping ys =>
        xs.length == ys.length && ys.all fun q => xs.any fun p =>
          equalWithin a b levels p.1 q.1 && equalWithin a b levels p.2 q.2
      | _, _ => false
    | _, _ => false

/-- Structural equality. No chain of containment is longer than the arena. -/
def nodesEqual (a : Document) (x : NodeId) (b : Document) (y : NodeId) : Bool :=
  equalWithin a b (a.size + 1) x y

def lookupText? (d : Document) (mapping : NodeId) (key : String) : Option NodeId := do
  let pairs ← d.pairs? mapping
  (pairs.find? fun p => d.text? p.1 == some key).map (·.2)

def lookupKey? (d : Document) (mapping : NodeId) (probe : Document) (key : NodeId) : Option NodeId := do
  let pairs ← d.pairs? mapping
  (pairs.find? fun p => d.nodesEqual p.1 probe key).map (·.2)

end YamlQuery.Document
