/-!
Documents: an arena of nodes that refer to each other by index. Collections list their items or pairs, every
node knows the collection that took it in last, and a registry maps anchor names to nodes.
-/
namespace YamlQuery

abbrev NodeId := Nat

inductive ScalarStyle
  | plain
  | singleQuoted
  | doubleQuoted
  | literal
  | folded
  deriving DecidableEq

inductive NodeKind
  | scalar
  | sequence
  | mapping
  | reference
  deriving DecidableEq

namespace NodeKind

def name : NodeKind → String
  | scalar => "scalar"
  | sequence => "sequence"
  | mapping => "mapping"
  | reference => "alias"

def isCollection : NodeKind → Bool
  | sequence | mapping => true
  | scalar | reference => false

end NodeKind

inductive Content
  | scalar (text : String) (style : ScalarStyle)
  | sequence (items : List NodeId)
  | mapping (pairs : List (NodeId × NodeId))
  | reference (name : String)
  deriving DecidableEq

namespace Content

def kind : Content → NodeKind
  | scalar .. => .scalar
  | sequence _ => .sequence
  | mapping _ => .mapping
  | reference _ => .reference

def members : Content → List NodeId
  | sequence items => items
  | mapping pairs => pairs.flatMap fun p => [p.1, p.2]
  | scalar .. | reference _ => []

def children : Content → List NodeId
  | sequence items => items
  | mapping pairs => pairs.map (·.2)
  | scalar .. | reference _ => []

def text? : Content → Option String
  | scalar text _ => some text
  | _ => none

def aliasName? : Content → Option String
  | reference name => some name
  | _ => none

end Content

structure Node where
  content : Content
  parent : Option NodeId := none
  anchor : Option String := none
  tag : Option String := none
  deriving DecidableEq

structure Registry where
  entries : List (String × NodeId) := []

namespace Registry

def get? (r : Registry) (name : String) : Option NodeId := r.entries.lookup name

def insert (r : Registry) (name : String) (id : NodeId) : Registry :=
  if r.entries.any (·.1 == name) then
    ⟨r.entries.map fun e => if e.1 == name then (name, id) else e⟩
  else ⟨r.entries ++ [(name, id)]⟩

def same (a b : Registry) : Bool :=
  a.entries.length == b.entries.length && a.entries.all fun e => b.get? e.1 == some e.2

end Registry

structure Document where
  nodes : Array Node := #[]
  root : Option NodeId := none
  anchors : Registry := {}

namespace Document

def empty : Document := {}

def size (d : Document) : Nat := d.nodes.size

def contains (d : Document) (id : NodeId) : Bool := id < d.nodes.size

def node? (d : Document) (id : NodeId) : Option Node := d.nodes[id]?

def content? (d : Document) (id : NodeId) : Option Content := (d.node? id).map (·.content)

def kind? (d : Document) (id : NodeId) : Option NodeKind := (d.content? id).map (·.kind)

def parent? (d : Document) (id : NodeId) : Option NodeId := (d.node? id).bind (·.parent)

def anchor? (d : Document) (id : NodeId) : Option String := (d.node? id).bind (·.anchor)

def tag? (d : Document) (id : NodeId) : Option String := (d.node? id).bind (·.tag)

def text? (d : Document) (id : NodeId) : Option String := (d.content? id).bind (·.text?)

def aliasName? (d : Document) (id : NodeId) : Option String := (d.content? id).bind (·.aliasName?)

def children (d : Document) (id : NodeId) : List NodeId := ((d.content? id).map (·.children)).getD []

def items? (d : Document) (id : NodeId) : Option (List NodeId) :=
  match d.content? id with
  | some (.sequence items) => some items
  | _ => none

def pairs? (d : Document) (id : NodeId) : Option (List (NodeId × NodeId)) :=
  match d.content? id with
  | some (.mapping pairs) => some pairs
  | _ => none

def lookupAnchor? (d : Document) (name : String) : Option NodeId := d.anchors.get? name

def update (d : Document) (id : NodeId) (f : Node → Node) : Document := { d with nodes := d.nodes.modify id f }

def adopt (d : Document) (owner : NodeId) (ids : List NodeId) : Document :=
  ids.foldl (fun d id => d.update id fun n => { n with parent := some owner }) d

/-- Adds a node that has no parent, anchor or tag; its id is the size before. What it holds becomes its own. -/
def add (d : Document) (c : Content) : Document :=
  let owned := d.adopt d.size c.members
  { owned with nodes := owned.nodes.push { content := c } }

def fill (d : Document) (id : NodeId) (c : Content) : Document :=
  (d.adopt id c.members).update id fun n => { n with content := c }

def setAnchor (d : Document) (id : NodeId) (name : String) : Document :=
  { d.update id (fun n => { n with anchor := some name }) with anchors := d.anchors.insert name id }

def setTag (d : Document) (id : NodeId) (tag : String) : Document := d.update id fun n => { n with tag := some tag }

/-- Makes a node the root. The root has no parent; a collection that holds it keeps it. -/
def setRoot (d : Document) (id : NodeId) : Document :=
  { d.update id (fun n => { n with parent := none }) with root := some id }

def same (a b : Document) : Bool := a.nodes == b.nodes && a.root == b.root && a.anchors.same b.anchors

end Document

inductive Edit
  | add (c : Content)
  | anchor (id : NodeId) (name : String)
  | tag (id : NodeId) (tag : String)
  | root (id : NodeId)

namespace Edit

def mentions : Edit → List NodeId
  | add c => c.members
  | anchor id _ | tag id _ | root id => [id]

def perform? (e : Edit) (d : Document) : Option Document :=
  if e.mentions.all d.contains then
    some <| match e with
      | add c => d.add c
      | anchor id name => d.setAnchor id name
      | tag id t => d.setTag id t
      | root id => d.setRoot id
  else none

end Edit
end YamlQuery
