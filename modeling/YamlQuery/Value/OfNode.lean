import YamlQuery.Document.Basic
import YamlQuery.Value.JsonText
/-!
The values of document nodes. An alias stands for the value of the node it refers to; one that refers to none, or that
is nested in too many others, is written as text.
-/
namespace YamlQuery.Document

def maxExpansions : Nat := 64

def aliasText (name : String) : ScalarValue := .string ("*" ++ name)

/-- A bound on the nesting of a value: between two expansions no chain of containment is longer than the arena. -/
def valueLevels (d : Document) : Nat := (maxExpansions + 1) * (d.size + 1)

def yamlAt (d : Document) : (levels expansions : Nat) → NodeId → YamlValue
  | 0, _, _ => .scalar .null
  | levels + 1, expansions, id =>
    match d.node? id with
    | none => .scalar .null
    | some n =>
      match n.content with
      | .scalar text style => .scalar (.resolve text style n.tag)
      | .sequence items => .sequence (items.map (d.yamlAt levels expansions))
      | .mapping pairs =>
        .ofPairs (pairs.map fun p => (d.yamlAt levels expansions p.1, d.yamlAt levels expansions p.2))
      | .reference name =>
        match expansions, d.lookupAnchor? name with
        | left + 1, some target => d.yamlAt levels left target
        | _, _ => .scalar (aliasText name)

def yamlValue (d : Document) (id : NodeId) : YamlValue := d.yamlAt d.valueLevels maxExpansions id

/-- The JSON value of a node with at most `levels` of nesting and `expansions` of aliases left. A key that is a scalar
is its text; any other key is the text of its value. -/
def jsonAt (d : Document) : (levels expansions : Nat) → NodeId → JsonValue
  | 0, _, _ => .scalar .null
  | levels + 1, expansions, id =>
    match d.node? id with
    | none => .scalar .null
    | some n =>
      match n.content with
      | .scalar text style => .ofScalar (.resolve text style n.tag)
      | .sequence items => .array (items.map (d.jsonAt levels expansions))
      | .mapping pairs =>
        .ofFields (pairs.map fun p =>
          ((d.text? p.1).getD (d.jsonAt levels expansions p.1).compact, d.jsonAt levels expansions p.2))
      | .reference name =>
        match expansions, d.lookupAnchor? name with
        | left + 1, some target => d.jsonAt levels left target
        | _, _ => .scalar (aliasText name)

def jsonValue (d : Document) (id : NodeId) : JsonValue := d.jsonAt d.valueLevels maxExpansions id

end YamlQuery.Document
