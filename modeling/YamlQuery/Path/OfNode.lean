import YamlQuery.Text.CharClass
import YamlQuery.Value.OfNode
/-!
The path of a node: text of an expression that selects it from the root, by index in sequences and by key in mappings.
-/
namespace YamlQuery.Document
open CharClass

def isBareKey (text : String) : Bool :=
  match text.toList with
  | c :: cs => startsName c && cs.all continuesName
  | [] => false

/-- The step to the value under a key. An untagged scalar is written bare or between double quotes, any other key as a
key literal that holds its JSON text. -/
def keySegment (d : Document) (key : NodeId) : String :=
  match d.text? key, d.tag? key with
  | some text, none =>
    if isBareKey text then text else "\"" ++ String.ofList (Escape.renderAll .double text.toList) ++ "\""
  | _, _ => "\x7b" ++ (d.jsonValue key).compact ++ "\x7d"

def segment? (d : Document) (parent id : NodeId) : Option String :=
  match d.content? parent with
  | some (.sequence items) => (items.findIdx? (· == id)).map toString
  | some (.mapping pairs) =>
    (pairs.find? fun p => p.2 == id || p.1 == id).map fun p => d.keySegment p.1
  | _ => none

def segmentsTo (d : Document) : Nat → NodeId → List String
  | 0, _ => []
  | levels + 1, id =>
    match d.parent? id with
    | none => []
    | some p => d.segmentsTo levels p ++ [(d.segment? p id).getD "?"]

/-- The path of a node. No chain of parents is longer than the arena. -/
def pathOf (d : Document) (id : NodeId) : String := "/" ++ "/".intercalate (d.segmentsTo d.size id)

end YamlQuery.Document
