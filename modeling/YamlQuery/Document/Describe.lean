import YamlQuery.Text.Visible
import YamlQuery.Document.Basic
/-!
A node in one line, for people who look into a document.
-/
namespace YamlQuery

def NodeKind.title : NodeKind → String
  | .scalar => "Scalar"
  | .sequence => "Sequence"
  | .mapping => "Mapping"
  | .reference => "Alias"

def Content.detail : Content → String
  | .scalar text _ => ", text: " ++ Visible.quoted text
  | .reference name => ", alias: " ++ Visible.quoted name
  | .sequence _ | .mapping _ => ""

def Document.describe? (d : Document) (id : NodeId) : Option String :=
  (d.content? id).map fun c =>
    "NodeRef \x7b id: NodeId(" ++ toString id ++ "), kind: " ++ c.kind.title ++ c.detail ++ " \x7d"

end YamlQuery
