import YamlQuery.Document.OfEvents
import YamlQuery.Yaml.Event.OfTokens
/-!
Reading the first document of a YAML text.
-/
namespace YamlQuery

def Document.read (text : String) : Except Yaml.SyntaxError Document :=
  let scanned := Yaml.Scanned.ofText text
  (Yaml.Event.ofScanned? scanned).map (Document.ofEvents scanned.anchorNames)

end YamlQuery
