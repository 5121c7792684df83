/-!
Line folding. Between two words of a flow scalar stand either spaces, which are kept, or line breaks: the first of
them is folded, to a space if it is the only one, and the others are kept.
-/
namespace YamlQuery.Yaml

structure Gap where
  spaces : String := ""
  broken : Bool := false
  breaks : String := ""

namespace Gap

def text (g : Gap) : String :=
  if g.broken then (if g.breaks.isEmpty then " " else g.breaks) else g.breaks

end Gap
end YamlQuery.Yaml
