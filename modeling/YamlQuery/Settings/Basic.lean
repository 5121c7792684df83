import YamlQuery.Path.Eval
/-!
The settings of the command: how paths are evaluated and how matches are shown.
-/
namespace YamlQuery

inductive OutputFormat
  | yaml
  | json
  deriving DecidableEq

namespace OutputFormat

def name : OutputFormat → String
  | yaml => "yaml"
  | json => "json"

def ofName? (s : String) : Option OutputFormat :=
  if s = "yaml" then some yaml else if s = "json" then some json else none

end OutputFormat

structure Settings where
  followAliases : Bool := true
  maxDepth : Nat := 256
  format : OutputFormat := .yaml
  showPaths : Bool := false
  deriving DecidableEq

def Settings.evalOptions (s : Settings) : Path.EvalOptions := ⟨s.followAliases, s.maxDepth⟩

end YamlQuery
