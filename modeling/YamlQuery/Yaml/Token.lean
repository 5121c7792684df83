import YamlQuery.Document.Basic
/-!
The tokens of a YAML text. Block structure shows as explicit starts and ends, found by indentation.
-/
namespace YamlQuery.Yaml

structure Place where
  index : Nat := 0
  line : Nat := 0
  column : Nat := 0
  deriving DecidableEq

inductive TokenKind
  | streamStart
  | streamEnd
  | versionDirective
  | tagDirective (handle : String) (expansion : String)
  | documentStart
  | documentEnd
  | blockSequenceStart
  | blockMappingStart
  | blockEnd
  | flowSequenceStart
  | flowSequenceEnd
  | flowMappingStart
  | flowMappingEnd
  | blockEntry
  | flowEntry
  | key
  | value
  | reference (name : String)
  | anchor (name : String)
  | tag (handle : String) (suffix : String)
  | scalar (style : ScalarStyle) (text : String)
  deriving DecidableEq

structure Token where
  place : Place
  kind : TokenKind
  deriving DecidableEq

end YamlQuery.Yaml
