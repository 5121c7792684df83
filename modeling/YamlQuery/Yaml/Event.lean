import YamlQuery.Document.Basic
/-!
The events of a YAML document: its nodes in the order of the text, collections as a start and an end.
-/
namespace YamlQuery.Yaml

structure Tag where
  handle : String
  suffix : String
  deriving DecidableEq

def Tag.text (t : Tag) : String := t.handle ++ t.suffix

/-- Anchors are numbered from one in the order of the text; zero stands for none. -/
abbrev AnchorId := Nat

inductive Event
  | documentStart
  | documentEnd
  | scalar (text : String) (style : ScalarStyle) (anchor : AnchorId) (tag : Option Tag)
  | reference (anchor : AnchorId)
  | sequenceStart (anchor : AnchorId) (tag : Option Tag)
  | sequenceEnd
  | mappingStart (anchor : AnchorId) (tag : Option Tag)
  | mappingEnd
  deriving DecidableEq

def Event.emptyScalar : Event := .scalar "" .plain 0 none

end YamlQuery.Yaml
