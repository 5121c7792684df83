import YamlQuery.Main
import YamlQuery.Document.Describe
import YamlQuery.Proofs.Path.Grammar
import YamlQuery.Proofs.Path.Grouping
import YamlQuery.Proofs.Path.Stacks
import YamlQuery.Proofs.Path.Passing
import YamlQuery.Proofs.Outcome
import YamlQuery.Proofs.Path.Tokens
import YamlQuery.Proofs.Path.Reading
import YamlQuery.Proofs.Path.Scanning
import YamlQuery.Proofs.Path.Composition
import YamlQuery.Proofs.Path.Parenthesised
import YamlQuery.Proofs.Document.Edits
import YamlQuery.Proofs.Document.Ownership
import YamlQuery.Proofs.Document.EventTree
import YamlQuery.Proofs.Document.Loading
import YamlQuery.Proofs.Document.EventWalk
import YamlQuery.Proofs.Document.Trail
import YamlQuery.Proofs.Path.Segment
import YamlQuery.Proofs.Path.NodePath
import YamlQuery.Proofs.Document.Chain
import YamlQuery.Proofs.Path.Evaluation
import YamlQuery.Proofs.Path.Descent
import YamlQuery.Proofs.Document.Integrity
import YamlQuery.Proofs.Document.Comparison
import YamlQuery.Proofs.Path.Tracing
import YamlQuery.Proofs.Path.SlicePlaces
import YamlQuery.Proofs.Path.Totality
import YamlQuery.Proofs.Document.Opening
import YamlQuery.Proofs.Yaml.Numbering
import YamlQuery.Proofs.Path.Targets
import YamlQuery.Proofs.Text.CharClass
import YamlQuery.Proofs.Path.Spelling
import YamlQuery.Proofs.Document.Order
import YamlQuery.Proofs.Path.Enumeration
import YamlQuery.Proofs.Path.Marks
import YamlQuery.Proofs.Path.Tiling
import YamlQuery.Proofs.Path.Spans
import YamlQuery.Proofs.Value.JsonText
import YamlQuery.Proofs.Path.JsonLiteral
import YamlQuery.Proofs.Yaml.Scanning
import YamlQuery.Proofs.Yaml.JsonScalars
import YamlQuery.Proofs.Yaml.JsonTokens
import YamlQuery.Proofs.Yaml.JsonEvents
import YamlQuery.Proofs.Document.Shown
import YamlQuery.Proofs.Document.Verbatim
import YamlQuery.Proofs.Path.PrintedKey
import YamlQuery.Proofs.Path.Collecting
import YamlQuery.Proofs.Path.Parts
import YamlQuery.Proofs.Document.Grounding
import YamlQuery.Proofs.Path.Downward
import YamlQuery.Proofs.Path.Landing
import YamlQuery.Proofs.Path.Unresolved
import YamlQuery.Proofs.Path.Followed
import YamlQuery.Proofs.Path.Itemwise
import YamlQuery.Proofs.Path.Returning
import YamlQuery.Proofs.Path.Absolute
import YamlQuery.Proofs.Path.SliceRange
import YamlQuery.Proofs.Document.Preorder
import YamlQuery.Proofs.Document.Pairing
import YamlQuery.Proofs.Document.Expansion
import YamlQuery.Proofs.Value.Rendering
import YamlQuery.Proofs.Value.Unaliased
import YamlQuery.Proofs.Value.JsonImage
import YamlQuery.Proofs.Path.Malformed
import YamlQuery.Proofs.Path.Unmarked
import YamlQuery.Proofs.Path.Spread
import YamlQuery.Proofs.Path.PlainKey
import YamlQuery.Proofs.Path.Placement
import YamlQuery.Proofs.Path.PrintedNumbers
import YamlQuery.Proofs.Path.WellFormed
import YamlQuery.Proofs.Text.Classification
import YamlQuery.Proofs.Path.Faults
import YamlQuery.Proofs.Path.StackHeights
import YamlQuery.Proofs.Path.WrittenKeys
import YamlQuery.Proofs.Path.TagGrammar
