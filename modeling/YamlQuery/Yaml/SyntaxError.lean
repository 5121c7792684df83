/-!
What can be wrong with a YAML text. The causes tell which rule was broken. What is shown is the same for all of them: neither
the wording of a cause nor the place it was found at is kept.
-/
namespace YamlQuery.Yaml

inductive SyntaxError
  | tabIndentation
  | commentNotSeparated
  | whitespaceExpected
  | keyWithoutColon
  | badIndentation
  | badDirective
  | badTag
  | badAnchor
  | badEscape
  | badBlockHeader
  | unterminatedQuote
  | contentAfterQuote
  | contentAfterDocument
  | unexpectedCharacter
  | emptyPlainScalar
  | misplacedIndicator
  | flowTooDeep
  | unexpectedToken
  | unknownAnchor
  | unknownHandle
  deriving DecidableEq

def SyntaxError.message (_ : SyntaxError) : String := "YAML syntax error"

end YamlQuery.Yaml
