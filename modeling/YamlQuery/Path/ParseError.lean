import YamlQuery.Yaml.SyntaxError
import YamlQuery.Path.LexError
import YamlQuery.Path.Token
/-!
What can be wrong with a path expression.
-/
namespace YamlQuery.Path

inductive KeyFault
  | unreadable (e : Yaml.SyntaxError)
  | empty
  deriving DecidableEq

def KeyFault.message : KeyFault → String
  | unreadable e => e.message
  | empty => "empty key"

inductive ParseError
  | lex (e : LexError)
  | unexpectedToken (found : TokenKind) (mark : Mark)
  | unmatchedBracket (mark : Mark)
  | unmatchedParen (mark : Mark)
  | missingOperand (mark : Mark)
  | emptyExpression (mark : Mark)
  | incompleteExpression (mark : Mark)
  | numberOutOfRange (text : String) (mark : Mark)
  | zeroStride (mark : Mark)
  | invalidKey (fault : KeyFault) (mark : Mark)
  deriving DecidableEq

namespace ParseError

def mark : ParseError → Mark
  | lex e => e.mark
  | unexpectedToken _ m | unmatchedBracket m | unmatchedParen m | missingOperand m | emptyExpression m
  | incompleteExpression m | numberOutOfRange _ m | zeroStride m | invalidKey _ m => m

def message : ParseError → String
  | lex e => e.message
  | unexpectedToken found m => "unexpected " ++ found.display ++ " at " ++ m.display
  | unmatchedBracket m => "unmatched '[' at " ++ m.display
  | unmatchedParen m => "unmatched parenthesis at " ++ m.display
  | missingOperand m => "missing operand for operator at " ++ m.display
  | emptyExpression m => "empty path expression at " ++ m.display
  | incompleteExpression m => "incomplete path expression at " ++ m.display
  | numberOutOfRange text m => "number " ++ text ++ " out of range at " ++ m.display
  | zeroStride m => "slice stride of zero at " ++ m.display
  | invalidKey fault m => "invalid key literal at " ++ m.display ++ ": " ++ fault.message

end ParseError
end YamlQuery.Path
