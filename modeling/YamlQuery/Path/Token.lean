import YamlQuery.Path.Mark
/-!
The tokens of a path text.
-/
namespace YamlQuery.Path

inductive TokenKind
  | slash
  | caret
  | dot
  | dotDot
  | star
  | starStar
  | key (text : String)
  | keyLiteral (text : String)
  /-- An integer as written; whether it is in range is for the grammar to say. -/
  | number (text : String)
  | reference (name : String)
  | colon
  | comma
  | openBracket
  | closeBracket
  | openParen
  | closeParen
  | scalarFilter
  | collectionFilter
  | sequenceFilter
  | mappingFilter
  | and
  | or
  | equals
  | finish
  deriving DecidableEq

namespace TokenKind

/-- After these an ampersand joins two operands instead of naming an anchor. -/
def endsOperand : TokenKind → Bool
  | caret | dot | dotDot | star | starStar | key _ | keyLiteral _ | number _ | reference _ | closeBracket
  | closeParen | scalarFilter | collectionFilter | sequenceFilter | mappingFilter => true
  | slash | colon | comma | openBracket | openParen | and | or | equals | finish => false

def payload? : TokenKind → Option String
  | key t | keyLiteral t | number t | reference t => some t
  | _ => none

def display : TokenKind → String
  | slash => "'/'"
  | caret => "'^'"
  | dot => "'.'"
  | dotDot => "'..'"
  | star => "'*'"
  | starStar => "'**'"
  | key text => "key '" ++ text ++ "'"
  | keyLiteral text => "key literal '\x7b" ++ text ++ "\x7d'"
  | number text => "number " ++ text
  | reference name => "alias '*" ++ name ++ "'"
  | colon => "':'"
  | comma => "','"
  | openBracket => "'['"
  | closeBracket => "']'"
  | openParen => "'('"
  | closeParen => "')'"
  | scalarFilter => "'$'"
  | collectionFilter => "'%'"
  | sequenceFilter => "'[]'"
  | mappingFilter => "'\x7b\x7d'"
  | and => "'&'"
  | or => "'|'"
  | equals => "'='"
  | finish => "end of input"

end TokenKind

structure Token where
  kind : TokenKind
  span : Span
  deriving DecidableEq

end YamlQuery.Path
