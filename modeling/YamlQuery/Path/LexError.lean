import YamlQuery.Path.Mark
/-!
What can be wrong with the characters of a path text.
-/
namespace YamlQuery.Path

inductive LexError
  | invalidUtf8 (mark : Mark)
  | partialUtf8 (mark : Mark)
  | unterminatedQuote (mark : Mark)
  | invalidEscape (mark : Mark)
  | invalidTag (mark : Mark)
  | unterminatedKey (mark : Mark)
  | unexpectedChar (c : Char) (mark : Mark)
  deriving DecidableEq

namespace LexError

def mark : LexError → Mark
  | invalidUtf8 m | partialUtf8 m | unterminatedQuote m | invalidEscape m | invalidTag m | unterminatedKey m
  | unexpectedChar _ m => m

def message : LexError → String
  | invalidUtf8 m => "invalid UTF-8 sequence at " ++ m.display
  | partialUtf8 m => "truncated UTF-8 sequence at " ++ m.display
  | unterminatedQuote m => "unterminated quoted key starting at " ++ m.display
  | invalidEscape m => "invalid escape sequence at " ++ m.display
  | invalidTag m => "invalid tag at " ++ m.display
  | unterminatedKey m => "unterminated key literal starting at " ++ m.display
  | unexpectedChar c m => "unexpected character '" ++ c.toString ++ "' at " ++ m.display

end LexError
end YamlQuery.Path
