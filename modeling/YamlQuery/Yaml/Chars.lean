import YamlQuery.Text.CharClass
/-!
The character classes of YAML. Where a class takes an option, none stands for the end of the text.
-/
namespace YamlQuery.Yaml
open CharClass

def isBreak (c : Char) : Bool := c == '\n' || c == '\r'

def isSpace (c : Char) : Bool := c == ' ' || c == '\t'

def isSpaceOrBreak (c : Char) : Bool := isSpace c || isBreak c

def isFlow (c : Char) : Bool := c == ',' || c == '[' || c == ']' || c == '\x7b' || c == '\x7d'

def isWord (c : Char) : Bool := isAsciiAlphanumeric c || c == '_' || c == '-'

def isUri (c : Char) : Bool :=
  (isWord c && c != '_') || "#;/?:@&=+$,_.!~*'()[]%".toList.contains c

def isTagChar (c : Char) : Bool := isUri c && !isFlow c && c != '!'

def isAnchorChar (c : Char) : Bool := !isSpaceOrBreak c && c != '\ufeff' && !isFlow c

def endsLine : Option Char → Bool
  | none => true
  | some c => isBreak c

def endsWord : Option Char → Bool
  | none => true
  | some c => isSpaceOrBreak c

def isFlowAt : Option Char → Bool
  | none => false
  | some c => isFlow c

end YamlQuery.Yaml
