/-!
White space, comments and the ends of lines in TOML.
-/
namespace YamlQuery.Toml

def isSpace (c : Char) : Bool := c == ' ' || c == '\t'

def isLineChar (c : Char) : Bool := c == '\t' || (' ' ≤ c && c ≠ '\x7f')

def skipSpace (cs : List Char) : List Char := cs.dropWhile isSpace

def afterBreak? : List Char → Option (List Char)
  | '\n' :: cs => some cs
  | '\r' :: '\n' :: cs => some cs
  | _ => none

/-- What follows the rest of a line that holds nothing but white space and a comment. The last line may lack its
break. -/
def afterLine? (cs : List Char) : Option (List Char) :=
  let cs := match skipSpace cs with
    | '#' :: comment => comment.dropWhile isLineChar
    | cs => cs
  if cs.isEmpty then some [] else afterBreak? cs

def skipLines : (inComment : Bool) → List Char → Option (List Char)
  | _, [] => some []
  | inComment, c :: cs =>
    if c = '\n' then skipLines false cs
    else if c = '\r' then if cs.head? = some '\n' then skipLines false cs else none
    else if inComment then if isLineChar c then skipLines true cs else none
    else if isSpace c then skipLines false cs
    else if c = '#' then skipLines true cs
    else some (c :: cs)

end YamlQuery.Toml
