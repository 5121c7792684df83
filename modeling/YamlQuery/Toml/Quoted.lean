import YamlQuery.Text.Escape
import YamlQuery.Toml.Space
/-!
Strings of TOML: between double quotes with escapes, between single quotes without, and both kinds over several lines
between triple quotes.
-/
namespace YamlQuery.Toml

/-- A piece of a quoted string: some text and the number of characters that spell it, or the end of the string, which
may have text before it. -/
inductive Piece
  | text (cs : List Char) (length : Nat)
  | close (cs : List Char) (length : Nat)

def gather (piece? : List Char → Option Piece) : Nat → List Char → Option (List Char × List Char)
  | _, [] => none
  | skip + 1, _ :: cs => gather piece? skip cs
  | 0, c :: cs =>
    match piece? (c :: cs) with
    | some (.text t n) => (gather piece? (n - 1) cs).map fun r => (t ++ r.1, r.2)
    | some (.close t n) => some (t, (c :: cs).drop n)
    | none => none

def escape? : List Char → Option (Char × Nat)
  | [] => none
  | c :: cs => if ['b', 't', 'n', 'f', 'r', '"', '\\', 'u', 'U'].contains c then Escape.decode (c :: cs) else none

def escapePiece (cs : List Char) : Option Piece := (escape? cs).map fun r => .text [r.1] (r.2 + 1)

def linePiece (c : Char) : Option Piece := if isLineChar c then some (.text [c] 1) else none

def basicPiece : List Char → Option Piece
  | '"' :: _ => some (.close [] 1)
  | '\\' :: cs => escapePiece cs
  | c :: _ => linePiece c
  | [] => none

def literalPiece : List Char → Option Piece
  | '\'' :: _ => some (.close [] 1)
  | c :: _ => linePiece c
  | [] => none

/-- A run of quotes in a string between triple quotes: three end it, and up to two more before them belong to it. -/
def quoteRun (quote : Char) (cs : List Char) : Option Piece :=
  let n := (cs.takeWhile (· == quote)).length
  if n < 3 then some (.text (List.replicate n quote) n)
  else if n ≤ 5 then some (.close (List.replicate (n - 3) quote) n)
  else none

def hiddenBreak? (cs : List Char) : Option Nat :=
  match afterBreak? (skipSpace cs) with
  | some rest =>
    let next := rest.dropWhile fun c => isSpace c || c == '\n' || c == '\r'
    some (cs.length - next.length)
  | none => none

def longBasicPiece : List Char → Option Piece
  | '\\' :: cs =>
    match hiddenBreak? cs with
    | some n => some (.text [] (n + 1))
    | none => escapePiece cs
  | '\r' :: '\n' :: _ => some (.text ['\n'] 2)
  | '\n' :: _ => some (.text ['\n'] 1)
  | c :: cs => if c = '"' then quoteRun '"' (c :: cs) else linePiece c
  | [] => none

def longLiteralPiece : List Char → Option Piece
  | '\r' :: '\n' :: _ => some (.text ['\n'] 2)
  | '\n' :: _ => some (.text ['\n'] 1)
  | c :: cs => if c = '\'' then quoteRun '\'' (c :: cs) else linePiece c
  | [] => none

def afterFirstBreak (cs : List Char) : List Char := (afterBreak? cs).getD cs

def shortString? : List Char → Option (List Char × List Char)
  | '"' :: cs => gather basicPiece 0 cs
  | '\'' :: cs => gather literalPiece 0 cs
  | _ => none

def string? : List Char → Option (List Char × List Char)
  | '"' :: '"' :: '"' :: cs => gather longBasicPiece 0 (afterFirstBreak cs)
  | '\'' :: '\'' :: '\'' :: cs => gather longLiteralPiece 0 (afterFirstBreak cs)
  | cs => shortString? cs

end YamlQuery.Toml
