import YamlQuery.Yaml.Token.Space
import YamlQuery.Yaml.Token.Fold
import YamlQuery.Text.Escape
/-!
Scalars between quotes.
-/
namespace YamlQuery.Yaml.Scan
open CharClass

def quotedEscape : Scan Char := do
  match (← get).rest with
  | _ :: body =>
    match Escape.decode body with
    | some (c, n) => skipMany (n + 1); return c
    | none => fail .badEscape
  | [] => fail .badEscape

/-- A run without white space, up to the closing quote. Tells whether an escaped line break ended it. -/
def quotedWord (single : Bool) : Nat → String → Scan (String × Bool)
  | 0, text => return (text, false)
  | fuel + 1, text => do
    match (← get).rest with
    | [] => return (text, false)
    | c :: rest =>
      if isSpaceOrBreak c then return (text, false)
      else if single then
        if c == '\'' then
          if rest.head? = some '\'' then
            skipMany 2
            quotedWord single fuel (text.push '\'')
          else return (text, false)
        else
          skip
          quotedWord single fuel (text.push c)
      else if c == '"' then return (text, false)
      else if c == '\\' then
        match rest with
        | b :: _ =>
          if isBreak b then
            skip
            skipBreak
            return (text, true)
          else
            let e ← quotedEscape
            quotedWord single fuel (text.push e)
        | [] => fail .badEscape
      else
        skip
        quotedWord single fuel (text.push c)

/-- White space inside quotes. `blanks` tells that a line break, perhaps an escaped one, came before. -/
def quotedGap : Nat → Bool → Gap → Scan (Bool × Gap)
  | 0, blanks, g => return (blanks, g)
  | fuel + 1, blanks, g => do
    match ← peek with
    | some c =>
      if isSpace c then
        if blanks then
          if c == '\t' && (← outsideIndent) then fail .tabIndentation
          skipSpace
          quotedGap fuel blanks g
        else
          skipSpace
          quotedGap fuel blanks { g with spaces := g.spaces.push c }
      else if isBreak c then
        skipBreak
        if blanks then quotedGap fuel true { g with breaks := g.breaks.push '\n' }
        else quotedGap fuel true { g with spaces := "", broken := true }
      else return (blanks, g)
    | none => return (blanks, g)

def quotedText (single : Bool) : Nat → String → Scan String
  | 0, text => return text
  | fuel + 1, text => do
    if ← atDocumentMarker then fail .unterminatedQuote
    if (← peek).isNone then fail .unterminatedQuote
    if ← outsideIndent then fail .badIndentation
    let (text, escapedBreak) ← quotedWord single (← get).fuel text
    if (← peek) = some (if single then '\'' else '"') then return text
    let (blanks, gap) ← quotedGap (← get).fuel escapedBreak {}
    quotedText single fuel (text ++ if blanks then gap.text else gap.spaces)

/-- What may follow a closing quote on its line: the end of the line, a colon if the scalar can be a key, and in a
flow collection its separators. -/
def mayFollowQuote (start : Place) (s : Scanner) : Option Char → Bool
  | none => true
  | some c =>
    isBreak c ||
    (s.flowLevel > 0 && (c == ',' || c == ']' || c == '\x7d' || c == ':')) ||
    (s.flowLevel = 0 && c == ':' && start.line = s.place.line)

def quotedScalar (single : Bool) : Scan Unit := do
  saveKey
  allowKey false
  let start := (← get).place
  skip
  let text ← quotedText single (← get).fuel ""
  skip
  discard <| skipToLineEnd true
  let s ← get
  unless mayFollowQuote start s s.rest.head? do fail .contentAfterQuote
  skipSpaceAndComments
  modify fun s => { s with adjacentValueAt := s.place.index }
  push start (.scalar (if single then .singleQuoted else .doubleQuoted) text)

end YamlQuery.Yaml.Scan
