import YamlQuery.Yaml.Token.Space
import YamlQuery.Yaml.Token.Fold
/-!
Plain scalars.
-/
namespace YamlQuery.Yaml.Scan

/-- May the next character belong to a plain scalar? A colon ends one before white space, and flow indicators end
one inside a flow collection. -/
def continuesPlain (inFlow : Bool) : List Char → Bool
  | [] => false
  | c :: rest =>
    if c == ':' && (endsWord rest.head? || (inFlow && isFlowAt rest.head?)) then false
    else !(inFlow && isFlow c)

def plainWord (inFlow : Bool) : Nat → String → Scan String
  | 0, text => return text
  | fuel + 1, text => do
    match (← get).rest with
    | c :: rest =>
      if isSpaceOrBreak c || !continuesPlain inFlow (c :: rest) then return text
      skip
      plainWord inFlow fuel (text.push c)
    | [] => return text

def plainGap (indent : Int) : Nat → Gap → Scan Gap
  | 0, g => return g
  | fuel + 1, g => do
    match ← peek with
    | some c =>
      let s ← get
      if isSpace c then
        if !s.leading then
          skipSpace
          plainGap indent fuel { g with spaces := g.spaces.push c }
        else if c == '\t' && s.place.column < indent then
          skipIndentTab
          plainGap indent fuel g
        else
          skipSpace
          plainGap indent fuel g
      else if isBreak c then
        skipBreak
        if s.leading then plainGap indent fuel { g with breaks := g.breaks.push '\n' }
        else plainGap indent fuel { g with spaces := "", broken := true }
      else return g
    | none => return g

/-- Words and the gaps between them. A comment, a document marker, or outside flow collections a line that is not
indented enough ends the scalar. -/
def plainText (indent : Int) : Nat → Gap → String → Scan String
  | 0, _, text => return text
  | fuel + 1, gap, text => do
    if (← atDocumentMarker) || (← peek) = some '#' then return text
    let flow ← inFlow
    if flow && (← peek) = some '-' && isFlowAt (← peekAt 1) then fail .misplacedIndicator
    let s ← get
    let (gap, text) ←
      if !endsWord s.rest.head? && continuesPlain flow s.rest then
        let joined := text ++ if s.leading then gap.text else gap.spaces
        let rest : Gap := if s.leading then { gap with broken := false, breaks := "" } else { gap with spaces := "" }
        pure (rest, ← plainWord flow s.fuel joined)
      else pure (gap, text)
    match ← peek with
    | some c =>
      if !isSpaceOrBreak c then return text
      let gap ← plainGap indent (← get).fuel gap
      if !flow && (← column) < indent then return text
      plainText indent fuel gap text
    | none => return text

def plainScalar : Scan Unit := do
  saveKey
  allowKey false
  unrollOnes
  let s ← get
  let indent := s.indent + 1
  if s.flowLevel > 0 && s.place.column < indent then fail .badIndentation
  let text ← plainText indent s.fuel {} ""
  if (← get).leading then allowKey true
  if text.isEmpty then fail .emptyPlainScalar
  push s.place (.scalar .plain text)

end YamlQuery.Yaml.Scan
