import YamlQuery.Yaml.Token.Property
import YamlQuery.Yaml.Token.Quoted
import YamlQuery.Yaml.Token.Plain
import YamlQuery.Yaml.Token.Block
import YamlQuery.Yaml.Token.Indicator
/-!
The tokens of a whole text. Each step reads one token, and with it the block starts and ends that its indentation
implies; tokens are handed out once no pending key can still stand in front of them.
-/
namespace YamlQuery.Yaml
namespace Scan

def streamEnd : Scan Unit := do
  modify fun s =>
    if s.place.column = 0 then s else { s with place := { s.place with column := 0, line := s.place.line + 1 } }
  if (← get).simpleKeys.any fun k => k.required && k.possible then fail .keyWithoutColon
  modify fun s => { s with simpleKeys := s.simpleKeys.map fun k => { k with possible := false } }
  unroll (-1)
  removeKey
  allowKey false
  push (← get).place .streamEnd

def documentMarker (kind : TokenKind) : Scan Unit := do
  unroll (-1)
  removeKey
  allowKey false
  let place := (← get).place
  skipMany 3
  push place kind

def documentEnd : Scan Unit := do
  documentMarker .documentEnd
  discard <| skipToLineEnd true
  unless endsLine (← peek) do fail .contentAfterDocument

def content (c : Char) : Scan Unit := do
  let s ← get
  let next := s.rest[1]?
  let flow := s.flowLevel > 0
  match c with
  | '[' => flowStart .flowSequenceStart
  | '\x7b' => flowStart .flowMappingStart
  | ']' => flowEnd .flowSequenceEnd
  | '\x7d' => flowEnd .flowMappingEnd
  | ',' => flowEntry
  | '*' => anchor .reference
  | '&' => anchor .anchor
  | '!' => tag
  | '\'' => quotedScalar true
  | '"' => quotedScalar false
  | '%' | '@' | '\x60' => fail .unexpectedCharacter
  | '-' => if endsWord next then blockEntry else plainScalar
  | '?' => if endsWord next then explicitKey else plainScalar
  | ':' =>
    if endsWord next then value
    else if flow && (isFlowAt next || s.place.index = s.adjacentValueAt) then flowValue
    else plainScalar
  | '|' => if flow then plainScalar else blockScalar true
  | '>' => if flow then plainScalar else blockScalar false
  | _ => plainScalar

def step : Scan Unit := do
  if !(← get).started then
    modify fun s => { s with started := true }
    push (← get).place .streamStart
  else
    skipSpaceAndComments
    staleKeys
    unroll (← column)
    match ← peek with
    | none => streamEnd
    | some c =>
      let lineStart := (← column) = 0
      if lineStart && c == '%' then directiveLine
      else if lineStart && (← atMarker '-') then documentMarker .documentStart
      else if lineStart && (← atMarker '.') then documentEnd
      else
        if ← outsideIndent then fail .badIndentation
        content c

/-- The number of queued tokens in front of every place where a key is still possible. -/
def available (s : Scanner) : Nat :=
  (s.simpleKeys.filter (·.possible)).foldl (fun n k => min n (k.number - s.delivered)) s.queue.size

def deliver : Scan (List Token) := do
  staleKeys
  modifyGet fun s =>
    let n := available s
    ((s.queue.extract 0 n).toList,
      { s with queue := s.queue.extract n s.queue.size, delivered := s.delivered + n })

def run : Nat → Scanner → List Token × Option SyntaxError
  | 0, _ => ([], none)
  | fuel + 1, s =>
    match (do step; deliver : Scan (List Token)) s with
    | .error e => ([], some e)
    | .ok (tokens, s') =>
      if tokens.any (·.kind = .streamEnd) then (tokens, none)
      else
        let r := run fuel s'
        (tokens ++ r.1, r.2)

end Scan

structure Scanned where
  tokens : List Token
  failure : Option SyntaxError

def Scanned.ofText (text : String) : Scanned :=
  let s := Scan.start text
  let r := Scan.run (s.fuel + 1) s
  ⟨r.1, r.2⟩

def Scanned.anchorNames (s : Scanned) : List String :=
  s.tokens.filterMap fun t => match t.kind with
    | .anchor name => some name
    | _ => none

end YamlQuery.Yaml
