import YamlQuery.Yaml.Token.Space
/-!
The indicators that structure a document: collections in flow style, entries, keys and values.
-/
namespace YamlQuery.Yaml.Scan

def closePair (place : Place) : Scan Unit := do
  match (← get).pairOpen with
  | true :: rest =>
    modify fun s => { s with pairOpen := false :: rest, flowMappingStarted := false }
    push place .flowMappingEnd
  | _ => pure ()

def openFlow : Scan Unit := do
  modify fun s => { s with simpleKeys := {} :: s.simpleKeys, flowLevel := s.flowLevel + 1 }
  if (← get).flowLevel > 255 then fail .flowTooDeep

def closeFlow : Scan Unit :=
  modify fun s =>
    if s.flowLevel > 0 then { s with flowLevel := s.flowLevel - 1, simpleKeys := s.simpleKeys.tail } else s

def flowStart (kind : TokenKind) : Scan Unit := do
  saveKey
  rollOne
  openFlow
  allowKey true
  let place := (← get).place
  skip
  if kind = .flowMappingStart then modify fun s => { s with flowMappingStarted := true }
  else modify fun s => { s with pairOpen := false :: s.pairOpen }
  discard <| skipToLineEnd true
  push place kind

def flowEnd (kind : TokenKind) : Scan Unit := do
  removeKey
  closeFlow
  allowKey false
  if kind = .flowSequenceEnd then
    closePair (← get).place
    modify fun s => { s with pairOpen := s.pairOpen.tail }
  let place := (← get).place
  skip
  discard <| skipToLineEnd true
  modify fun s => if s.flowLevel > 0 then { s with adjacentValueAt := s.place.index } else s
  push place kind

def flowEntry : Scan Unit := do
  removeKey
  allowKey true
  closePair (← get).place
  let place := (← get).place
  skip
  discard <| skipToLineEnd true
  push place .flowEntry

/-- A property at the start of a line may not stand before an entry at the start of a line. -/
def checkPropertyBeforeEntry : Scan Unit := do
  let s ← get
  match s.queue.back? with
  | some ⟨place, .anchor _⟩ | some ⟨place, .tag _ _⟩ =>
    if s.place.column = 0 && place.column = 0 && s.indent > -1 then fail .badIndentation
  | _ => pure ()

def blockEntry : Scan Unit := do
  if ← inFlow then fail .misplacedIndicator
  unless (← get).simpleKeyAllowed do fail .misplacedIndicator
  checkPropertyBeforeEntry
  let place := (← get).place
  skip
  roll place.column none .blockSequenceStart place
  let gap ← skipToLineEnd true
  if gap.tabs && (← peek) = some '-' && endsWord (← peekAt 1) then fail .tabIndentation
  discard <| skipToLineEnd false
  match ← peek with
  | some c => if isBreak c || isFlow c then rollOne
  | none => pure ()
  removeKey
  allowKey true
  push (← get).place .blockEntry

def explicitKey : Scan Unit := do
  let place := (← get).place
  if ← inFlow then modify fun s => { s with flowMappingStarted := true }
  else
    unless (← get).simpleKeyAllowed do fail .misplacedIndicator
    roll place.column none .blockMappingStart place
  removeKey
  allowKey !(← inFlow)
  skip
  unless ← skipSpacesAndBreaks (← get).fuel do fail .whitespaceExpected
  if (← peek) = some '\t' then fail .tabIndentation
  push place .key

def checkTabAfterColon : Scan Unit := do
  if (← peek) = some '\t' then
    let gap ← skipToLineEnd true
    if !gap.spaces && ((← peek).map isWord).getD false then fail .tabIndentation

/-- A colon. It makes the simple key that is possible here a key; without one it follows an explicit key or none. In
a flow sequence outside braces it opens a mapping of one pair. -/
def value : Scan Unit := do
  let s ← get
  let key := (s.simpleKeys.head?).getD {}
  let opensPair := !s.pairOpen.isEmpty && !s.flowMappingStarted
  if opensPair then modify fun s => { s with pairOpen := true :: s.pairOpen.tail }
  skip
  checkTabAfterColon
  let place := (← get).place
  if key.possible then
    insertBefore key.number key.place .key
    if opensPair then
      if key.place.line < s.place.line then fail .misplacedIndicator
      insertBefore key.number place .flowMappingStart
    roll key.place.column (some key.number) .blockMappingStart s.place
    rollOne
    modify fun s => { s with
      simpleKeys := { key with possible := false } :: s.simpleKeys.tail, simpleKeyAllowed := false }
  else
    if opensPair then push place .flowMappingStart
    if s.flowLevel = 0 then
      unless (← get).simpleKeyAllowed do fail .misplacedIndicator
      roll s.place.column none .blockMappingStart s.place
    rollOne
    allowKey (s.flowLevel = 0)
  push s.place .value

/-- In a flow collection a colon without white space after it may not stand before a nested collection, unless it
follows a quoted or flow key. -/
def flowValue : Scan Unit := do
  let s ← get
  let next ← peekAt 1
  if s.place.index ≠ s.adjacentValueAt && (next = some '[' || next = some '\x7b') then fail .misplacedIndicator
  value

end YamlQuery.Yaml.Scan
