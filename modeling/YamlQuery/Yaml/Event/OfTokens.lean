import YamlQuery.Yaml.Event
import YamlQuery.Yaml.Token.Stream
/-!
From tokens to the events of the first document. A stack tells what is expected next, and what after that.
-/
namespace YamlQuery.Yaml

inductive Expected
  | blockNode
  /-- The root behind a start marker, where it may be missing. -/
  | documentContent
  | documentEnd
  | blockSequence (first : Bool)
  | indentlessSequence
  | blockMappingKey (first : Bool)
  | blockMappingValue
  | flowSequence (first : Bool)
  | flowMappingKey (first : Bool)
  | flowMappingValue
  | flowMappingNoValue
  /-- A pair in a flow sequence that is written without braces. -/
  | pairKey
  | pairValue
  | pairEnd
  deriving DecidableEq

structure Reader where
  tokens : List Token
  failure : Option SyntaxError
  expected : List Expected := []
  anchors : List (String × AnchorId) := []
  nextAnchor : AnchorId := 1
  handles : List (String × String) := []

abbrev Read := StateT Reader (Except SyntaxError)

namespace Read

def peek : Read TokenKind := do
  let r ← get
  match r.tokens with
  | t :: _ => return t.kind
  | [] => throw (r.failure.getD .unexpectedToken)

def skip : Read Unit := modify fun r => { r with tokens := r.tokens.tail }

def expect (stack : List Expected) : Read Unit := modify fun r => { r with expected := stack }

def newAnchor (name : String) : Read AnchorId :=
  modifyGet fun r =>
    (r.nextAnchor, { r with anchors := (name, r.nextAnchor) :: r.anchors, nextAnchor := r.nextAnchor + 1 })

/-- Resolves the handle of a tag: by a directive, else the secondary handle has its standard meaning and the primary
one stands for itself. A named handle must have been declared. -/
def resolveTag (handles : List (String × String)) (handle suffix : String) : Except SyntaxError Tag :=
  if handle = "!!" then .ok ⟨(handles.lookup "!!").getD "tag:yaml.org,2002:", suffix⟩
  else if handle = "" && suffix = "!" then .ok ⟨(handles.lookup "").getD "", suffix⟩
  else
    match handles.lookup handle with
    | some expansion => .ok ⟨expansion, suffix⟩
    | none =>
      if handle.length ≥ 2 && handle.startsWith "!" && handle.endsWith "!" then .error .unknownHandle
      else .ok ⟨handle, suffix⟩

def tagHere : Read (Option Tag) := do
  match ← peek with
  | .tag handle suffix =>
    skip
    return some (← resolveTag (← get).handles handle suffix)
  | _ => return none

def anchorHere : Read AnchorId := do
  match ← peek with
  | .anchor name =>
    skip
    newAnchor name
  | _ => return 0

def properties : Read (AnchorId × Option Tag) := do
  match ← peek with
  | .anchor _ =>
    let a ← anchorHere
    return (a, ← tagHere)
  | .tag _ _ =>
    let t ← tagHere
    return (← anchorHere, t)
  | _ => return (0, none)

/-- The first event of a node. `after` is expected behind the node. A node with properties only is an empty
scalar. -/
def node (block indentless : Bool) (after : List Expected) : Read Event := do
  match ← peek with
  | .reference name =>
    match (← get).anchors.lookup name with
    | some id =>
      expect after
      skip
      return .reference id
    | none => throw .unknownAnchor
  | _ =>
    let (anchor, tag) ← properties
    match ← peek with
    | .blockEntry =>
      if indentless then
        expect (.indentlessSequence :: after)
        return .sequenceStart anchor tag
      else if tag.isSome || anchor > 0 then
        expect after
        return .scalar "" .plain anchor tag
      else throw .unexpectedToken
    | .scalar style text =>
      expect after
      skip
      return .scalar text style anchor tag
    | .flowSequenceStart =>
      expect (.flowSequence true :: after)
      return .sequenceStart anchor tag
    | .flowMappingStart =>
      expect (.flowMappingKey true :: after)
      return .mappingStart anchor tag
    | kind =>
      if block && kind = .blockSequenceStart then
        expect (.blockSequence true :: after)
        return .sequenceStart anchor tag
      else if block && kind = .blockMappingStart then
        expect (.blockMappingKey true :: after)
        return .mappingStart anchor tag
      else if tag.isSome || anchor > 0 then
        expect after
        return .scalar "" .plain anchor tag
      else throw .unexpectedToken

def missing (stack : List Expected) : Read Event := do
  expect stack
  return .emptyScalar

def isBlockMappingToken (k : TokenKind) : Bool := k = .key || k = .value || k = .blockEnd

def blockMappingKey (after : List Expected) : Read Event := do
  match ← peek with
  | .key =>
    skip
    if isBlockMappingToken (← peek) then missing (.blockMappingValue :: after)
    else node true true (.blockMappingValue :: after)
  | .value => missing (.blockMappingValue :: after)
  | .blockEnd =>
    expect after
    skip
    return .mappingEnd
  | _ => throw .unexpectedToken

def blockMappingValue (after : List Expected) : Read Event := do
  match ← peek with
  | .value =>
    skip
    if isBlockMappingToken (← peek) then missing (.blockMappingKey false :: after)
    else node true true (.blockMappingKey false :: after)
  | _ => missing (.blockMappingKey false :: after)

def blockSequence (after : List Expected) : Read Event := do
  match ← peek with
  | .blockEnd =>
    expect after
    skip
    return .sequenceEnd
  | .blockEntry =>
    skip
    let k ← peek
    if k = .blockEntry || k = .blockEnd then missing (.blockSequence false :: after)
    else node true false (.blockSequence false :: after)
  | _ => throw .unexpectedToken

def indentlessSequence (after : List Expected) : Read Event := do
  match ← peek with
  | .blockEntry =>
    skip
    let k ← peek
    if k = .blockEntry || isBlockMappingToken k then missing (.indentlessSequence :: after)
    else node true false (.indentlessSequence :: after)
  | _ =>
    expect after
    return .sequenceEnd

def endFlowSequence (after : List Expected) : Read Event := do
  expect after
  skip
  return .sequenceEnd

def flowSequence (first : Bool) (after : List Expected) : Read Event := do
  if (← peek) = .flowSequenceEnd then endFlowSequence after
  else
    unless first do
      if (← peek) = .flowEntry then skip else throw .unexpectedToken
    match ← peek with
    | .flowSequenceEnd => endFlowSequence after
    | .key =>
      expect (.pairKey :: after)
      skip
      return .mappingStart 0 none
    | _ => node false false (.flowSequence false :: after)

def pairKey (after : List Expected) : Read Event := do
  let k ← peek
  if k = .value || k = .flowEntry || k = .flowSequenceEnd then
    skip
    missing (.pairValue :: after)
  else node false false (.pairValue :: after)

def pairValue (after : List Expected) : Read Event := do
  match ← peek with
  | .value =>
    skip
    let k ← peek
    if k = .flowEntry || k = .flowSequenceEnd then missing (.pairEnd :: after)
    else node false false (.pairEnd :: after)
  | _ => missing (.pairEnd :: after)

def endFlowMapping (after : List Expected) : Read Event := do
  expect after
  skip
  return .mappingEnd

def flowMappingKey (first : Bool) (after : List Expected) : Read Event := do
  if (← peek) = .flowMappingEnd then endFlowMapping after
  else
    unless first do
      if (← peek) = .flowEntry then skip else throw .unexpectedToken
    match ← peek with
    | .key =>
      skip
      let k ← peek
      if k = .value || k = .flowEntry || k = .flowMappingEnd then missing (.flowMappingValue :: after)
      else node false false (.flowMappingValue :: after)
    | .value => missing (.flowMappingValue :: after)
    | .flowMappingEnd => endFlowMapping after
    | _ => node false false (.flowMappingNoValue :: after)

def flowMappingValue (after : List Expected) : Read Event := do
  match ← peek with
  | .value =>
    skip
    let k ← peek
    if k = .flowEntry || k = .flowMappingEnd then missing (.flowMappingKey false :: after)
    else node false false (.flowMappingKey false :: after)
  | _ => missing (.flowMappingKey false :: after)

def endsDocument : TokenKind → Bool
  | .versionDirective | .tagDirective .. | .documentStart | .documentEnd | .streamEnd => true
  | _ => false

def documentContent (after : List Expected) : Read Event := do
  if endsDocument (← peek) then missing after else node true false after

/-- The end of a document. A directive may follow only behind an end marker. -/
def documentEnd : Read Event := do
  match ← peek with
  | .versionDirective | .tagDirective .. => throw .unexpectedToken
  | _ =>
    expect []
    return .documentEnd

def skipStart (first : Bool) : Read Unit := do
  if first then
    discard peek
    skip

def next : Read (Option Event) := do
  match (← get).expected with
  | [] => return none
  | e :: after =>
    match e with
    | .blockNode => node true false after
    | .documentContent => documentContent after
    | .documentEnd => documentEnd
    | .blockSequence first => do skipStart first; blockSequence after
    | .indentlessSequence => indentlessSequence after
    | .blockMappingKey first => do skipStart first; blockMappingKey after
    | .blockMappingValue => blockMappingValue after
    | .flowSequence first => do skipStart first; flowSequence first after
    | .flowMappingKey first => do skipStart first; flowMappingKey first after
    | .flowMappingValue => flowMappingValue after
    | .flowMappingNoValue => missing (.flowMappingKey false :: after)
    | .pairKey => pairKey after
    | .pairValue => pairValue after
    | .pairEnd => do
      discard peek
      expect (.flowSequence false :: after)
      return Event.mappingEnd

def skipDocumentEnds : List Token → List Token
  | ⟨p, k⟩ :: ts => if k = .documentEnd then skipDocumentEnds ts else ⟨p, k⟩ :: ts
  | [] => []

/-- Reads directives. A document has at most one version; of several handles the last declared counts. -/
def directives : Nat → Bool → Read Unit
  | 0, _ => pure ()
  | fuel + 1, versioned => do
    match ← peek with
    | .versionDirective =>
      if versioned then throw .badDirective
      modify fun r => { r with handles := [] }
      skip
      directives fuel true
    | .tagDirective handle expansion =>
      modify fun r => { r with handles := [(handle, expansion)] }
      skip
      directives fuel versioned
    | _ => pure ()

def documentStart : Read (Option Event) := do
  modify fun r => { r with tokens := skipDocumentEnds r.tokens }
  match ← peek with
  | .streamEnd => return none
  | .versionDirective | .tagDirective .. | .documentStart =>
    directives (← get).tokens.length false
    match ← peek with
    | .documentStart =>
      skip
      expect [.documentContent, .documentEnd]
      return Event.documentStart
    | _ => throw .unexpectedToken
  | _ =>
    expect [.blockNode, .documentEnd]
    return Event.documentStart

def rest : Nat → Read (List Event)
  | 0 => return []
  | fuel + 1 => do
    match ← next with
    | some e => return e :: (← rest fuel)
    | none => return []

/-- The events of the first document, none for a stream without documents. A token makes at most four events. -/
def document : Read (List Event) := do
  match ← peek with
  | .streamStart => skip
  | _ => throw .unexpectedToken
  match ← documentStart with
  | some e => return e :: (← rest (4 * (← get).tokens.length + 8))
  | none => return []

end Read

def Event.ofScanned? (s : Scanned) : Except SyntaxError (List Event) :=
  (Read.document.run { tokens := s.tokens, failure := s.failure }).map (·.1)

end YamlQuery.Yaml
