import YamlQuery.Yaml.Token.Space
/-!
Anchors, aliases, tags and directives.
-/
namespace YamlQuery.Yaml.Scan
open CharClass

def anchorName : Scan String := do
  skip
  let name ← takeWord isAnchorChar
  if name.isEmpty then fail .badAnchor
  return String.ofList name

def anchor (kind : String → TokenKind) : Scan Unit := do
  saveKey
  allowKey false
  let place := (← get).place
  let name ← anchorName
  push place (kind name)

def escapedByte : Scan Nat := do
  match (← get).rest with
  | '%' :: a :: b :: _ =>
    if isHexDigit a && isHexDigit b then
      skipMany 3
      return hexValue a * 16 + hexValue b
    else fail .badTag
  | _ => fail .badTag

def escapedTail : Nat → Nat → Scan Nat
  | 0, code => return code
  | n + 1, code => do
    let byte ← escapedByte
    unless byte / 64 = 2 do fail .badTag
    escapedTail n (code * 256 + byte)

/-- A percent escape. The first byte tells how many follow; the bytes are joined into one number, not decoded. -/
def escapedChar : Scan Char := do
  let lead ← escapedByte
  let more ←
    if lead < 0x80 then pure 0
    else if lead / 32 = 6 then pure 1
    else if lead / 16 = 14 then pure 2
    else if lead / 8 = 30 then pure 3
    else fail .badTag
  let code ← escapedTail more lead
  if code.isValidChar then return Char.ofNat code else fail .badTag

def uri (p : Char → Bool) : Nat → Scan (List Char)
  | 0 => return []
  | fuel + 1 => do
    match ← peek with
    | some c =>
      if !p c then return []
      else if c == '%' then
        let e ← escapedChar
        return e :: (← uri p fuel)
      else
        skip
        return c :: (← uri p fuel)
    | none => return []

def tagHandle (inDirective : Bool) : Scan (List Char) := do
  unless (← peek) = some '!' do fail .badTag
  skip
  let word ← takeWord isWord
  if (← peek) = some '!' then
    skip
    return '!' :: word ++ ['!']
  else
    if inDirective && !word.isEmpty then fail .badTag
    return '!' :: word

def verbatimTag : Scan TokenKind := do
  skipMany 2
  let name ← uri isUri (← get).fuel
  unless (← peek) = some '>' do fail .badTag
  skip
  return .tag "" (String.ofList name)

/-- A tag as handle and suffix. Without a second mark the handle is `!` and the word belongs to the suffix; the mark
alone is a suffix. -/
def shorthandTag : Scan TokenKind := do
  let handle ← tagHandle false
  if handle.length ≥ 2 && handle.getLast? = some '!' then
    let suffix ← uri isTagChar (← get).fuel
    if suffix.isEmpty then fail .badTag
    return .tag (String.ofList handle) (String.ofList suffix)
  else
    let suffix := handle.tail ++ (← uri isTagChar (← get).fuel)
    if suffix.isEmpty then return .tag "" "!"
    return .tag "!" (String.ofList suffix)

def tag : Scan Unit := do
  saveKey
  allowKey false
  let place := (← get).place
  let kind ← if (← peekAt 1) = some '<' then verbatimTag else shorthandTag
  let next ← peek
  unless endsWord next || ((← inFlow) && isFlowAt next) do fail .badTag
  push place kind

def skipSpaces : Scan Unit := do discard <| takeWhile isSpace

def versionNumber : Scan Unit := do
  let digits ← takeWord isDigit
  if digits.isEmpty || digits.length > 9 then fail .badDirective

def versionDirective : Scan TokenKind := do
  skipSpaces
  versionNumber
  unless (← peek) = some '.' do fail .badDirective
  skip
  versionNumber
  return .versionDirective

def tagExpansion : Scan (List Char) := do
  match ← peek with
  | some '!' =>
    skip
    return '!' :: (← uri isUri (← get).fuel)
  | some c => if isTagChar c then uri isUri (← get).fuel else fail .badDirective
  | none => fail .badDirective

def tagDirective : Scan TokenKind := do
  skipSpaces
  let handle ← tagHandle true
  skipSpaces
  let expansion ← tagExpansion
  unless endsWord (← peek) do fail .badDirective
  return .tagDirective (String.ofList handle) (String.ofList expansion)

/-- A directive of an unknown name is passed over as one that declares the empty handle. -/
def directive : Scan TokenKind := do
  skip
  let name ← takeWord isWord
  if name.isEmpty || !endsWord (← peek) then fail .badDirective
  let kind ←
    if name = "YAML".toList then versionDirective
    else if name = "TAG".toList then tagDirective
    else
      skipLine
      pure (.tagDirective "" "")
  discard <| skipToLineEnd true
  unless endsLine (← peek) do fail .badDirective
  skipBreak
  return kind

def directiveLine : Scan Unit := do
  unroll (-1)
  removeKey
  allowKey false
  let place := (← get).place
  let kind ← directive
  push place kind

end YamlQuery.Yaml.Scan
