import YamlQuery.Yaml.Token.Space
/-!
Literal and folded block scalars.
-/
namespace YamlQuery.Yaml.Scan
open CharClass

inductive Chomping
  | strip
  | clip
  | keep
  deriving DecidableEq

def chomping? : Option Char → Option Chomping
  | some '+' => some .keep
  | some '-' => some .strip
  | _ => none

def indentDigit : Scan Nat := do
  match ← peek with
  | some c =>
    if c == '0' then fail .badBlockHeader
    skip
    return c.toNat - 48
  | none => return 0

/-- Chomping and indentation indicators in either order; without the second the indentation is found from the text. -/
def blockHeader : Scan (Chomping × Nat) := do
  match chomping? (← peek) with
  | some chomping =>
    skip
    let digit ← peek
    return (chomping, ← if (digit.map isDigit).getD false then indentDigit else pure 0)
  | none =>
    let digit ← peek
    if (digit.map isDigit).getD false then
      let n ← indentDigit
      match chomping? (← peek) with
      | some chomping => skip; return (chomping, n)
      | none => return (.clip, n)
    else return (.clip, 0)

def skipIndentSpaces (indent : Nat) : Nat → Scan Unit
  | 0 => pure ()
  | fuel + 1 => do
    if (← column) < indent && (← peek) = some ' ' then
      skipSpace
      skipIndentSpaces indent fuel

def blockIndent (indent : Nat) : Nat → String → Scan String
  | 0, breaks => return breaks
  | fuel + 1, breaks => do
    skipIndentSpaces indent (← get).fuel
    match ← peek with
    | some c => if isBreak c then skipBreak; blockIndent indent fuel (breaks.push '\n') else return breaks
    | none => return breaks

/-- Finds the indentation of the first line with text: the widest of the empty lines and it. Gives back the widest
and the line breaks. -/
def firstIndent : Nat → Nat → String → Scan (Nat × String)
  | 0, widest, breaks => return (widest, breaks)
  | fuel + 1, widest, breaks => do
    discard <| takeWhile (· == ' ')
    let widest := max widest (← column)
    match ← peek with
    | some c => if isBreak c then skipBreak; firstIndent fuel widest (breaks.push '\n') else return (widest, breaks)
    | none => return (widest, breaks)

/-- The lines of a block scalar, from the first character of a line on. `lineBreak` and `breaks` are the first line
break before it and those after that; `spaced` tells that the line before started with white space. A folded scalar
turns a single break between two unspaced lines into a space. -/
def blockLines (literal : Bool) (indent : Nat) :
    Nat → (text lineBreak breaks : String) → (spaced : Bool) → Scan (String × String × String)
  | 0, text, lineBreak, breaks, _ => return (text, lineBreak, breaks)
  | fuel + 1, text, lineBreak, breaks, spaced => do
    if (← column) ≠ indent || (← peek).isNone then return (text, lineBreak, breaks)
    if indent = 0 && (← atMarker '.') then return (text, lineBreak, breaks)
    let startsSpaced := ((← peek).map isSpace).getD false
    let gap :=
      if !literal && !lineBreak.isEmpty && !spaced && !startsSpaced then
        (if breaks.isEmpty then " " else breaks)
      else lineBreak ++ breaks
    let line ← takeWhile fun c => !isBreak c
    let text := text ++ gap ++ String.ofList line
    if (← peek).isNone then return (text, "", "")
    skipBreak
    let breaks ← blockIndent indent (← get).fuel ""
    blockLines literal indent fuel text "\n" breaks startsSpaced

def blockText (literal : Bool) (start : Place) : Scan String := do
  let (chomping, increment) ← blockHeader
  discard <| skipToLineEnd true
  unless endsLine (← peek) do fail .badBlockHeader
  let hasBreak := (← peek).isSome
  skipBreak
  if (← peek) = some '\t' then fail .tabIndentation
  let s ← get
  let (indent, breaks) ←
    if increment > 0 then
      let indent := if s.indent ≥ 0 then (s.indent + increment).toNat else increment
      pure (indent, ← blockIndent indent s.fuel "")
    else
      let (widest, breaks) ← firstIndent s.fuel 0 ""
      let indent := max widest (s.indent + 1).toNat
      pure (if s.indent > 0 then max indent 1 else indent, breaks)
  let s ← get
  if s.rest.isEmpty then
    let headerBreak := if hasBreak then "\n" else ""
    if chomping = .strip || s.place.line = start.line then return ""
    return if chomping = .clip || breaks.isEmpty then headerBreak else breaks
  if s.place.column < indent && s.indent < s.place.column then fail .badIndentation
  let (text, lineBreak, breaks) ← blockLines literal indent s.fuel "" "" breaks false
  let s ← get
  let closing :=
    if chomping = .strip then ""
    else lineBreak ++ if s.rest.isEmpty && s.place.column ≥ max indent 1 then "\n" else ""
  return text ++ closing ++ if chomping = .keep then breaks else ""

def blockScalar (literal : Bool) : Scan Unit := do
  saveKey
  allowKey true
  let place := (← get).place
  skip
  unrollOnes
  let text ← blockText literal place
  push place (.scalar (if literal then .literal else .folded) text)

end YamlQuery.Yaml.Scan
