import YamlQuery.Yaml.Token.State
/-!
White space, comments and line breaks between tokens.
-/
namespace YamlQuery.Yaml.Scan

structure Separation where
  tabs : Bool
  spaces : Bool

/-- Passes over white space on this line, and over a comment after it. A comment needs a space or tab in front. -/
def skipToLineEnd (tabs : Bool) : Scan Separation := do
  let run ← takeWhile fun c => c == ' ' || (tabs && c == '\t')
  if (← peek) = some '#' then
    if run.isEmpty then fail .commentNotSeparated
    skipLine
  return ⟨run.contains '\t', run.contains ' '⟩

/-- A tab may not indent a block, but a line of white space alone may hold one. -/
def skipIndentTab : Scan Unit := do
  discard <| skipToLineEnd true
  unless endsLine (← peek) do fail .tabIndentation

def skipToToken : Nat → Scan Unit
  | 0 => pure ()
  | fuel + 1 => do
    match ← peek with
    | some '\t' =>
      let s ← get
      if !s.indents.isEmpty && s.leading && (← outsideIndent) then skipIndentTab else skipSpace
      skipToToken fuel
    | some ' ' => skipSpace; skipToToken fuel
    | some '\n' | some '\r' =>
      skipBreak
      unless ← inFlow do allowKey true
      skipToToken fuel
    | some '#' => skipLine; skipToToken fuel
    | _ => pure ()

def skipSpaceAndComments : Scan Unit := do skipToToken (← get).fuel

def skipSpacesAndBreaks : Nat → Scan Bool
  | 0 => return false
  | fuel + 1 => do
    match ← peek with
    | some ' ' => skipSpace; discard <| skipSpacesAndBreaks fuel; return true
    | some '\n' | some '\r' =>
      skipBreak
      unless ← inFlow do allowKey true
      discard <| skipSpacesAndBreaks fuel
      return true
    | some '#' => skipLine; skipSpacesAndBreaks fuel
    | _ => return false

end YamlQuery.Yaml.Scan
