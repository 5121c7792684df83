import YamlQuery.Yaml.Chars
import YamlQuery.Yaml.SyntaxError
import YamlQuery.Yaml.Token
/-!
The state of reading tokens: the text still to be read, the indentations that are open, and the places where a
simple key may have started. A key shows only by the colon after it, so tokens wait in a queue until that is
settled.
-/
namespace YamlQuery.Yaml

structure SimpleKey where
  possible : Bool := false
  required : Bool := false
  number : Nat := 0
  place : Place := {}

structure Indent where
  outside : Int
  endsBlock : Bool

structure Scanner where
  rest : List Char
  place : Place := {}
  leading : Bool := true
  fuel : Nat
  started : Bool := false
  queue : Array Token := #[]
  delivered : Nat := 0
  /-- The index at which a colon needs no white space after it, behind a quoted or flow key. -/
  adjacentValueAt : Nat := 0
  simpleKeyAllowed : Bool := true
  simpleKeys : List SimpleKey := [{}]
  indent : Int := -1
  indents : List Indent := []
  flowLevel : Nat := 0
  flowMappingStarted : Bool := false
  /-- Per open flow sequence, innermost first: is a one-pair mapping open in it? -/
  pairOpen : List Bool := []

abbrev Scan := StateT Scanner (Except SyntaxError)

namespace Scan

/-- A NUL ends the text. -/
def start (text : String) : Scanner :=
  let chars := text.toList.takeWhile (· ≠ '\x00')
  { rest := chars, fuel := chars.length + 2 }

def fail {α : Type} (e : SyntaxError) : Scan α := throw e

def peek : Scan (Option Char) := return (← get).rest.head?

def peekAt (n : Nat) : Scan (Option Char) := return (← get).rest[n]?

def column : Scan Nat := return (← get).place.column

def outsideIndent : Scan Bool := return (← get).place.column < (← get).indent

def inFlow : Scan Bool := return (← get).flowLevel > 0

def skipSpace : Scan Unit :=
  modify fun s => { s with
    rest := s.rest.tail, place := { s.place with index := s.place.index + 1, column := s.place.column + 1 } }

def skip : Scan Unit := do skipSpace; modify fun s => { s with leading := false }

def skipMany : Nat → Scan Unit
  | 0 => pure ()
  | n + 1 => do skip; skipMany n

def skipBreak : Scan Unit :=
  modify fun s =>
    match s.rest with
    | '\r' :: '\n' :: rest =>
      { s with rest, leading := true, place := ⟨s.place.index + 2, s.place.line + 1, 0⟩ }
    | c :: rest =>
      if isBreak c then
        { s with rest, leading := true, place := ⟨s.place.index + 1, s.place.line + 1, 0⟩ }
      else s
    | [] => s

def takeWhile (p : Char → Bool) : Scan (List Char) :=
  modifyGet fun s =>
    let taken := s.rest.takeWhile p
    let n := taken.length
    (taken, { s with
      rest := s.rest.dropWhile p
      place := { s.place with index := s.place.index + n, column := s.place.column + n } })

def takeWord (p : Char → Bool) : Scan (List Char) := do
  let taken ← takeWhile p
  unless taken.isEmpty do modify fun s => { s with leading := false }
  return taken

def skipLine : Scan Unit := do discard <| takeWord fun c => !isBreak c

def push (place : Place) (kind : TokenKind) : Scan Unit :=
  modify fun s => { s with queue := s.queue.push ⟨place, kind⟩ }

def insertBefore (number : Nat) (place : Place) (kind : TokenKind) : Scan Unit :=
  modify fun s =>
    let spot := number - s.delivered
    { s with queue := s.queue.extract 0 spot ++ #[⟨place, kind⟩] ++ s.queue.extract spot s.queue.size }

def allowKey (allowed : Bool) : Scan Unit := modify fun s => { s with simpleKeyAllowed := allowed }

def atMarker (c : Char) : Scan Bool := do
  match (← get).rest with
  | a :: b :: d :: rest => return a == c && b == c && d == c && endsWord rest.head?
  | _ => return false

def atDocumentMarker : Scan Bool := do
  if (← column) = 0 then return (← atMarker '-') || (← atMarker '.') else return false

def unrollFrom (place : Place) (column : Int) : List Indent → Int → Array Token → Int × List Indent × Array Token
  | [], indent, queue => (indent, [], queue)
  | i :: is, indent, queue =>
    if indent > column then
      unrollFrom place column is i.outside (if i.endsBlock then queue.push ⟨place, .blockEnd⟩ else queue)
    else (indent, i :: is, queue)

def unroll (column : Int) : Scan Unit :=
  modify fun s =>
    if s.flowLevel > 0 then s
    else
      let (indent, indents, queue) := unrollFrom s.place column s.indents s.indent s.queue
      { s with indent, indents, queue }

/-- Opens a block collection at `column`, unless one is open there. Its start goes to the end of the queue or in
front of the token numbered `before?`. -/
def roll (column : Nat) (before? : Option Nat) (kind : TokenKind) (place : Place) : Scan Unit := do
  if ← inFlow then return
  modify fun s =>
    match s.indents with
    | i :: is => if s.indent ≤ column && !i.endsBlock then { s with indent := i.outside, indents := is } else s
    | [] => s
  if (← get).indent < column then
    modify fun s => { s with indents := ⟨s.indent, true⟩ :: s.indents, indent := column }
    match before? with
    | some n => insertBefore n place kind
    | none => push place kind

def rollOne : Scan Unit :=
  modify fun s =>
    match s.indents with
    | i :: _ =>
      if s.flowLevel = 0 && i.endsBlock then
        { s with indents := ⟨s.indent, false⟩ :: s.indents, indent := s.indent + 1 }
      else s
    | [] => s

def dropOnes : Int → List Indent → Int × List Indent
  | indent, [] => (indent, [])
  | indent, i :: is => if i.endsBlock then (indent, i :: is) else dropOnes i.outside is

def unrollOnes : Scan Unit :=
  modify fun s =>
    let (indent, indents) := dropOnes s.indent s.indents
    { s with indent, indents }

def saveKey : Scan Unit :=
  modify fun s =>
    if s.simpleKeyAllowed then
      let required := s.flowLevel = 0 && s.indent == s.place.column &&
        ((s.indents.head?).map (·.endsBlock)).getD false
      let key : SimpleKey := ⟨true, required, s.delivered + s.queue.size, s.place⟩
      { s with simpleKeys := key :: s.simpleKeys.tail }
    else s

def removeKey : Scan Unit := do
  match (← get).simpleKeys with
  | k :: ks =>
    if k.possible && k.required then fail .keyWithoutColon
    modify fun s => { s with simpleKeys := { k with possible := false } :: ks }
  | [] => pure ()

/-- Outside flow collections a key ends on its line, within 1024 characters. -/
def isStale (s : Scanner) (k : SimpleKey) : Bool :=
  k.possible && s.flowLevel = 0 && (k.place.line < s.place.line || k.place.index + 1024 < s.place.index)

def staleKeys : Scan Unit := do
  let s ← get
  if s.simpleKeys.any fun k => isStale s k && k.required then fail .keyWithoutColon
  set { s with simpleKeys := s.simpleKeys.map fun k => if isStale s k then { k with possible := false } else k }

end Scan
end YamlQuery.Yaml
