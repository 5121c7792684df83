import YamlQuery.Text.Utf8
import YamlQuery.Text.Escape
import YamlQuery.Path.TagShape
import YamlQuery.Path.Token
import YamlQuery.Path.LexError
/-!
From the bytes of a path to its tokens. White space between tokens is dropped. An ampersand after the end of
an operand joins operands, elsewhere `&name` is an alias; `*name` is an alias everywhere.
-/
namespace YamlQuery.Path
open CharClass

structure Cursor where
  mark : Mark
  rest : List Char
  ending : Utf8.Ending

namespace Cursor

def ofBytes (bytes : List UInt8) : Cursor :=
  let r := Utf8.read bytes
  ⟨{}, r.1, r.2⟩

/-- What reading past the last character meets at mark `m`: nothing, or bytes that are no character. -/
def checkEnd (ending : Utf8.Ending) (m : Mark) : Except LexError Unit :=
  match ending with
  | .complete => .ok ()
  | .malformed => .error (.invalidUtf8 m)
  | .truncated => .error (.partialUtf8 m)

def peek (c : Cursor) : Except LexError (Option Char) :=
  match c.rest with
  | ch :: _ => .ok (some ch)
  | [] => (checkEnd c.ending c.mark).map fun _ => none

def advance (c : Cursor) : Cursor :=
  match c.rest with
  | ch :: rest => ⟨c.mark.advance ch, rest, c.ending⟩
  | [] => c

def takeWhile (p : Char → Bool) (c : Cursor) : Except LexError (List Char × Cursor) :=
  let taken := c.rest.takeWhile p
  let c' : Cursor := ⟨c.mark.advanceAll taken, c.rest.dropWhile p, c.ending⟩
  c'.peek.map fun _ => (taken, c')

def skipBlanks (c : Cursor) : Except LexError Cursor := (c.takeWhile isBlank).map (·.2)

end Cursor

namespace Lexer

/-- An unterminated text reports its start, unless the bytes end in no character. -/
def unterminated {α : Type} (ending : Utf8.Ending) (m : Mark) (e : LexError) : Except LexError α :=
  match Cursor.checkEnd ending m with
  | .error fault => .error fault
  | .ok () => .error e

def prepend (c : Char) (r : Except LexError (List Char × Cursor)) : Except LexError (List Char × Cursor) :=
  r.map fun p => (c :: p.1, p.2)

/-- The text up to a closing double quote. `skip` characters of an escape already decoded are passed over. -/
def doubleQuoted (start : Mark) (ending : Utf8.Ending) :
    Nat → Mark → List Char → Except LexError (List Char × Cursor)
  | _, m, [] => unterminated ending m (.unterminatedQuote start)
  | skip + 1, m, c :: cs => doubleQuoted start ending skip (m.advance c) cs
  | 0, m, c :: cs =>
    if c = '"' then .ok ([], ⟨m.advance c, cs, ending⟩)
    else if c = '\\' then
      if cs = [] ∧ ending = .complete then .error (.unterminatedQuote start)
      else match Escape.decode cs with
        | some (e, n) => prepend e (doubleQuoted start ending n (m.advance c) cs)
        | none => .error (.invalidEscape m)
    else prepend c (doubleQuoted start ending 0 (m.advance c) cs)

def singleQuoted (start : Mark) (ending : Utf8.Ending) :
    Mark → List Char → Except LexError (List Char × Cursor)
  | m, [] => unterminated ending m (.unterminatedQuote start)
  | m, '\'' :: '\'' :: cs => prepend '\'' (singleQuoted start ending ((m.advance '\'').advance '\'') cs)
  | m, c :: cs =>
    if c = '\'' then
      let after : Cursor := ⟨m.advance c, cs, ending⟩
      after.peek.map fun _ => ([], after)
    else prepend c (singleQuoted start ending (m.advance c) cs)

/-- Where a key literal is being read: between quoted parts, at a bracket depth and after a character, or
inside a quoted part. -/
inductive LiteralState
  | bare (depth : Nat) (before : Option Char)
  | double (depth : Nat)
  | single (depth : Nat)

def opensTag : Option Char → Bool
  | none => true
  | some c => isBlank c || c == '[' || c == '\x7b' || c == ','

/-- The raw text of a key literal up to its closing brace. Nested brackets are counted without regard to their
kind, quoted parts are passed over, and a tag that starts a node must be well formed. -/
def keyLiteral (start : Mark) (ending : Utf8.Ending) :
    LiteralState → Mark → List Char → Except LexError (List Char × Cursor)
  | _, m, [] => unterminated ending m (.unterminatedKey start)
  | .bare depth before, m, c :: cs =>
    let go := fun s => prepend c (keyLiteral start ending s (m.advance c) cs)
    if c = '\x7d' ∧ depth = 0 then .ok ([], ⟨m.advance c, cs, ending⟩)
    else if c = '\x7b' ∨ c = '[' then go (.bare (depth + 1) (some c))
    else if c = '\x7d' ∨ c = ']' then go (.bare (depth - 1) (some c))
    else if c = '"' then go (.double depth)
    else if c = '\'' then go (.single depth)
    else if c = '!' ∧ opensTag before ∧ TagShape.scan? (c :: cs) = none then .error (.invalidTag m)
    else go (.bare depth (some c))
  | .double depth, m, '\\' :: c :: cs =>
    prepend '\\' (prepend c (keyLiteral start ending (.double depth) ((m.advance '\\').advance c) cs))
  | .double depth, m, c :: cs =>
    prepend c (keyLiteral start ending (if c = '"' then .bare depth (some c) else .double depth)
      (m.advance c) cs)
  | .single depth, m, '\'' :: '\'' :: cs =>
    prepend '\'' (prepend '\''
      (keyLiteral start ending (.single depth) ((m.advance '\'').advance '\'') cs))
  | .single depth, m, c :: cs =>
    prepend c (keyLiteral start ending (if c = '\'' then .bare depth (some c) else .single depth)
      (m.advance c) cs)

def trimEnd (cs : List Char) : List Char := (cs.reverse.dropWhile isBlank).reverse

def single? : Char → Option TokenKind
  | '/' => some .slash
  | '^' => some .caret
  | ',' => some .comma
  | ':' => some .colon
  | '(' => some .openParen
  | ')' => some .closeParen
  | ']' => some .closeBracket
  | '$' => some .scalarFilter
  | '%' => some .collectionFilter
  | '=' => some .equals
  | _ => none

abbrev Result := Except LexError (TokenKind × Cursor)

def doubled (c : Char) (one two : TokenKind) (after : Cursor) : Result := do
  if (← after.peek) = some c then return (two, after.advance) else return (one, after)

def name (kind : String → TokenKind) (c : Cursor) : Result :=
  (c.takeWhile continuesName).map fun r => (kind (String.ofList r.1), r.2)

def number (sign : List Char) (c : Cursor) : Result :=
  (c.takeWhile isDigit).map fun r => (.number (String.ofList (sign ++ r.1)), r.2)

def star (after : Cursor) : Result := do
  match ← after.peek with
  | some '*' => return (.starStar, after.advance)
  | some c => if startsName c then name .reference after else return (.star, after)
  | none => return (.star, after)

/-- After an ampersand: behind an operand a second one belongs to it, elsewhere a name makes an alias. -/
def ampersand (afterOperand : Bool) (after : Cursor) : Result := do
  match ← after.peek with
  | some c =>
    if afterOperand then return (.and, if c = '&' then after.advance else after)
    else if startsName c then name .reference after
    else return (.and, after)
  | none => return (.and, after)

def bracket (after : Cursor) : Result := do
  let after ← after.skipBlanks
  if (← after.peek) = some ']' then return (.sequenceFilter, after.advance)
  else return (.openBracket, after)

def brace (start : Mark) (after : Cursor) : Result := do
  let after ← after.skipBlanks
  if (← after.peek) = some '\x7d' then return (.mappingFilter, after.advance)
  else
    let (raw, after) ← keyLiteral start after.ending (.bare 0 none) after.mark after.rest
    return (.keyLiteral (String.ofList (trimEnd raw)), after)

def kindAt (afterOperand : Bool) (c : Char) (here : Cursor) : Result :=
  let after := here.advance
  match single? c with
  | some kind => .ok (kind, after)
  | none =>
    match c with
    | '.' => doubled '.' .dot .dotDot after
    | '|' => doubled '|' .or .or after
    | '*' => star after
    | '&' => ampersand afterOperand after
    | '[' => bracket after
    | '\x7b' => brace here.mark after
    | '"' =>
      (doubleQuoted here.mark after.ending 0 after.mark after.rest).map fun r =>
        (.key (String.ofList r.1), r.2)
    | '\'' =>
      (singleQuoted here.mark after.ending after.mark after.rest).map fun r =>
        (.key (String.ofList r.1), r.2)
    | '-' => do
      -- the character after the sign is looked at from the sign's own place
      match after.rest with
      | d :: _ => if isDigit d then number ['-'] after else throw (.unexpectedChar c here.mark)
      | [] =>
        Cursor.checkEnd here.ending here.mark
        throw (.unexpectedChar c here.mark)
    | _ =>
      if isDigit c then number [] here
      else if startsName c then name .key here
      else .error (.unexpectedChar c here.mark)

def next (afterOperand : Bool) (c : Cursor) : Except LexError (Token × Cursor) := do
  let here ← c.skipBlanks
  match ← here.peek with
  | none => return (⟨.finish, ⟨here.mark, here.mark⟩⟩, here)
  | some ch =>
    let (kind, after) ← kindAt afterOperand ch here
    return (⟨kind, ⟨here.mark, after.mark⟩⟩, after)

end Lexer

structure Lexed where
  tokens : List Token
  failure : Option LexError

/-- Reads tokens until the end. Each takes at least one character, so `fuel` above their number suffices. -/
def Lexed.readFrom : Nat → Bool → Cursor → Lexed
  | 0, _, _ => ⟨[], none⟩
  | fuel + 1, afterOperand, c =>
    match Lexer.next afterOperand c with
    | .error e => ⟨[], some e⟩
    | .ok (t, c') =>
      if t.kind = .finish then ⟨[t], none⟩
      else
        let r := readFrom fuel t.kind.endsOperand c'
        ⟨t :: r.tokens, r.failure⟩

def Lexed.ofBytes (bytes : List UInt8) : Lexed :=
  let c := Cursor.ofBytes bytes
  Lexed.readFrom (c.rest.length + 1) false c

end YamlQuery.Path
