import YamlQuery.Toml.Quoted
import YamlQuery.Toml.Word
/-!
Reading a TOML document: lines that are headers of tables, or give a key a value.
-/
namespace YamlQuery.Toml
open CharClass

def nestingLimit : Nat := 80

def isBareKeyChar (c : Char) : Bool := isAsciiAlphanumeric c || c == '_' || c == '-'

def name? (cs : List Char) : Option (String × List Char) :=
  match cs with
  | '"' :: _ | '\'' :: _ => (shortString? cs).map fun r => (String.ofList r.1, r.2)
  | cs =>
    let bare := cs.takeWhile isBareKeyChar
    if bare.isEmpty then none else some (String.ofList bare, cs.drop bare.length)

def names? : Nat → List Char → Option (List String × List Char)
  | 0, _ => none
  | fuel + 1, cs => do
    let (first, cs) ← name? (skipSpace cs)
    match skipSpace cs with
    | '.' :: cs =>
      let (rest, cs) ← names? fuel cs
      return (first :: rest, cs)
    | cs => return ([first], cs)

structure Key where
  path : List String
  name : String

def key? (cs : List Char) : Option (Key × List Char) := do
  let (names, cs) ← names? (nestingLimit - 1) cs
  return (⟨names.dropLast, ← names.getLast?⟩, cs)

def isWordChar (c : Char) : Bool := !(isSpace c || ['\n', '\r', '#', ',', ']', '\x7d'].contains c)

/-- An unquoted value. A date takes a time behind a space with it. -/
def unquoted? (cs : List Char) : Option (Item × List Char) :=
  let word := cs.takeWhile isWordChar
  let rest := cs.drop word.length
  match rest with
  | ' ' :: d :: more =>
    if afterDate? word = some [] && isDigit d then
      let time := (d :: more).takeWhile isWordChar
      (word? (word ++ ' ' :: time)).map fun v => (v, (d :: more).drop time.length)
    else (word? word).map fun v => (v, rest)
  | _ => (word? word).map fun v => (v, rest)

abbrev Reader (α : Type) := List Char → Option (α × List Char)

def arrayItems? (value? : Reader Item) : Nat → Reader (List Item)
  | 0, _ => none
  | fuel + 1, cs => do
    match ← skipLines false cs with
    | ']' :: cs => return ([], cs)
    | cs =>
      let (v, cs) ← value? cs
      match ← skipLines false cs with
      | ',' :: cs =>
        let (vs, cs) ← arrayItems? value? fuel cs
        return (v :: vs, cs)
      | ']' :: cs => return ([v], cs)
      | _ => none

def pair? (value? : Reader Item) (cs : List Char) : Option (Key × Item × List Char) := do
  let (k, cs) ← key? cs
  match cs with
  | '=' :: cs =>
    let (v, cs) ← value? (skipSpace cs)
    return (k, v, cs)
  | _ => none

def inlinePairs? (value? : Reader Item) : Nat → Entries → Reader Entries
  | 0, _, _ => none
  | fuel + 1, es, cs => do
    let (k, v, cs) ← pair? value? cs
    let es ← es.assign? k.path k.name v
    match skipSpace cs with
    | ',' :: cs => inlinePairs? value? fuel es cs
    | '\x7d' :: cs => return (es, cs)
    | _ => none

def value? (levels : Nat) (cs : List Char) : Option (Item × List Char) :=
  match levels, cs with
  | levels + 1, '[' :: cs => (arrayItems? (value? levels) (cs.length + 1) cs).map fun r => (.array r.1, r.2)
  | levels + 1, '\x7b' :: cs =>
    match skipSpace cs with
    | '\x7d' :: cs => some (.inline [], cs)
    | cs => (inlinePairs? (value? levels) (cs.length + 1) [] cs).map fun r => (.inline r.1, r.2)
  | _, c :: cs =>
    if c = '"' ∨ c = '\'' then (string? (c :: cs)).map fun r => (.string (String.ofList r.1), r.2)
    else unquoted? (c :: cs)
  | _, [] => none

structure Progress where
  entries : Entries
  header : List String

def header? (p : Progress) (cs : List Char) : Option (Progress × List Char) :=
  match cs with
  | '[' :: cs => do
    let (k, cs) ← key? cs
    let rest ← (after? ']' cs).bind (after? ']')
    return (⟨← p.entries.openNext? k.path k.name, k.path ++ [k.name]⟩, ← afterLine? rest)
  | cs => do
    let (k, cs) ← key? cs
    let rest ← after? ']' cs
    return (⟨← p.entries.openTable? k.path k.name, k.path ++ [k.name]⟩, ← afterLine? rest)

def line? (p : Progress) (cs : List Char) : Option (Progress × List Char) :=
  match cs with
  | '[' :: cs => header? p cs
  | cs => do
    let (k, v, cs) ← pair? (value? (nestingLimit - 1)) cs
    return (⟨← p.entries.assignUnder? p.header k.path k.name v, p.header⟩, ← afterLine? cs)

def lines? : Nat → Progress → List Char → Option Entries
  | 0, _, _ => none
  | fuel + 1, p, cs => do
    match ← skipLines false cs with
    | [] => return p.entries
    | cs =>
      let (p, cs) ← line? p cs
      lines? fuel p cs

def read? (text : String) : Option Entries :=
  let cs := match text.toList with
    | '\uFEFF' :: cs => cs
    | cs => cs
  lines? (cs.length + 1) ⟨[], []⟩ cs

end YamlQuery.Toml
