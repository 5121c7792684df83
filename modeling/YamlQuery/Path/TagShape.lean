import YamlQuery.Text.CharClass
/-!
The extent of a YAML tag. A tag is a handle with a suffix of URI characters, or a URI between `!<` and `>`;
`scan?` measures its parts without resolving the handle.
-/
namespace YamlQuery.Path
open CharClass

structure TagShape where
  opening : Nat
  handle : Nat
  uri : Nat
  closing : Nat
  deriving DecidableEq

namespace TagShape

def total (t : TagShape) : Nat := t.opening + t.handle + t.uri + t.closing

def isVerbatim (t : TagShape) : Bool := t.opening > 0

def isUriChar (verbatim : Bool) (c : Char) : Bool :=
  isAsciiAlphanumeric c || "-#;/?:@&=+$_.~*'()".toList.contains c || (verbatim && "!,[]".toList.contains c)

/-- The length of the URI at the front of `cs`; none when a percent sign in it lacks its two digits. -/
def uriLength? (verbatim : Bool) : List Char → Option Nat
  | [] => some 0
  | '%' :: a :: b :: cs =>
    if isHexDigit a && isHexDigit b then (uriLength? verbatim cs).map (· + 3) else none
  | c :: cs =>
    if c = '%' then none
    else if isUriChar verbatim c then (uriLength? verbatim cs).map (· + 1)
    else some 0

def isHandleChar (c : Char) : Bool := isAsciiAlphanumeric c || c == '-'

/-- The length of the handle of a shorthand tag: a word between exclamation marks, else the first mark alone.
`cs` follows the first mark. -/
def handleLength (cs : List Char) : Nat :=
  let word := cs.takeWhile isHandleChar
  if (cs.drop word.length).head? = some '!' then word.length + 2 else 1

/-- Measures the tag at the front of a text. A verbatim tag needs a URI and its closing bracket, a handle
longer than one character needs a suffix. -/
def scan? : List Char → Option TagShape
  | '!' :: '<' :: cs =>
    match uriLength? true cs with
    | some n => if n ≠ 0 ∧ (cs.drop n).head? = some '>' then some ⟨2, 0, n, 1⟩ else none
    | none => none
  | '!' :: cs =>
    let handle := handleLength cs
    match uriLength? false (cs.drop (handle - 1)) with
    | some n => if handle > 1 ∧ n = 0 then none else some ⟨0, handle, n, 0⟩
    | none => none
  | _ => none

def ofBytes? (bytes : List UInt8) : Option TagShape := scan? (bytes.map fun b => Char.ofNat b.toNat)

end TagShape
end YamlQuery.Path
