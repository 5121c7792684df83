import YamlQuery.Text.Escape
import YamlQuery.Number.Shortest
import YamlQuery.Value.Scalar
/-!
How a scalar is written in YAML: its text, and the style in which the text reads back as the same value.
-/
namespace YamlQuery.YamlText
open CharClass

def hasIdleZeros (cs : List Char) : Bool :=
  let digits := match cs with
    | '-' :: ds => ds
    | '+' :: ds => ds
    | ds => ds
  digits.head? == some '0' && digits.length > 1 && digits.all isDigit

def radixNumber? : List Char → Option Nat
  | '0' :: 'x' :: ds => Integer.nat? 16 ds
  | '0' :: 'o' :: ds => Integer.nat? 8 ds
  | '0' :: 'b' :: ds => Integer.nat? 2 ds
  | ds => Integer.nat? 10 ds

def isInteger (cs : List Char) : Bool :=
  !hasIdleZeros cs &&
    match cs with
    | '-' :: ds => (radixNumber? ds).any (· ≤ twoTo 127)
    | '+' :: ds => (radixNumber? ds).any (· < twoTo 128)
    | ds => (radixNumber? ds).any (· < twoTo 128)

def isDecimal (cs : List Char) : Bool :=
  let read := fun ds => (Binary64.ofText? ds).any (·.isFinite)
  match cs with
  | '+' :: '+' :: _ => false
  | '+' :: '-' :: _ => false
  | '+' :: ds => read ds
  | ds => read ds

def reservedWords : List String :=
  ["", "~", "null", "Null", "NULL", "true", "True", "TRUE", "false", "False", "FALSE",
   ".inf", ".Inf", ".INF", "+.inf", "+.Inf", "+.INF", "-.inf", "-.Inf", "-.INF", ".nan", ".NaN", ".NAN"]

/-- Would the text, written plain, be taken for a null, a boolean or a number? A number with idle zeros counts. -/
def looksTyped (text : String) : Bool :=
  let cs := text.toList
  reservedWords.contains text || hasIdleZeros cs || isInteger cs || isDecimal cs

def isBreak (c : Char) : Bool := c == '\n' || c == '\r' || c == '\u0085' || c == '\u2028' || c == '\u2029'

def isGap (c : Char) : Bool := c == ' ' || c == '\t' || isBreak c

/-- A character that may stand for itself: no control but the line feed, no byte order mark, no surrogate and none of
the last two of the basic plane. -/
def isPrintable (c : Char) : Bool :=
  c == '\n' || (' ' ≤ c && c ≤ '~') || ('\u00a0' ≤ c && c ≠ '\uFEFF' && c ≠ '\uFFFE' && c ≠ '\uFFFF')

structure Shape where
  plain : Bool
  single : Bool
  block : Bool

def anyNeighbours (p : Char → Char → Bool) (cs : List Char) : Bool := (cs.zip cs.tail).any fun q => p q.1 q.2

def hasIndicator (cs : List Char) : Bool :=
  let nextIsGap := ((cs.tail.head?).map isGap).getD true
  let first := match cs.head? with
    | some c => "#,[]\x7b\x7d&*!|>'\"%@`".toList.contains c || ((c == '?' || c == '-') && nextIsGap)
    | none => false
  first || cs.take 3 == ['-', '-', '-'] || cs.take 3 == ['.', '.', '.'] || cs.getLast? == some ':' ||
    anyNeighbours (fun a b => (a == ':' && isGap b) || (isGap a && b == '#')) cs

def Shape.ofText (cs : List Char) : Shape :=
  let multiline := cs.any isBreak
  let ends := fun (p : Char → Bool) => (cs.head?.map p).getD false || (cs.getLast?.map p).getD false
  let breakThenSpace := anyNeighbours (fun a b => isBreak a && b == ' ') cs
  let spaceThenBreak := anyNeighbours (fun a b => a == ' ' && isBreak b) cs
  let faithful := cs.all isPrintable && !spaceThenBreak
  { plain := faithful && !multiline && !ends (fun c => c == ' ' || isBreak c) && !hasIndicator cs
    single := faithful && !breakThenSpace
    block := faithful && cs.getLast? ≠ some ' ' }

def styleOf (text : String) : ScalarStyle :=
  let cs := text.toList
  let shape := Shape.ofText cs
  if cs.contains '\n' then if shape.block then .literal else .doubleQuoted
  else if shape.plain && !looksTyped text then .plain
  else if shape.single then .singleQuoted
  else .doubleQuoted

def scalarText (v : ScalarValue) : String × ScalarStyle :=
  match v with
  | .null => ("null", .plain)
  | .bool b => (if b then "true" else "false", .plain)
  | .int n => (toString n.toInt, .plain)
  | .float x =>
    (if x.isNan then ".nan" else if x.isInfinite then if x.isNegative then "-.inf" else ".inf" else x.text {}, .plain)
  | .string text => (text, styleOf text)

def upperHex (digits n : Nat) : List Char := (Escape.hexDigits digits n).map Char.toUpper

def quotedChar (c : Char) : List Char :=
  if isPrintable c && !isBreak c && c ≠ '"' && c ≠ '\\' then [c]
  else match c.toNat with
    | 0x00 => ['\\', '0']
    | 0x07 => ['\\', 'a']
    | 0x08 => ['\\', 'b']
    | 0x09 => ['\\', 't']
    | 0x0A => ['\\', 'n']
    | 0x0B => ['\\', 'v']
    | 0x0C => ['\\', 'f']
    | 0x0D => ['\\', 'r']
    | 0x1B => ['\\', 'e']
    | 0x22 => ['\\', '"']
    | 0x5C => ['\\', '\\']
    | 0x85 => ['\\', 'N']
    | 0x2028 => ['\\', 'L']
    | 0x2029 => ['\\', 'P']
    | n => if n ≤ 0xFF then '\\' :: 'x' :: upperHex 2 n else if n ≤ 0xFFFF then '\\' :: 'u' :: upperHex 4 n
      else '\\' :: 'U' :: upperHex 8 n

end YamlQuery.YamlText
