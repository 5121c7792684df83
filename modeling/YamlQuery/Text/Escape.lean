import YamlQuery.Text.CharClass
/-!
Escapes of quoted text. `render` writes one character under a quoting style, `decode` reads the body of a
backslash escape.
-/
namespace YamlQuery.Escape
open CharClass

inductive Quoting
  | plain
  | double
  | single
  deriving DecidableEq

def hexDigit (n : Nat) : Char := Char.ofNat (if n < 10 then 48 + n else 87 + n)

def hexDigits : Nat → Nat → List Char
  | 0, _ => []
  | digits + 1, n => hexDigits digits (n / 16) ++ [hexDigit (n % 16)]

/-- The escape of a character that cannot be printed, if it is one: a letter escape, two digits for the other
ASCII controls, four digits for the byte order mark and the last sixteen characters of the basic plane. -/
def unprintable? (c : Char) : Option (List Char) :=
  match c.toNat with
  | 0x00 => some ['\\', '0']
  | 0x07 => some ['\\', 'a']
  | 0x08 => some ['\\', 'b']
  | 0x09 => some ['\\', 't']
  | 0x0A => some ['\\', 'n']
  | 0x0B => some ['\\', 'v']
  | 0x0C => some ['\\', 'f']
  | 0x0D => some ['\\', 'r']
  | 0x1B => some ['\\', 'e']
  | 0x85 => some ['\\', 'N']
  | 0xA0 => some ['\\', '_']
  | 0x2028 => some ['\\', 'L']
  | 0x2029 => some ['\\', 'P']
  | n =>
    if n < 0x20 ∨ n = 0x7F then some ('\\' :: 'x' :: hexDigits 2 n)
    else if n = 0xFEFF ∨ (0xFFF0 ≤ n ∧ n ≤ 0xFFFF) then some ('\\' :: 'u' :: hexDigits 4 n)
    else none

def render : Quoting → Char → List Char
  | .single, c => if c = '\'' then ['\'', '\''] else [c]
  | .plain, c => (unprintable? c).getD [c]
  | .double, c =>
    if c = '"' then ['\\', '"'] else if c = '\\' then ['\\', '\\'] else (unprintable? c).getD [c]

def renderAll (q : Quoting) (cs : List Char) : List Char := cs.flatMap (render q)

def letter? : Char → Option Char
  | '0' => some '\x00'
  | 'a' => some '\x07'
  | 'b' => some '\x08'
  | 't' | '\t' => some '\t'
  | 'n' => some '\n'
  | 'v' => some '\x0b'
  | 'f' => some '\x0c'
  | 'r' => some '\r'
  | 'e' => some '\x1b'
  | ' ' => some ' '
  | '"' => some '"'
  | '/' => some '/'
  | '\\' => some '\\'
  | 'N' => some '\u0085'
  | '_' => some '\u00a0'
  | 'L' => some '\u2028'
  | 'P' => some '\u2029'
  | _ => none

def digitCount? : Char → Option Nat
  | 'x' => some 2
  | 'u' => some 4
  | 'U' => some 8
  | _ => none

def scalar? (n : Nat) : Option Char := if n.isValidChar then some (Char.ofNat n) else none

def decode : List Char → Option (Char × Nat)
  | [] => none
  | c :: rest =>
    match digitCount? c with
    | none => (letter? c).map (·, 1)
    | some n =>
      let digits := rest.take n
      if digits.length = n && digits.all isHexDigit then (scalar? (hexNumber digits)).map (·, n + 1)
      else none

/-- Reads the body of an escape from bytes. A body is ASCII, so a byte may stand for a character. -/
def decodeBytes (bytes : List UInt8) : Option (Char × Nat) := decode (bytes.map fun b => Char.ofNat b.toNat)

end YamlQuery.Escape
