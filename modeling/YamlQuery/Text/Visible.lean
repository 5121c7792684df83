import YamlQuery.Text.CharClass
import YamlQuery.Text.HiddenTable
/-!
Text between double quotes with nothing hidden in it: every character that cannot be seen is written by its number.
-/
namespace YamlQuery.Visible
open CharClass

def isHidden (c : Char) : Bool :=
  if c.toNat < 128 then c.toNat < 0x20 || c.toNat = 0x7F else inRanges hiddenRanges c.toNat

def hexText (n : Nat) : List Char := Nat.toDigits 16 n

def showChar (c : Char) : List Char :=
  match c with
  | '"' => ['\\', '"']
  | '\\' => ['\\', '\\']
  | '\x00' => ['\\', '0']
  | '\t' => ['\\', 't']
  | '\n' => ['\\', 'n']
  | '\r' => ['\\', 'r']
  | c => if isHidden c then ['\\', 'u', '\x7b'] ++ hexText c.toNat ++ ['\x7d'] else [c]

def quoted (text : String) : String := "\"" ++ String.ofList (text.toList.flatMap showChar) ++ "\""

end YamlQuery.Visible
