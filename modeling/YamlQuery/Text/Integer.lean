import YamlQuery.Text.CharClass
/-!
Integers as text: an optional sign and one or more digits of a radix up to sixteen.
-/
namespace YamlQuery.Integer
open CharClass

def digit? (radix : Nat) (c : Char) : Option Nat :=
  if isHexDigit c && hexValue c < radix then some (hexValue c) else none

def extend? (radix : Nat) : Nat → List Char → Option Nat
  | n, [] => some n
  | n, c :: cs => (digit? radix c).bind fun d => extend? radix (n * radix + d) cs

def nat? (radix : Nat) (cs : List Char) : Option Nat := if cs.isEmpty then none else extend? radix 0 cs

def int? (radix : Nat) : List Char → Option Int
  | '-' :: cs => (nat? radix cs).map fun n => -(n : Int)
  | '+' :: cs => (nat? radix cs).map fun n => (n : Int)
  | cs => (nat? radix cs).map fun n => (n : Int)

def fit? (n : Int) : Option Int64 :=
  if Int64.minValue.toInt ≤ n ∧ n ≤ Int64.maxValue.toInt then some (Int64.ofInt n) else none

def int64? (radix : Nat) (cs : List Char) : Option Int64 := (int? radix cs).bind fit?

end YamlQuery.Integer
