import YamlQuery.Number.Power
import YamlQuery.Text.CharClass
/-!
Binary floating-point numbers of 64 bits, by their encoding. A ratio of naturals is rounded to the nearest of them, a
tie to the even one; decimals are read through that.
-/
namespace YamlQuery

structure Binary64 where
  bits : UInt64
  deriving DecidableEq

namespace Binary64

def positiveInfinity : Binary64 := ⟨0x7FF0000000000000⟩

def negativeInfinity : Binary64 := ⟨0xFFF0000000000000⟩

def nan : Binary64 := ⟨0x7FF8000000000000⟩

def isNegative (x : Binary64) : Bool := x.bits ≥ 0x8000000000000000

def magnitude (x : Binary64) : Nat := x.bits.toNat % twoTo 63

def isNan (x : Binary64) : Bool := x.magnitude > 0x7FF0000000000000

def isInfinite (x : Binary64) : Bool := x.magnitude = 0x7FF0000000000000

def isFinite (x : Binary64) : Bool := x.magnitude < 0x7FF0000000000000

def same (x y : Binary64) : Bool :=
  x.bits == y.bits || (x.isNan && y.isNan) || (x.magnitude == 0 && y.magnitude == 0)

def roundRatio (num den : Nat) : Nat :=
  let q := num / den
  let r := num % den
  if 2 * r < den then q else if 2 * r > den then q + 1 else if q % 2 = 0 then q else q + 1

def scaledFloor (num den : Nat) (e : Int) : Nat :=
  if e ≥ 0 then num / (den * twoTo e.toNat) else num * twoTo (-e).toNat / den

/-- The exponent of the last place for a positive ratio: the quotient by it has fifty-three bits, or fewer where the
exponent is the least there is. -/
def lastPlace (num den : Nat) : Int :=
  let guess : Int := (num.log2 : Int) - den.log2 - 52
  let e := if scaledFloor num den guess < twoTo 52 then guess - 1 else guess
  max e (-1074)

/-- The encoding of the nearest number to a positive ratio. A quotient that rounds up to the next power of two carries
into the exponent. -/
def encodeRatio (num den : Nat) : Nat :=
  let e := lastPlace num den
  let q := if e ≥ 0 then roundRatio num (den * twoTo e.toNat) else roundRatio (num * twoTo (-e).toNat) den
  min ((e + 1074).toNat * twoTo 52 + q) 0x7FF0000000000000

def ofMagnitude (negative : Bool) (n : Nat) : Binary64 :=
  ⟨UInt64.ofNat (if negative then n + twoTo 63 else n)⟩

/-- The nearest number to `± digits * 10 ^ exponent`. Beyond the range of exponents the answer is known without
computing powers. -/
def ofDecimal (negative : Bool) (digits : Nat) (exponent : Int) : Binary64 :=
  let size : Int := (digits.log2 : Int) * 30103 / 100000
  ofMagnitude negative <|
    if digits = 0 then 0
    else if size + exponent > 400 then 0x7FF0000000000000
    else if size + exponent < -400 then 0
    else if exponent ≥ 0 then encodeRatio (digits * tenTo exponent.toNat) 1
    else encodeRatio digits (tenTo (-exponent).toNat)

open CharClass

def digitsNumber (cs : List Char) : Nat := cs.foldl (fun n c => n * 10 + (c.toNat - 48)) 0

def exponent? : List Char → Option Int
  | [] => some 0
  | c :: cs =>
    if c = 'e' ∨ c = 'E' then
      let (negative, digits) := match cs with
        | '-' :: ds => (true, ds)
        | '+' :: ds => (false, ds)
        | ds => (false, ds)
      if digits.isEmpty || !digits.all isDigit then none
      else some (if negative then -(digitsNumber digits : Int) else digitsNumber digits)
    else none

def unsigned? (negative : Bool) (cs : List Char) : Option Binary64 :=
  let whole := cs.takeWhile isDigit
  let rest := cs.dropWhile isDigit
  let (fraction, rest) := match rest with
    | '.' :: r => (r.takeWhile isDigit, r.dropWhile isDigit)
    | r => ([], r)
  if whole.isEmpty && fraction.isEmpty then none
  else (exponent? rest).map fun e => ofDecimal negative (digitsNumber (whole ++ fraction)) (e - fraction.length)

def ofText? : List Char → Option Binary64
  | '-' :: cs => unsigned? true cs
  | '+' :: cs => unsigned? false cs
  | cs => unsigned? false cs

end Binary64
end YamlQuery
