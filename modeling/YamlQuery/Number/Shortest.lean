import YamlQuery.Number.Binary64
/-!
The shortest decimal that reads back as a given number. Grids of powers of ten are tried from the coarsest on; the first
that has a point in the interval of reals that round to the number gives the digits.
-/
namespace YamlQuery.Binary64

def parts (x : Binary64) : Nat × Int :=
  let e : Nat := x.magnitude / twoTo 52
  let f : Nat := x.magnitude % twoTo 52
  if e = 0 then (f, -1074) else (f + twoTo 52, (e : Int) - 1075)

/-- A number scaled by four, so that the ends of its interval are whole: the number, the distances to both ends, and the
power of two that scales it back. Below a power of two the neighbours are closer. -/
structure Interval where
  value : Nat
  below : Nat
  above : Nat
  exponent : Int
  /-- Both ends round to the number: its significand is even. -/
  closed : Bool

def interval (x : Binary64) : Interval :=
  let (m, e) := x.parts
  let edge := m = twoTo 52 && e > -1074
  ⟨4 * m, if edge then 1 else 2, 2, e - 2, m % 2 = 0⟩

def comparePowers (n : Nat) (k : Int) (v : Nat) (e : Int) : Ordering :=
  compare (n * tenTo k.toNat * twoTo (-e).toNat) (v * twoTo e.toNat * tenTo (-k).toNat)

def Interval.holds (i : Interval) (n : Nat) (k : Int) : Bool :=
  let low := comparePowers n k (i.value - i.below) i.exponent
  let high := comparePowers n k (i.value + i.above) i.exponent
  (low = .gt || (i.closed && low = .eq)) && (high = .lt || (i.closed && high = .eq))

def Interval.floorAt (i : Interval) (k : Int) : Nat :=
  i.value * twoTo i.exponent.toNat * tenTo (-k).toNat / (tenTo k.toNat * twoTo (-i.exponent).toNat)

def Interval.upperNearer (i : Interval) (n : Nat) (k : Int) : Bool :=
  match comparePowers (2 * n + 1) k (2 * i.value) i.exponent with
  | .lt => true
  | .gt => false
  | .eq => n % 2 = 1

def Interval.point? (i : Interval) (k : Int) : Option Nat :=
  let n := i.floorAt k
  match i.holds n k, i.holds (n + 1) k with
  | true, true => some (if i.upperNearer n k then n + 1 else n)
  | true, false => some n
  | false, true => some (n + 1)
  | false, false => none

def Interval.search (i : Interval) : Nat → Int → Nat × Int
  | 0, k => (i.floorAt k, k)
  | fuel + 1, k =>
    match i.point? k with
    | some n => (n, k)
    | none => i.search fuel (k - 1)

def shortest (x : Binary64) : Nat × Int :=
  let i := x.interval
  let top : Int := (((i.value.log2 : Int) + i.exponent) * 3) / 10 + 2
  i.search 400 top

def zeros (n : Nat) : List Char := List.replicate n '0'

structure ExponentStyle where
  plusSign : Bool := false
  minDigits : Nat := 1

def exponentText (style : ExponentStyle) (n : Int) : List Char :=
  let digits := (toString n.natAbs).toList
  let sign := if n < 0 then ['-'] else if style.plusSign then ['+'] else []
  'e' :: sign ++ zeros (style.minDigits - digits.length) ++ digits

/-- Digits with a decimal exponent: positional from 10⁻⁵ up to 10¹⁶, with a point and a digit after it, and else with
the exponent behind the digits. -/
def layout (style : ExponentStyle) (digits : List Char) (exponent : Int) : List Char :=
  let point : Int := digits.length + exponent
  if 0 ≤ exponent && point ≤ 16 then digits ++ zeros exponent.toNat ++ ['.', '0']
  else if 0 < point && point ≤ 16 then digits.take point.toNat ++ '.' :: digits.drop point.toNat
  else if -5 < point && point ≤ 0 then '0' :: '.' :: zeros (-point).toNat ++ digits
  else
    let mantissa := match digits with
      | [d] => [d]
      | d :: ds => d :: '.' :: ds
      | [] => []
    mantissa ++ exponentText style (point - 1)

def text (style : ExponentStyle) (x : Binary64) : String :=
  let unsigned := if x.magnitude = 0 then ['0', '.', '0']
    else
      let (n, k) := x.shortest
      layout style (toString n).toList k
  String.ofList (if x.isNegative then '-' :: unsigned else unsigned)

end YamlQuery.Binary64
