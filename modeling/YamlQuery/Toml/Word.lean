import YamlQuery.Text.Integer
import YamlQuery.Number.Binary64
import YamlQuery.Toml.Item
/-!
The unquoted values of TOML: booleans, integers, floats, dates and times.
-/
namespace YamlQuery.Toml
open CharClass

def digits? (isDigit : Char → Bool) : List Char → Option (List Char)
  | [] => none
  | [c] => if isDigit c then some [c] else none
  | c :: d :: cs =>
    if isDigit c then
      if d = '_' then (digits? isDigit cs).map (c :: ·) else (digits? isDigit (d :: cs)).map (c :: ·)
    else none

def splitSign : List Char → List Char × List Char
  | '+' :: cs => (['+'], cs)
  | '-' :: cs => (['-'], cs)
  | cs => ([], cs)

def plainDigits? (cs : List Char) : Option (List Char) :=
  (digits? isDigit cs).filter fun ds => ds.head? ≠ some '0' || cs.length = 1

def radixInteger? (radix : Nat) (cs : List Char) : Option Int64 :=
  (digits? (fun c => (Integer.digit? radix c).isSome) cs).bind (Integer.int64? radix)

def integer? (cs : List Char) : Option Int64 :=
  match cs with
  | '0' :: 'x' :: ds => radixInteger? 16 ds
  | '0' :: 'o' :: ds => radixInteger? 8 ds
  | '0' :: 'b' :: ds => radixInteger? 2 ds
  | cs =>
    let (sign, rest) := splitSign cs
    (plainDigits? rest).bind fun ds => Integer.int64? 10 (sign ++ ds)

def exponentText? : List Char → Option (List Char)
  | [] => some []
  | c :: cs =>
    if c = 'e' ∨ c = 'E' then
      let (sign, rest) := splitSign cs
      (digits? isDigit rest).map fun ds => 'e' :: sign ++ ds
    else none

def floatText? (cs : List Char) : Option (List Char) := do
  let (sign, rest) := splitSign cs
  let whole := rest.takeWhile fun c => c ≠ '.' ∧ c ≠ 'e' ∧ c ≠ 'E'
  let ds ← plainDigits? whole
  match rest.drop whole.length with
  | '.' :: rest =>
    let fraction := rest.takeWhile fun c => c ≠ 'e' ∧ c ≠ 'E'
    let fs ← digits? isDigit fraction
    return sign ++ ds ++ '.' :: fs ++ (← exponentText? (rest.drop fraction.length))
  | [] => none
  | rest => return sign ++ ds ++ (← exponentText? rest)

/-- Is this a float? One beyond the greatest number is none, while one below the least is minus infinity. -/
def isFloat (cs : List Char) : Bool :=
  [['i', 'n', 'f'], ['n', 'a', 'n']].contains (splitSign cs).2 ||
    match (floatText? cs).bind Binary64.ofText? with
    | some x => x ≠ .positiveInfinity
    | none => false

def fixed? (n : Nat) (cs : List Char) : Option (Nat × List Char) :=
  let ds := cs.take n
  if ds.length = n && ds.all isDigit then some (Binary64.digitsNumber ds, cs.drop n) else none

def after? (c : Char) : List Char → Option (List Char)
  | d :: cs => if d = c then some cs else none
  | [] => none

def isLeapYear (y : Nat) : Bool := y % 4 = 0 && (y % 100 ≠ 0 || y % 400 = 0)

def daysInMonth (year month : Nat) : Nat :=
  match month with
  | 2 => if isLeapYear year then 29 else 28
  | 4 | 6 | 9 | 11 => 30
  | _ => 31

def afterDate? (cs : List Char) : Option (List Char) := do
  let (year, cs) ← fixed? 4 cs
  let (month, cs) ← fixed? 2 (← after? '-' cs)
  let (day, cs) ← fixed? 2 (← after? '-' cs)
  if 1 ≤ month ∧ month ≤ 12 ∧ 1 ≤ day ∧ day ≤ daysInMonth year month then some cs else none

/-- What follows a time of day. The second may be sixty, for a leap second. -/
def afterTime? (cs : List Char) : Option (List Char) := do
  let (hour, cs) ← fixed? 2 cs
  let (minute, cs) ← fixed? 2 (← after? ':' cs)
  let (second, cs) ← fixed? 2 (← after? ':' cs)
  if hour > 23 ∨ minute > 59 ∨ second > 60 then none
  match cs with
  | '.' :: d :: cs => if isDigit d then some (cs.dropWhile isDigit) else none
  | '.' :: [] => none
  | cs => some cs

def isOffset : List Char → Bool
  | [] => true
  | c :: cs =>
    if c = 'Z' ∨ c = 'z' then cs.isEmpty
    else if c = '+' ∨ c = '-' then
      match fixed? 2 cs with
      | some (hour, ':' :: cs) =>
        match fixed? 2 cs with
        | some (minute, []) => hour ≤ 23 && minute ≤ 59
        | _ => false
      | _ => false
    else false

def isMoment (cs : List Char) : Bool :=
  match afterDate? cs with
  | some [] => true
  | some (c :: rest) => (c == 'T' || c == 't' || c == ' ') && ((afterTime? rest).map isOffset).getD false
  | none => afterTime? cs == some []

def word? (cs : List Char) : Option Item :=
  if cs = "true".toList then some (.boolean true)
  else if cs = "false".toList then some (.boolean false)
  else if isMoment cs then some .moment
  else match integer? cs with
    | some n => some (.integer n)
    | none => if isFloat cs then some .float else none

end YamlQuery.Toml
