import YamlQuery.Text.Integer
/-!
Slices of a sequence, `start:stop:stride`, over 64-bit integers. Negative bounds count from the end, bounds are
clamped to the sequence, and missing ones stand for its ends in the direction of the stride.
-/
namespace YamlQuery.Path

structure Slice where
  start : Option Int64
  stop : Option Int64
  /-- Never zero in a slice that was read. -/
  stride : Int64
  deriving DecidableEq

def checkedAdd (a b : Int64) : Option Int64 := Integer.fit? (a.toInt + b.toInt)

def saturatingAdd (a b : Int64) : Int64 :=
  (checkedAdd a b).getD (if b < 0 then Int64.minValue else Int64.maxValue)

namespace Slice

def limits (stride len : Int64) : Int64 × Int64 := if stride > 0 then (0, len) else (-1, len - 1)

def clamp (limits : Int64 × Int64) (len bound : Int64) : Int64 :=
  if bound < 0 then max (bound + len) limits.1 else min bound limits.2

def walk (stride stop : Int64) : Nat → Int64 → List Nat
  | 0, _ => []
  | fuel + 1, i =>
    if (stride > 0 ∧ i < stop) ∨ (stride < 0 ∧ i > stop) then
      i.toNatClampNeg :: match checkedAdd i stride with
        | some next => walk stride stop fuel next
        | none => []
    else []

/-- The places that a slice selects in a sequence of length `len`, in order. There are at most `len`. -/
def indices (s : Slice) (len : Nat) : List Nat :=
  let n := Int64.ofNat len
  let lim := limits s.stride n
  let forward : Bool := s.stride > 0
  let start := (s.start.map (clamp lim n)).getD (if forward then lim.1 else lim.2)
  let stop := (s.stop.map (clamp lim n)).getD (if forward then lim.2 else lim.1)
  walk s.stride stop len start

def boundText (b : Option Int64) : String := (b.map fun n => toString n.toInt).getD ""

def display (s : Slice) : String :=
  boundText s.start ++ ":" ++ boundText s.stop ++ ":" ++ toString s.stride.toInt

end Slice
end YamlQuery.Path
