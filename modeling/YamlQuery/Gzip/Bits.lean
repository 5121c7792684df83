import YamlQuery.Number.Power
/-!
Bytes read bit by bit. Bits come from the least significant end of each byte, and numbers are stored with their least
significant bit first.
-/
namespace YamlQuery.Gzip

structure Bits where
  bytes : Array UInt8
  pos : Nat

namespace Bits

def bit? (b : Bits) : Option (Nat × Bits) :=
  (b.bytes[b.pos / 8]?).map fun byte => (byte.toNat / twoTo (b.pos % 8) % 2, { b with pos := b.pos + 1 })

def number? : Nat → Bits → Option (Nat × Bits)
  | 0, b => some (0, b)
  | n + 1, b => do
    let (low, b) ← b.bit?
    let (high, b) ← number? n b
    return (low + 2 * high, b)

def align (b : Bits) : Bits := { b with pos := (b.pos + 7) / 8 * 8 }

def size (b : Bits) : Nat := 8 * b.bytes.size

end Bits
end YamlQuery.Gzip
