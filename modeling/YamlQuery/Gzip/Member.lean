import YamlQuery.Gzip.Inflate
import YamlQuery.Gzip.Checksum
/-!
Gzip files. The first member is decompressed and held against its checksums; whatever follows it is not looked at.
-/
namespace YamlQuery.Gzip

def hasMagic : List UInt8 → Bool
  | 0x1F :: 0x8B :: _ => true
  | _ => false

def pair? (bytes : Array UInt8) (i : Nat) : Option Nat := do
  return (← bytes[i]?).toNat + 256 * (← bytes[i + 1]?).toNat

def quad? (bytes : Array UInt8) (i : Nat) : Option Nat := do
  return (← pair? bytes i) + 65536 * (← pair? bytes (i + 2))

def maxHeaderText : Nat := 65535

def afterText? (bytes : Array UInt8) (i : Nat) : Option Nat :=
  match (bytes.toList.drop i).findIdx? (· == 0) with
  | some n => if n ≤ maxHeaderText then some (i + n + 1) else none
  | none => none

structure HeaderFlags where
  checksum : Bool
  extra : Bool
  name : Bool
  comment : Bool

/-- The flags of a header; three bits must be clear, and one is of no account. -/
def HeaderFlags.ofByte? (b : UInt8) : Option HeaderFlags :=
  if b &&& 0xE0 ≠ 0 then none
  else some ⟨b &&& 2 ≠ 0, b &&& 4 ≠ 0, b &&& 8 ≠ 0, b &&& 16 ≠ 0⟩

def dataStart? (bytes : Array UInt8) : Option Nat := do
  if !hasMagic bytes.toList || bytes[2]? ≠ some 8 || bytes.size < 10 then none
  let flags ← HeaderFlags.ofByte? (← bytes[3]?)
  let i := 10
  let i ← if flags.extra then (pair? bytes i).map (i + 2 + ·) else some i
  if bytes.size < i then none
  let i ← if flags.name then afterText? bytes i else some i
  let i ← if flags.comment then afterText? bytes i else some i
  if flags.checksum then
    let stated ← pair? bytes i
    if (checksum (bytes.extract 0 i)).toNat % 65536 = stated then some (i + 2) else none
  else some i

def decompress? (file : List UInt8) : Option (List UInt8) := do
  let bytes := file.toArray
  let start ← dataStart? bytes
  let done ← inflate? ⟨bytes, 8 * start⟩
  let trailer := done.bits.align.pos / 8
  if (← quad? bytes trailer) ≠ (checksum done.output).toNat then none
  if (← quad? bytes (trailer + 4)) ≠ done.output.size % twoTo 32 then none
  return done.output.toList

end YamlQuery.Gzip
