import YamlQuery.Gzip.Huffman
/-!
Decompression of deflated data: blocks that are stored as they are, or coded as literals and references to earlier
output under a pair of prefix codes.
-/
namespace YamlQuery.Gzip

structure BlockCodes where
  literals : Huffman
  distances : Huffman

structure Progress where
  output : Array UInt8
  bits : Bits

namespace Inflate

def lengthTable : List (Nat × Nat) :=
  [(3, 0), (4, 0), (5, 0), (6, 0), (7, 0), (8, 0), (9, 0), (10, 0), (11, 1), (13, 1), (15, 1), (17, 1), (19, 2), (23, 2),
   (27, 2), (31, 2), (35, 3), (43, 3), (51, 3), (59, 3), (67, 4), (83, 4), (99, 4), (115, 4), (131, 5), (163, 5),
   (195, 5), (227, 5), (258, 0)]

def distanceTable : List (Nat × Nat) :=
  [(1, 0), (2, 0), (3, 0), (4, 0), (5, 1), (7, 1), (9, 2), (13, 2), (17, 3), (25, 3), (33, 4), (49, 4), (65, 5), (97, 5),
   (129, 6), (193, 6), (257, 7), (385, 7), (513, 8), (769, 8), (1025, 9), (1537, 9), (2049, 10), (3073, 10), (4097, 11),
   (6145, 11), (8193, 12), (12289, 12), (16385, 13), (24577, 13)]

def amount? (table : List (Nat × Nat)) (symbol : Nat) (bits : Bits) : Option (Nat × Bits) := do
  let (base, extra) ← table[symbol]?
  let (n, bits) ← bits.number? extra
  return (base + n, bits)

/-- Repeats `length` bytes from `distance` back; they may overlap the bytes they make. -/
def copy (distance : Nat) : Nat → Array UInt8 → Option (Array UInt8)
  | 0, out => some out
  | length + 1, out =>
    if distance ≤ out.size then (out[out.size - distance]?).bind fun b => copy distance length (out.push b) else none

def symbols? (codes : BlockCodes) : Nat → Progress → Option Progress
  | 0, _ => none
  | fuel + 1, p => do
    let (symbol, bits) ← codes.literals.decode? p.bits
    if symbol < 256 then symbols? codes fuel ⟨p.output.push (UInt8.ofNat symbol), bits⟩
    else if symbol = 256 then return ⟨p.output, bits⟩
    else
      let (length, bits) ← amount? lengthTable (symbol - 257) bits
      let (symbol, bits) ← codes.distances.decode? bits
      let (distance, bits) ← amount? distanceTable symbol bits
      symbols? codes fuel ⟨← copy distance length p.output, bits⟩

def fixedCodes? : Option BlockCodes := do
  let lengths := List.replicate 144 8 ++ List.replicate 112 9 ++ List.replicate 24 7 ++ List.replicate 8 8
  return ⟨← Huffman.ofLengths? lengths, ← Huffman.ofLengths? (List.replicate 32 5)⟩

def lengthOrder : List Nat := [16, 17, 18, 0, 8, 7, 9, 6, 10, 5, 11, 4, 12, 3, 13, 2, 14, 1, 15]

def triples? : Nat → Bits → Option (List Nat × Bits)
  | 0, b => some ([], b)
  | n + 1, b => do
    let (first, b) ← b.number? 3
    let (rest, b) ← triples? n b
    return (first :: rest, b)

/-- Reads word lengths until there are `total`; `done` holds those so far, latest first. Symbols above fifteen repeat
the last length, or zero. -/
def wordLengths? (code : Huffman) (total : Nat) : Nat → List Nat → Bits → Option (List Nat × Bits)
  | 0, _, _ => none
  | fuel + 1, done, bits =>
    if done.length = total then some (done.reverse, bits)
    else if done.length > total then none
    else do
      let (symbol, bits) ← code.decode? bits
      let repeated := fun (value extra least : Nat) => do
        let (n, bits) ← bits.number? extra
        wordLengths? code total fuel (List.replicate (least + n) value ++ done) bits
      match symbol with
      | 16 => repeated (← done.head?) 2 3
      | 17 => repeated 0 3 3
      | 18 => repeated 0 7 11
      | n => wordLengths? code total fuel (n :: done) bits

def ownCodes? (bits : Bits) : Option (BlockCodes × Bits) := do
  let (n, bits) ← bits.number? 5
  let (m, bits) ← bits.number? 5
  let (k, bits) ← bits.number? 4
  let literals := n + 257
  let distances := m + 1
  if literals > 286 ∨ distances > 30 then none
  let (given, bits) ← triples? (k + 4) bits
  let lengthOf := fun symbol => ((lengthOrder.zip given).lookup symbol).getD 0
  let code ← Huffman.ofLengths? ((List.range 19).map lengthOf)
  let (lengths, bits) ← wordLengths? code (literals + distances) (literals + distances + 1) [] bits
  let codes := ⟨← Huffman.ofLengths? (lengths.take literals), ← Huffman.ofLengths? (lengths.drop literals)⟩
  return (codes, bits)

def stored? (p : Progress) : Option Progress := do
  let (size, bits) ← p.bits.align.number? 16
  let (inverse, bits) ← bits.number? 16
  if size + inverse ≠ 0xFFFF then none
  let start := bits.pos / 8
  let taken := bits.bytes.extract start (start + size)
  if taken.size < size then none
  return ⟨p.output ++ taken, { bits with pos := bits.pos + 8 * size }⟩

def block? (kind : Nat) (p : Progress) : Option Progress :=
  match kind with
  | 0 => stored? p
  | 1 => fixedCodes?.bind fun codes => symbols? codes (p.bits.size + 1) p
  | 2 => (ownCodes? p.bits).bind fun r => symbols? r.1 (p.bits.size + 1) ⟨p.output, r.2⟩
  | _ => none

def blocks? : Nat → Progress → Option Progress
  | 0, _ => none
  | fuel + 1, p => do
    let (last, bits) ← p.bits.bit?
    let (kind, bits) ← bits.number? 2
    let p ← block? kind ⟨p.output, bits⟩
    if last = 1 then return p else blocks? fuel p

end Inflate

def inflate? (bits : Bits) : Option Progress := Inflate.blocks? (bits.size + 1) ⟨#[], bits⟩

end YamlQuery.Gzip
