import YamlQuery.Gzip.Bits
/-!
Canonical prefix codes. A code is given by the length of every symbol's word; words of one length are consecutive
numbers in the order of their symbols, and every word of a length precedes those of greater ones.
-/
namespace YamlQuery.Gzip

def maxWordLength : Nat := 15

structure Huffman where
  counts : List Nat
  symbols : Array Nat

namespace Huffman

def ofLength (lengths : List Nat) (n : Nat) : List Nat :=
  (lengths.zipIdx.filter (·.1 = n)).map (·.2)

/-- The places that the counts take up, out of `2 ^ remaining`: a word takes all that begin with it. -/
def places : (remaining : Nat) → List Nat → Nat
  | _, [] => 0
  | remaining, n :: counts => n * twoTo (remaining - 1) + places (remaining - 1) counts

def used : List Nat → Nat
  | [] => 0
  | n :: counts => n + used counts

def ofLengths? (lengths : List Nat) : Option Huffman :=
  let groups := (List.range maxWordLength).map fun i => ofLength lengths (i + 1)
  let counts := groups.map (·.length)
  if places maxWordLength counts = twoTo maxWordLength ∨ used counts ≤ 1 then some ⟨counts, groups.flatten.toArray⟩ else none

/-- Reads a word: `word` is what has been read, `first` the first word of the current length and `index` the place of
its symbol. -/
def decodeFrom (symbols : Array Nat) : List Nat → (word first index : Nat) → Bits → Option (Nat × Bits)
  | [], _, _, _, _ => none
  | count :: counts, word, first, index, bits => do
    let (bit, bits) ← bits.bit?
    let word := 2 * word + bit
    let first := 2 * first
    if word < first + count then return (← symbols[index + (word - first)]?, bits)
    else decodeFrom symbols counts word (first + count) (index + count) bits

def decode? (h : Huffman) (bits : Bits) : Option (Nat × Bits) := decodeFrom h.symbols h.counts 0 0 0 bits

end Huffman
end YamlQuery.Gzip
