import YamlQuery.Number.Power
/-!
UTF-8, read one character at a time, so that a malformed byte string still yields the characters before
the fault. `decodeOne` classifies the front of a byte string; `read` splits a whole one into its
characters and the way it ends.
-/
namespace YamlQuery.Utf8

inductive Decoded
  | char (c : Char) (width : Nat)
  /-- Bytes that no continuation turns into a character. -/
  | malformed
  | truncated
  | finished
  deriving DecidableEq

def width? (b : UInt8) : Option Nat :=
  if b ≤ 0x7F then some 1
  else if 0xC2 ≤ b && b ≤ 0xDF then some 2
  else if 0xE0 ≤ b && b ≤ 0xEF then some 3
  else if 0xF0 ≤ b && b ≤ 0xF4 then some 4
  else none

def isContinuation (b : UInt8) : Bool := b &&& 0xC0 == 0x80

def payload (lead : UInt8) (tail : List UInt8) : Nat :=
  let bits := if tail.isEmpty then 7 else 6 - tail.length
  tail.foldl (fun n b => n * 64 + b.toNat % 64) (lead.toNat % twoTo bits)

def least : Nat → Nat
  | 0 | 1 => 0
  | 2 => 0x80
  | 3 => 0x800
  | _ => 0x10000

/-- Classifies the front of a byte string. A complete sequence must be the shortest spelling of a scalar
value; a cut-off one is judged by its continuation bits alone. -/
def decodeOne : List UInt8 → Decoded
  | [] => .finished
  | b :: rest =>
    match width? b with
    | none => .malformed
    | some w =>
      let tail := rest.take (w - 1)
      if !tail.all isContinuation then .malformed
      else if tail.length < w - 1 then .truncated
      else
        let n := payload b tail
        if least w ≤ n ∧ n.isValidChar then .char (Char.ofNat n) w else .malformed

inductive Ending
  | complete
  | malformed
  | truncated
  deriving DecidableEq

def readAfter : Nat → List UInt8 → List Char × Ending
  | _, [] => ([], .complete)
  | skip + 1, _ :: bs => readAfter skip bs
  | 0, b :: bs =>
    match decodeOne (b :: bs) with
    | .char c w =>
      let r := readAfter (w - 1) bs
      (c :: r.1, r.2)
    | .truncated => ([], .truncated)
    | .malformed | .finished => ([], .malformed)

def read (bytes : List UInt8) : List Char × Ending := readAfter 0 bytes

def encode (cs : List Char) : List UInt8 := cs.flatMap String.utf8EncodeChar

def text? (bytes : List UInt8) : Option String :=
  match read bytes with
  | (cs, .complete) => some (String.ofList cs)
  | _ => none

/-- Classifies a byte string at each of its characters. A malformed byte is passed over alone; reading
stops at the end or at a character cut off by it. -/
def classify : Nat → List UInt8 → List Decoded
  | _, [] => [.finished]
  | skip + 1, _ :: bs => classify skip bs
  | 0, b :: bs =>
    match decodeOne (b :: bs) with
    | .char c w => .char c w :: classify (w - 1) bs
    | .malformed => .malformed :: classify 0 bs
    | d => [d]

end YamlQuery.Utf8
