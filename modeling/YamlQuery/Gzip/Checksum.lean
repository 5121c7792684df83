/-!
The cyclic redundancy check of 32 bits, with the reversed polynomial `0xEDB88320`.
-/
namespace YamlQuery.Gzip

def checkBit (r : UInt32) : UInt32 := if r &&& 1 = 1 then (r >>> 1) ^^^ 0xEDB88320 else r >>> 1

def checkByte (r : UInt32) (b : UInt8) : UInt32 :=
  let r := r ^^^ b.toUInt32
  checkBit (checkBit (checkBit (checkBit (checkBit (checkBit (checkBit (checkBit r)))))))

def checksum (bytes : Array UInt8) : UInt32 := bytes.foldl checkByte 0xFFFFFFFF ^^^ 0xFFFFFFFF

end YamlQuery.Gzip
