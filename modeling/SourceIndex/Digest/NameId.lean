import SourceIndex.Digest.Sha1
/-!
# Name-based identifiers

A version 5 UUID: the first sixteen bytes of the SHA-1 digest of a name space and a name, with the
version and the variant written over six of their bits. Equal names give equal identifiers.
-/

namespace SourceIndex.Digest

/-- The name space that all point identifiers are drawn in. -/
def pointNamespace : List UInt8 :=
  [0xf4, 0x7a, 0xc1, 0x0b, 0x58, 0xcc, 0x43, 0x72, 0xa5, 0x67, 0x0e, 0x02, 0xb2, 0xc3, 0xd4, 0x79]

/-- Write version 5 and the standard variant over bytes six and eight. -/
def stampVersion (bytes : List UInt8) : List UInt8 :=
  (bytes.modify 6 fun b => (b &&& 0x0f) ||| 0x50).modify 8 fun b => (b &&& 0x3f) ||| 0x80

/-- Sixteen bytes in the hyphenated form of eight, four, four, four and twelve digits. -/
def hyphenated (bytes : List UInt8) : String :=
  let part (i n : Nat) : String := hex ((bytes.drop i).take n)
  "-".intercalate [part 0 4, part 4 2, part 6 2, part 8 2, part 10 6]

/-- The identifier of `name` in `space`. -/
def nameId (space : List UInt8) (name : String) : String :=
  let digest := Sha1.digest (ByteArray.mk space.toArray ++ name.toUTF8)
  hyphenated (stampVersion (digest.take 16))

end SourceIndex.Digest
