/-!
# Byte-level helpers of the digests

Big-endian words, the padding shared by the two digests, and lower-case hexadecimal text.
-/

namespace SourceIndex.Digest

/-- Lower-case hexadecimal digit of a value below sixteen. -/
def hexDigit (n : Nat) : Char :=
  if n < 10 then Char.ofNat (48 + n) else Char.ofNat (87 + n)

/-- Two lower-case hexadecimal digits per byte. -/
def hex (bytes : List UInt8) : String :=
  String.ofList (bytes.flatMap fun b => [hexDigit (b.toNat / 16), hexDigit (b.toNat % 16)])

/-- The four bytes of a word, most significant first. -/
def wordBytes (w : UInt32) : List UInt8 :=
  [(w >>> 24).toUInt8, (w >>> 16).toUInt8, (w >>> 8).toUInt8, w.toUInt8]

/-- Bytes that complete a message of `n` bytes: one set bit, zeros, then the bit length as eight
big-endian bytes, so that the whole is a multiple of 64 bytes. -/
def padding (n : Nat) : List UInt8 :=
  let zeros := (119 - n % 64) % 64
  let bits := UInt64.ofNat (n * 8)
  let lengthBytes := (List.range 8).map fun i => (bits >>> (UInt64.ofNat (56 - 8 * i))).toUInt8
  0x80 :: List.replicate zeros 0 ++ lengthBytes

/-- The word at byte offset `i`, most significant byte first; bytes past the end read as zero. -/
def wordAt (bytes : ByteArray) (i : Nat) : UInt32 :=
  let byte (k : Nat) : UInt32 := if h : k < bytes.size then bytes[k].toUInt32 else 0
  (byte i <<< 24) ||| (byte (i + 1) <<< 16) ||| (byte (i + 2) <<< 8) ||| byte (i + 3)

/-- A message together with its padding. -/
def padded (message : ByteArray) : ByteArray :=
  message ++ ByteArray.mk (padding message.size).toArray

/-- Rotate left. -/
def rotateLeft (x : UInt32) (n : UInt32) : UInt32 :=
  (x <<< n) ||| (x >>> (32 - n))

/-- Rotate right. -/
def rotateRight (x : UInt32) (n : UInt32) : UInt32 :=
  (x >>> n) ||| (x <<< (32 - n))

end SourceIndex.Digest
