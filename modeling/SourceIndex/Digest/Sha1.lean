import SourceIndex.Digest.Bytes
/-!
# SHA-1

The digest that name-based identifiers are cut from.
-/

namespace SourceIndex.Digest.Sha1

/-- The five chaining words. -/
structure State where
  a : UInt32
  b : UInt32
  c : UInt32
  d : UInt32
  e : UInt32

/-- The initial chaining words. -/
def start : State :=
  ⟨0x67452301, 0xefcdab89, 0x98badcfe, 0x10325476, 0xc3d2e1f0⟩

/-- The 80 schedule words of the block at byte offset `offset`. -/
def schedule (bytes : ByteArray) (offset : Nat) : Array UInt32 :=
  let first := (Array.range 16).map fun i => wordAt bytes (offset + 4 * i)
  (List.range 64).foldl
    (fun w k =>
      let word (i : Nat) : UInt32 := (w[i]?).getD 0
      let i := k + 16
      w.push (rotateLeft (word (i - 3) ^^^ word (i - 8) ^^^ word (i - 14) ^^^ word (i - 16)) 1))
    first

/-- The mixing function and constant of round `i`. -/
def roundParts (i : Nat) (b c d : UInt32) : UInt32 × UInt32 :=
  if i < 20 then ((b &&& c) ||| ((~~~ b) &&& d), 0x5a827999)
  else if i < 40 then (b ^^^ c ^^^ d, 0x6ed9eba1)
  else if i < 60 then ((b &&& c) ||| (b &&& d) ||| (c &&& d), 0x8f1bbcdc)
  else (b ^^^ c ^^^ d, 0xca62c1d6)

/-- Absorb the block at byte offset `offset`. -/
def absorb (bytes : ByteArray) (s : State) (offset : Nat) : State :=
  let w := schedule bytes offset
  let r := (List.range 80).foldl
    (fun t i =>
      let (f, k) := roundParts i t.b t.c t.d
      let next := rotateLeft t.a 5 + f + t.e + k + (w[i]?).getD 0
      ⟨next, t.a, rotateLeft t.b 30, t.c, t.d⟩)
    s
  ⟨s.a + r.a, s.b + r.b, s.c + r.c, s.d + r.d, s.e + r.e⟩

/-- The 20 bytes of the digest. -/
def digest (message : ByteArray) : List UInt8 :=
  let bytes := padded message
  let s := (List.range (bytes.size / 64)).foldl (fun s i => absorb bytes s (64 * i)) start
  [s.a, s.b, s.c, s.d, s.e].flatMap wordBytes

end SourceIndex.Digest.Sha1
