import SourceIndex.Json.Record
import SourceIndex.Number.Stored
/-!
# Size policy

The limits, in characters, that blocks of a file are cut to.
-/

namespace SourceIndex

/-- Size limits of blocks, in characters. -/
structure ChunkPolicy where
  /-- Blocks shorter than this are dropped. -/
  minBlock : Nat := 50
  /-- Intended upper bound; pieces of an overlong line have this length. -/
  maxBlock : Nat := 1000
  /-- The smallest tail that a cut between lines may leave behind. -/
  minRemainder : Nat := 200
  /-- How far above `maxBlock` a block may grow before it is cut. -/
  tolerance : Number.Double := .ofFloat 1.15
deriving Inhabited

namespace ChunkPolicy

/-- The longest block that is not cut: `maxBlock · tolerance`, rounded down and kept within 64 bits. -/
def effectiveMax (p : ChunkPolicy) : Nat :=
  -- the conversion drops the fraction and takes everything below one to zero
  (Float.ofNat p.maxBlock * p.tolerance.toFloat).toUInt64.toNat

/-- Length of the pieces of an overlong line. -/
def pieceWidth (p : ChunkPolicy) : Nat :=
  max p.maxBlock 1

/-- Read a policy; fields left out take their defaults. -/
def ofJson? (j : Json) : Option ChunkPolicy := do
  let m ← Json.Members.of? 4 j
  let d : ChunkPolicy := {}
  let minBlock ← m.defaulted 0 "min_block_chars" d.minBlock (Json.decodeWord 64)
  let maxBlock ← m.defaulted 1 "max_block_chars" d.maxBlock (Json.decodeWord 64)
  let minRemainder ← m.defaulted 2 "min_chunk_remainder_chars" d.minRemainder (Json.decodeWord 64)
  let tolerance ← m.defaulted 3 "max_chars_tolerance_factor" d.tolerance
    fun v => (Json.decodeFloat v).map .ofFloat
  some { minBlock, maxBlock, minRemainder, tolerance }

end ChunkPolicy

end SourceIndex
