import SourceIndex.Block.Basic
/-!
# Overlapping blocks

`deduplicate` drops every block that lies inside one of equal or higher precedence that was kept, and
returns the others in file order.
-/

namespace SourceIndex.Block

/-- Order of precedence. -/
def rankLe (a b : Block) : Bool :=
  a.chunkSource.rank ≤ b.chunkSource.rank

/-- File order: first line, then last line, then precedence. -/
def positionLe (a b : Block) : Bool :=
  if a.startLine != b.startLine then a.startLine < b.startLine
  else if a.endLine != b.endLine then a.endLine < b.endLine
  else rankLe a b

/-- Go through `blocks` in order and keep those that lie in none of the blocks kept before; `kept`
holds the latter, last first. -/
def keepUncontained (kept : List Block) : List Block → List Block
  | [] => kept.reverse
  | b :: rest =>
    if kept.any fun winner => winner.contains b then keepUncontained kept rest
    else keepUncontained (b :: kept) rest

/-- Blocks by precedence, the contained ones dropped, in file order. Equal keys keep their places in
both sorts. -/
def deduplicate (blocks : List Block) : List Block :=
  (keepUncontained [] (blocks.mergeSort rankLe)).mergeSort positionLe

end SourceIndex.Block
