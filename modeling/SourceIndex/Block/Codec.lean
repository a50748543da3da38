import SourceIndex.Block.Basic
import SourceIndex.Json.Record
/-!
# Blocks in JSON

The record form of blocks and parent containers.
-/

namespace SourceIndex

namespace Syntax

def ContainerType.ofJson? (j : Json) : Option ContainerType :=
  Json.decodeTag ContainerType.ofName? j

def ParentContainer.toJson (p : ParentContainer) : Json :=
  .obj [("identifier", .str p.identifier), ("containerType", .str p.containerType.name)]

def ParentContainer.ofJson? (j : Json) : Option ParentContainer := do
  let m ← Json.Members.of? 2 j
  let identifier ← m.required 0 "identifier" Json.asStr?
  let containerType ← m.required 1 "containerType" ContainerType.ofJson?
  some ⟨identifier, containerType⟩

end Syntax

def ChunkSource.ofJson? (j : Json) : Option ChunkSource :=
  Json.decodeTag ChunkSource.ofName? j

namespace Block

def toJson (b : Block) : Json :=
  .obj
    [("filePath", .str b.filePath),
     ("identifier", .ofOption .str b.identifier),
     ("blockType", .str b.blockType),
     ("startLine", .ofNat b.startLine),
     ("endLine", .ofNat b.endLine),
     ("lineOffset", .ofOption .ofNat b.lineOffset),
     ("content", .str b.content),
     ("fileHash", .str b.fileHash),
     ("segmentHash", .str b.segmentHash),
     ("chunkSource", .str b.chunkSource.name),
     ("parentChain", .arr (b.parentChain.map Syntax.ParentContainer.toJson)),
     ("hierarchyDisplay", .ofOption .str b.hierarchyDisplay)]

/-- Read a block. Only the offset may also be missing from the list form, provided that nothing
follows it. -/
def ofJson? (j : Json) : Option Block := do
  let m ← Json.Members.of? 12 j
  let filePath ← m.required 0 "filePath" Json.asStr?
  let identifier ← m.optional 1 "identifier" Json.asStr?
  let blockType ← m.required 2 "blockType" Json.asStr?
  let startLine ← m.required 3 "startLine" (Json.decodeWord 64)
  let endLine ← m.required 4 "endLine" (Json.decodeWord 64)
  let lineOffset ← m.defaulted 5 "lineOffset" none (Json.Members.nullable (Json.decodeWord 64))
  let content ← m.required 6 "content" Json.asStr?
  let fileHash ← m.required 7 "fileHash" Json.asStr?
  let segmentHash ← m.required 8 "segmentHash" Json.asStr?
  let chunkSource ← m.required 9 "chunkSource" ChunkSource.ofJson?
  let parentChain ← m.required 10 "parentChain" (Json.decodeList Syntax.ParentContainer.ofJson?)
  let hierarchyDisplay ← m.optional 11 "hierarchyDisplay" Json.asStr?
  some { filePath, identifier, blockType, startLine, endLine, lineOffset, content, fileHash,
         segmentHash, chunkSource, parentChain, hierarchyDisplay }

end Block

end SourceIndex
