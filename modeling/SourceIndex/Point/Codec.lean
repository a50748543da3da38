import SourceIndex.Block.Codec
import SourceIndex.Point.Basic
/-!
# Payloads in JSON

The record form in which payloads are stored.
-/

namespace SourceIndex.Payload

def toJson (p : Payload) : Json :=
  .obj
    [("filePath", .str p.filePath),
     ("codeChunk", .str p.codeChunk),
     ("startLine", .ofNat p.startLine),
     ("endLine", .ofNat p.endLine),
     ("chunkSource", .ofOption .str p.chunkSource),
     ("type", .ofOption .str p.blockType),
     ("identifier", .ofOption .str p.identifier),
     ("parentChain", .arr (p.parentChain.map Syntax.ParentContainer.toJson)),
     ("hierarchyDisplay", .ofOption .str p.hierarchyDisplay),
     ("pathSegments", .obj (p.pathSegments.map fun (k, v) => (k, .str v)))]

/-- Read a payload. Path, text and lines must be there; the other fields have defaults. -/
def ofJson? (j : Json) : Option Payload := do
  let m ← Json.Members.of? 10 j
  let text := Json.Members.nullable Json.asStr?
  let filePath ← m.required 0 "filePath" Json.asStr?
  let codeChunk ← m.required 1 "codeChunk" Json.asStr?
  let startLine ← m.required 2 "startLine" (Json.decodeWord 64)
  let endLine ← m.required 3 "endLine" (Json.decodeWord 64)
  let chunkSource ← m.defaulted 4 "chunkSource" none text
  let blockType ← m.defaulted 5 "type" none text
  let identifier ← m.defaulted 6 "identifier" none text
  let parentChain ← m.defaulted 7 "parentChain" [] (Json.decodeList Syntax.ParentContainer.ofJson?)
  let hierarchyDisplay ← m.defaulted 8 "hierarchyDisplay" none text
  let segments ← m.defaulted 9 "pathSegments" [] (Json.decodeMap Json.asStr?)
  some { filePath, codeChunk, startLine, endLine, chunkSource, blockType, identifier, parentChain,
         hierarchyDisplay, pathSegments := sortByKey segments }

end SourceIndex.Payload
