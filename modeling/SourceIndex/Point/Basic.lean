import SourceIndex.Block.Basic
import SourceIndex.Digest.NameId
/-!
# Points

A point is what the vector store holds for one block: an identifier, a vector, and a payload that
says where the block stands. `Point.ofBlock` builds it; `pointKey` is the text whose digest is the
identifier, so that the same path and lines always give the same point.
-/

namespace SourceIndex

/-- An embedding vector. -/
abbrev Vector32 := List Float32

/-- What is stored beside a vector. -/
structure Payload where
  /-- Workspace-relative, with `/` separators. -/
  filePath : String
  codeChunk : String
  startLine : Nat
  endLine : Nat
  chunkSource : Option String
  blockType : Option String
  identifier : Option String
  parentChain : List Syntax.ParentContainer
  hierarchyDisplay : Option String
  /-- Directory levels by number, in the order of the written numbers. -/
  pathSegments : List (String × String)
deriving DecidableEq

/-- A vector with its identifier and payload. -/
structure Point where
  id : String
  vector : Vector32
  payload : Payload

/-- An answer to a search. -/
structure Hit where
  id : String
  score : Float32
  payload : Payload

/-- Sort the entries of a map by key. -/
def sortByKey {α : Type} (entries : List (String × α)) : List (String × α) :=
  entries.mergeSort fun a b => Text.le a.1 b.1

/-- The levels of a relative path under their numbers, in key order. -/
def pathSegments (relativePath : String) : List (String × String) :=
  sortByKey ((Path.segments relativePath).zipIdx.map fun (segment, i) => (toString i, segment))

/-- The text that identifies a block: its path, its lines and, for a piece of an overlong line, its
offset. -/
def pointKey (path : String) (startLine endLine : Nat) (offset : Option Nat) : String :=
  let tail := match offset with
    | some n => s!"@{n}"
    | none => ""
  s!"{Path.normalize path}:{startLine}:{endLine}{tail}"

/-- The identifier of a block's point. -/
def pointId (path : String) (startLine endLine : Nat) (offset : Option Nat) : String :=
  Digest.nameId Digest.pointNamespace (pointKey path startLine endLine offset)

/-- The point of a block of the workspace at `root`. -/
def Point.ofBlock (root : String) (b : Block) (vector : Vector32) : Point :=
  let filePath := Path.relativeTo root b.filePath
  { id := pointId b.filePath b.startLine b.endLine b.lineOffset
    vector := vector
    payload :=
      { filePath := filePath
        codeChunk := Text.trim b.content
        startLine := b.startLine
        endLine := b.endLine
        chunkSource := some b.chunkSource.name
        blockType := some b.blockType
        identifier := b.identifier
        parentChain := b.parentChain
        hierarchyDisplay := b.hierarchyDisplay
        pathSegments := pathSegments filePath } }

/-- The collection that belongs to a workspace. -/
def collectionName (root : String) : String :=
  "ws-" ++ String.ofList ((Digest.sha256Hex root).toList.take 16)

end SourceIndex
