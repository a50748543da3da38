import SourceIndex.Disk.Basic
/-!
# The blocks of a file on disk
-/

namespace SourceIndex.Chunk

/-- Read a file and cut it into blocks; none if it cannot be read as text. -/
def parseFile (trees : TreeSource) (p : ChunkPolicy) (disk : Disk) (path : String) : List Block :=
  match disk.readText path with
  | .ok content => parse trees p path content (contentHash content)
  | .error _ => []

end SourceIndex.Chunk
