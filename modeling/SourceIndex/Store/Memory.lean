import SourceIndex.Point.Basic
/-!
# A vector store in memory

Points under their identifiers. A search pays no attention to vectors: every point below the directory
is as near as any other.
-/

namespace SourceIndex

/-- A collection of points. -/
structure MemoryStore where
  /-- Whether the collection exists. -/
  isThere : Bool := false
  points : List Point := []

namespace MemoryStore

/-- Put a point in the place of one with its identifier. -/
def put (points : List Point) (p : Point) : List Point :=
  if points.any (·.id == p.id) then points.map fun q => if q.id == p.id then p else q
  else points ++ [p]

def upsert (m : MemoryStore) (points : List Point) : MemoryStore :=
  { m with points := points.foldl put m.points }

/-- Remove the points of files. -/
def deletePaths (m : MemoryStore) (paths : List String) : MemoryStore :=
  { m with points := m.points.filter fun p => !paths.contains p.payload.filePath }

/-- Remove all points. -/
def clear (m : MemoryStore) : MemoryStore :=
  { m with points := [] }

/-- Remove the collection. -/
def drop (_ : MemoryStore) : MemoryStore := {}

/-- Make sure that the collection exists. -/
def prepare (m : MemoryStore) : MemoryStore :=
  { m with isThere := true }

/-- The files that have points. -/
def paths (m : MemoryStore) : List String :=
  Text.sortDistinct (m.points.map (·.payload.filePath))

/-- The points in the order of their identifiers. -/
def sorted (m : MemoryStore) : List Point :=
  m.points.mergeSort fun a b => Text.le a.id b.id

/-- The order of hits: by path, line and identifier. -/
def hitLe (a b : Point) : Bool :=
  if a.payload.filePath != b.payload.filePath then Text.le a.payload.filePath b.payload.filePath
  else if a.payload.startLine != b.payload.startLine then
    a.payload.startLine < b.payload.startLine
  else Text.le a.id b.id

/-- At most `limit` points of files whose path begins with `directory`. -/
def nearest (m : MemoryStore) (directory : Option String) (limit : Nat) : List Hit :=
  let begins (p : Point) : Bool :=
    directory.all fun d => d.toList.isPrefixOf p.payload.filePath.toList
  (((m.points.filter begins).mergeSort hitLe).take limit).map fun p => ⟨p.id, 0.5, p.payload⟩

end MemoryStore

end SourceIndex
