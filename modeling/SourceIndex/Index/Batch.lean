import SourceIndex.Index.Action
/-!
# Batches

Embedding a list of items and storing their points, segment by segment. First the old points of
replaced files are deleted, once for the whole batch; then each segment is embedded and upserted, with
retries, and only then the hashes of its files enter the cache. A segment that fails to the end is
recorded as failed, and the batch goes on with the next one.
-/

namespace SourceIndex

/-- Cut a list into runs of `size`, of which the last one may be shorter. -/
def segmentsOf {α : Type} (size : Nat) (items : List α) : List (List α) :=
  match items with
  | [] => []
  | item :: rest =>
    (item :: rest.take (size - 1)) :: segmentsOf size (rest.drop (size - 1))
termination_by items.length
decreasing_by
  simp only [List.length_drop, List.length_cons]
  omega

/-- How one item went. -/
structure ItemResult where
  filePath : String
  success : Bool
  error : Option String
deriving DecidableEq, Repr

/-- How a batch went. -/
structure BatchResult where
  processed : Nat := 0
  failed : Nat := 0
  errors : List String := []
  items : List ItemResult := []
deriving DecidableEq, Repr

namespace BatchResult

/-- The files of which some item failed. -/
def failedFiles (r : BatchResult) : List String :=
  Text.sortDistinct ((r.items.filter (!·.success)).map (·.filePath))

/-- Two batches taken together. -/
def merge (a b : BatchResult) : BatchResult where
  processed := a.processed + b.processed
  failed := a.failed + b.failed
  errors := a.errors ++ b.errors
  items := a.items ++ b.items

end BatchResult

/-- How items of one kind become texts, points and cache entries. -/
structure BatchStrategy (α : Type) where
  text : α → String
  point : α → Vector32 → Point
  /-- The cache key: the absolute path of the item's file. -/
  filePath : α → String
  fileHash : α → String
  /-- The workspace-relative files whose points have to go first. -/
  staleFiles : List α → List String

/-- How large segments are and how often they are tried. -/
structure BatchLimits where
  segmentSize : Nat
  retry : RetryPolicy

/-- The limits that the settings give. -/
def BatchLimits.ofTuning (t : Tuning) : BatchLimits where
  segmentSize := max t.batchThreshold 1
  retry := t.retryPolicy

namespace Batch

variable {α : Type}

/-- Delete the old points of replaced files; answers an error text for each of them if this fails. -/
def deleteStale (paths : List String) : Procedure (List String) := do
  if paths.isEmpty then return []
  match ← ask (.deletePoints paths) with
  | .ok () => return []
  | .error e => return paths.map fun path => s!"{path}: delete failed: {e.message}"

/-- Embed a segment and upsert its points. -/
def embedAndUpsert (strategy : BatchStrategy α) (segment : List α) :
    Procedure (Except IndexError Unit) := do
  match ← ask (.embed (segment.map strategy.text)) with
  | .error e => return .error (.service e)
  | .ok embeddings =>
    let vectors := embeddings.vectors
    if vectors.length != segment.length then
      return .error (.service (.wrongCount segment.length vectors.length))
    match ← ask (.upsert (segment.zipWith strategy.point vectors)) with
    | .ok () => return .ok ()
    | .error e => return .error (.service e)

/-- Enter the hashes of items into the cache. -/
def recordHashes (strategy : BatchStrategy α) : List α → Procedure Unit
  | [] => return ()
  | item :: rest => do
    ask (.recordHash (strategy.filePath item) (strategy.fileHash item))
    recordHashes strategy rest

/-- The result of a segment that was stored. -/
def succeeded (strategy : BatchStrategy α) (segment : List α) : BatchResult where
  processed := segment.length
  items := segment.map fun item => ⟨strategy.filePath item, true, none⟩

/-- The result of a segment that failed to the end. -/
def gaveUp (strategy : BatchStrategy α) (limits : BatchLimits) (segment : List α)
    (message : String) : BatchResult where
  failed := segment.length
  errors :=
    [s!"Failed to index {segment.length} blocks after {limits.retry.maxAttempts} attempts: " ++
      message]
  items := segment.map fun item => ⟨strategy.filePath item, false, some message⟩

/-- Work through one segment. -/
def runSegment (strategy : BatchStrategy α) (limits : BatchLimits) (segment : List α) :
    Procedure BatchResult := do
  match ← limits.retry.run pause (embedAndUpsert strategy segment) with
  | .ok () =>
    recordHashes strategy segment
    return succeeded strategy segment
  | .error e => return gaveUp strategy limits segment e.message

/-- Work through segments. When one is done, `progress` is told how many items were done before it and
how many it has. -/
def runSegments (strategy : BatchStrategy α) (limits : BatchLimits)
    (progress : Nat → Nat → Procedure Unit) :
    BatchResult → List (List α) → Procedure BatchResult
  | result, [] => return result
  | result, segment :: rest => do
    let r ← runSegment strategy limits segment
    progress (result.processed + result.failed) segment.length
    runSegments strategy limits progress (result.merge r) rest

/-- Work through a batch. -/
def process (strategy : BatchStrategy α) (limits : BatchLimits)
    (progress : Nat → Nat → Procedure Unit) (items : List α) : Procedure BatchResult := do
  if items.isEmpty then return {}
  let errors ← deleteStale (strategy.staleFiles items)
  runSegments strategy limits progress { errors } (segmentsOf limits.segmentSize items)

end Batch

/-- A block waiting for a batch. -/
structure PendingBlock where
  block : Block
  /-- Whether older content of its file is in the index. -/
  replaces : Bool
deriving DecidableEq

/-- How scanned blocks of a workspace become points. -/
def blockStrategy (root : String) : BatchStrategy PendingBlock where
  text item := Text.trim item.block.content
  point item vector := Point.ofBlock root item.block vector
  filePath item := item.block.filePath
  fileHash item := item.block.fileHash
  staleFiles items :=
    Text.sortDistinct
      ((items.filter (·.replaces)).map fun item => Path.relativeTo root item.block.filePath)

end SourceIndex
