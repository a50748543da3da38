import SourceIndex.Index.Batch
/-!
# Scanning a workspace

A scan goes through all files of a workspace. A file whose content has the hash that the cache holds is
skipped; the blocks of any other are gathered, and whenever enough of them have come together they
go off as one batch, so that the blocks of one file are never spread over two batches. In the end
files with a failed block leave the cache, to be tried again by the next scan, and files that are no
longer listed lose their points and their cache entries.

`scanFile` is what is done for one file, `submit` what is done for one batch, and `scan` the whole.
-/

namespace SourceIndex

/-- How far a scan has come. -/
structure ScanState where
  /-- Blocks that wait for a batch. -/
  buffer : List PendingBlock := []
  /-- What the batches so far did. -/
  batches : BatchResult := {}
  processed : Nat := 0
  skipped : Nat := 0
  found : Nat := 0
  /-- Blocks that went through a batch, stored or not. -/
  indexed : Nat := 0
  /-- The blocks of all files; gathered only when nothing is indexed. -/
  collected : List Block := []

/-- How a scan went. -/
structure ScanResult where
  blocks : List Block
  processed : Nat
  skipped : Nat
  total : Nat
  indexed : Nat
  failed : Nat
  batchErrors : List String

/-- How a scan is run. -/
structure ScanMode where
  /-- Whether blocks are embedded and stored, or only hashes recorded. -/
  indexes : Bool := true
  /-- What is done when there is something to tell. -/
  tell : ScanEvent → Procedure Unit

namespace Scan

/-- Send a batch off. -/
def submit (s : Services) (mode : ScanMode) (state : ScanState) (batch : List PendingBlock) :
    Procedure ScanState := do
  let progress (before size : Nat) : Procedure Unit :=
    mode.tell (.indexed (state.indexed + before + size) state.found)
  let result ← Batch.process (blockStrategy s.root) (.ofTuning s.tuning) progress batch
  return { state with
    batches := state.batches.merge result
    indexed := state.indexed + batch.length }

/-- Gather the blocks of a file and send a batch off if there are enough. -/
def gather (s : Services) (mode : ScanMode) (state : ScanState) (blocks : List PendingBlock) :
    Procedure ScanState := do
  let buffer := state.buffer ++ blocks
  if s.tuning.batchThreshold ≤ buffer.length then
    submit s mode { state with buffer := [] } buffer
  else return { state with buffer }

/-- What is done with the blocks of a new or changed file. -/
def takeBlocks (s : Services) (mode : ScanMode) (state : ScanState) (path hash : String)
    (cached : Bool) (blocks : List Block) : Procedure (ScanState × Option IndexError) := do
  let state := { state with
    processed := state.processed + 1
    found := state.found + blocks.length }
  mode.tell (.parsed path blocks.length state.indexed state.found)
  if !mode.indexes then
    ask (.recordHash path hash)
    return ({ state with collected := state.collected ++ blocks }, none)
  else if blocks.isEmpty then
    let deleted ← if cached then ask (.deletePoints [Path.relativeTo s.root path])
      else pure (.ok ())
    match deleted with
    | .ok () =>
      ask (.recordHash path hash)
      return (state, none)
    | .error e => return (state, some (.service e))
  else
    return (← gather s mode state (blocks.map fun block => ⟨block, cached⟩), none)

/-- Scan one file; answers what went wrong, if anything did. -/
def scanFile (s : Services) (mode : ScanMode) (state : ScanState) (path : String) :
    Procedure (ScanState × Option IndexError) := do
  match ← ask (.fileSize path) with
  | .error e => return (state, some (.io e))
  | .ok size =>
    if s.tuning.maxFileSize < size then
      return ({ state with skipped := state.skipped + 1 }, none)
    match ← ask (.readFile path) with
    | .error e => return (state, some (.io e))
    | .ok content =>
      let hash := contentHash content
      let cached := (← ask .hashes).get? path
      if cached == some hash then return ({ state with skipped := state.skipped + 1 }, none)
      let blocks := Chunk.parse s.trees s.tuning.chunk path content hash
      takeBlocks s mode state path hash cached.isSome blocks

/-- Scan files one after the other. -/
def scanFiles (s : Services) (mode : ScanMode) : ScanState → List String → Procedure ScanState
  | state, [] => return state
  | state, path :: rest => do
    let (state, error) ← scanFile s mode state path
    match error with
    | some e => mode.tell (.error s!"Error processing {path}: {e.message}")
    | none => pure ()
    scanFiles s mode state rest

/-- Tell each of a list of errors. -/
def tellErrors (mode : ScanMode) : List String → Procedure Unit
  | [] => return ()
  | message :: rest => do
    mode.tell (.error message)
    tellErrors mode rest

/-- Take the files with failed blocks out of the cache. -/
def settle (mode : ScanMode) (batches : BatchResult) : Procedure Unit := do
  tellErrors mode batches.errors
  if !batches.failedFiles.isEmpty then ask (.forgetHashes batches.failedFiles)

/-- Remove the points and cache entries of files that are not among those listed. -/
def removeVanished (s : Services) (mode : ScanMode) (listed : List String) : Procedure Unit := do
  let vanished := ((← ask .hashes).map (·.1)).filter fun path => !listed.contains path
  if vanished.isEmpty then return ()
  let deleted ← if mode.indexes then ask (.deletePoints (vanished.map (Path.relativeTo s.root)))
    else pure (.ok ())
  match deleted with
  | .ok () => ask (.forgetHashes vanished)
  | .error e =>
    mode.tell (.error s!"Failed to remove points of {vanished.length} deleted files: {e.message}")

end Scan

/-- Scan the workspace. -/
def scan (s : Services) (mode : ScanMode) : Procedure ScanResult := do
  let listed := (← ask (.listFiles s.rules s.tuning.maxListedFiles)).filter s.rules.accepts
  let state ← Scan.scanFiles s mode {} listed
  let state ← if state.buffer.isEmpty then pure state
    else Scan.submit s mode { state with buffer := [] } state.buffer
  Scan.settle mode state.batches
  Scan.removeVanished s mode listed
  return {
    blocks := state.collected
    processed := state.processed
    skipped := state.skipped
    total := state.found
    indexed := state.batches.processed
    failed := state.batches.failed
    batchErrors := state.batches.errors }

end SourceIndex
