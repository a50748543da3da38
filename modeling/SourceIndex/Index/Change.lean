import SourceIndex.Index.Batch
/-!
# Changed files

Notifications about files are gathered, the last one for each path counting (`Pending`), and worked
through as one batch after a time without further ones. A batch first reads, parses and embeds the
files that are there, then deletes the old points of all files it deals with by one call, and then
upserts the new points. Only a file all of whose points were stored gets its new hash; if the
deletion fails, nothing is stored and nothing changes.
-/

namespace SourceIndex

/-- What happened to a file. -/
inductive Change where
  | created
  | changed
  | deleted
deriving DecidableEq, Repr

/-- What a notification reports. -/
inductive NoticeKind where
  | create
  /-- A new or an old name; which one shows in whether the path exists. -/
  | rename
  | modify
  | remove
  /-- Anything that does not concern the content. -/
  | other
deriving DecidableEq, Repr

/-- The change that a notification stands for, if it stands for one. -/
def NoticeKind.change? (kind : NoticeKind) (pathExists : Bool) : Option Change :=
  match kind with
  | create => some .created
  | rename => some (if pathExists then .created else .deleted)
  | modify => some .changed
  | remove => some .deleted
  | other => none

/-- Changed paths, each once. Two spellings of one path are the same path. -/
abbrev Changes := List (String × Change)

/-- Whether two spellings name the same path. -/
def samePath (a b : String) : Bool :=
  Path.components a == Path.components b

/-- Put down a change; the last one for a path counts. -/
def Changes.put (changes : Changes) (path : String) (change : Change) : Changes :=
  if changes.any fun c => samePath c.1 path then
    changes.map fun c => if samePath c.1 path then (c.1, change) else c
  else changes ++ [(path, change)]

/-- A notification: its kind, and its paths with whether they exist. -/
structure Notice where
  kind : NoticeKind
  paths : List (String × Bool)

/-- Gathered changes, and when they are worked through. -/
structure Pending where
  changes : Changes := []
  due : Option Nat := none

namespace Pending

/-- The changes of a notification: those of files that can be indexed. -/
def changesOf (notice : Notice) : Changes :=
  notice.paths.filterMap fun (path, pathExists) =>
    if isSupportedPath path then (notice.kind.change? pathExists).map fun c => (path, c) else none

/-- Gather a notification that came at `now`; it puts the batch off if it brings a change. -/
def add (p : Pending) (debounce now : Nat) (notice : Notice) : Pending :=
  let found := changesOf notice
  if found.isEmpty then p
  else { changes := found.foldl (fun acc c => acc.put c.1 c.2) p.changes, due := some (now + debounce) }

/-- Hand over what was gathered. -/
def take (p : Pending) : Changes × Pending :=
  (p.changes, {})

end Pending

/-- A file that was parsed and embedded and waits to be stored. -/
structure ReadyFile where
  path : String
  hash : String
  points : List Point

/-- How the first part of a file's processing ended. -/
inductive FileOutcome where
  | result (r : ChangeResult)
  | ready (f : ReadyFile)

namespace FileOutcome

def path : FileOutcome → String
  | result r => r.path
  | ready f => f.path

/-- The outcome of a file that is not to be stored. -/
def of (path : String) (outcome : ChangeOutcome) : FileOutcome :=
  result ⟨path, outcome⟩

end FileOutcome

/-- Whether an outcome is an error. -/
def ChangeOutcome.isError : ChangeOutcome → Bool
  | .unreadable _ => true
  | .failed _ => true
  | _ => false

namespace Change

/-- Embed the blocks of a file, segment by segment; an error text if some segment fails. -/
def embedSegments (s : Services) : List (List Block) → List Point →
    Procedure (Except String (List Point))
  | [], points => return .ok points
  | segment :: rest, points => do
    match ← ask (.embed (segment.map fun b => Text.trim b.content)) with
    | .error e => return .error e.message
    | .ok embeddings =>
      let vectors := embeddings.vectors
      if vectors.length != segment.length then
        return .error s!"expected {segment.length} embeddings, got {vectors.length}"
      embedSegments s rest (points ++ segment.zipWith (Point.ofBlock s.root) vectors)

/-- Read, parse and embed one file. -/
def processFile (s : Services) (path : String) : Procedure FileOutcome := do
  if !s.rules.accepts path then return .of path .ignored
  match ← ask (.fileSize path) with
  | .error e => return .of path (.unreadable e.message)
  | .ok size =>
    if s.tuning.maxFileSize < size then return .of path .tooLarge
    match ← ask (.readFile path) with
    | .error e => return .of path (.unreadable e.message)
    | .ok content =>
      let hash := contentHash content
      if (← ask .hashes).get? path == some hash then return .of path .unchanged
      let blocks := Chunk.parse s.trees s.tuning.chunk path content hash
      let segments := segmentsOf (max s.tuning.batchThreshold 1) blocks
      match ← embedSegments s segments [] with
      | .error message => return .of path (.failed message)
      | .ok points => return .ready ⟨path, hash, points⟩

/-- Tell how many files are done. -/
def tellProgress (processed total : Nat) (current : Option String) : Procedure Unit :=
  ask (.tellBatch (.progress processed total current))

/-- What the files of a batch came to so far. -/
structure Tally where
  processed : Nat := 0
  results : List ChangeResult := []
  ready : List ReadyFile := []

/-- Count a file whose outcome is known. -/
def Tally.add (t : Tally) : FileOutcome → Tally
  | .result r => { t with processed := t.processed + 1, results := t.results ++ [r] }
  | .ready f => { t with processed := t.processed + 1, ready := t.ready ++ [f] }

/-- Process some files, and then count them. -/
def processAll (s : Services) : List String → Procedure (List FileOutcome)
  | [] => return []
  | path :: rest => do
    let outcome ← processFile s path
    return outcome :: (← processAll s rest)

/-- Count files in order, telling about each. -/
def count (total : Nat) : Tally → List FileOutcome → Procedure Tally
  | t, [] => return t
  | t, outcome :: rest => do
    tellProgress (t.processed + 1) total (some outcome.path)
    count total (t.add outcome) rest

/-- Process files group by group. -/
def processGroups (s : Services) (total : Nat) : Tally → List (List String) → Procedure Tally
  | t, [] => return t
  | t, group :: rest => do
    let outcomes ← processAll s group
    processGroups s total (← count total t outcomes) rest

/-- The results of the deleted files: their hashes go if their points went. -/
def settleDeleted (total : Nat) (failed : Bool) : Tally → List String → Procedure Tally
  | t, [] => return t
  | t, path :: rest => do
    tellProgress (t.processed + 1) total (some path)
    if !failed then ask (.forgetHashes [path])
    let outcome := if failed then .failed "failed to delete points" else .stored
    settleDeleted total failed (t.add (.of path outcome)) rest

/-- Points with the number of the file that each belongs to. -/
def tagged (ready : List ReadyFile) : List (Nat × Point) :=
  ready.zipIdx.flatMap fun (file, i) => file.points.map fun point => (i, point)

/-- The error of each file that could not be stored, by its number, and the last error of all. -/
structure UpsertFailures where
  files : List (Nat × String) := []
  last : Option String := none

/-- Enter a segment that failed to the end. -/
def UpsertFailures.add (f : UpsertFailures) (owners : List Nat) (message : String) :
    UpsertFailures where
  files := owners.map (fun i => (i, message)) ++ f.files
  last := some s!"upsert failed: {message}"

/-- Upsert points segment by segment, with retries. -/
def upsertSegments (retry : RetryPolicy) :
    UpsertFailures → List (List (Nat × Point)) → Procedure UpsertFailures
  | failures, [] => return failures
  | failures, segment :: rest => do
    match ← retry.run pause (ask (.upsert (segment.map (·.2)))) with
    | .ok () => upsertSegments retry failures rest
    | .error (e : ServiceError) =>
      upsertSegments retry (failures.add (segment.map (·.1)) e.message) rest

/-- The results of the stored files: the new hash enters the cache only if no point failed. -/
def settleReady (failures : List (Nat × String)) :
    Nat → List ReadyFile → Procedure (List ChangeResult)
  | _, [] => return []
  | i, file :: rest => do
    let result ← match failures.find? (·.1 == i) with
      | some (_, message) => do
        ask (.forgetHashes [file.path])
        pure ⟨file.path, .failed message⟩
      | none => do
        ask (.recordHash file.path file.hash)
        pure ⟨file.path, .stored⟩
    return result :: (← settleReady failures (i + 1) rest)

/-- Store what is ready; also answers an error text for the batch. -/
def upsertReady (s : Services) (ready : List ReadyFile) :
    Procedure (List ChangeResult × Option String) := do
  let segments := segmentsOf (max s.tuning.batchThreshold 1) (tagged ready)
  let failures ← upsertSegments s.tuning.retryPolicy {} segments
  return (← settleReady failures.files 0 ready, failures.last)

/-- Delete the old points of all files that a batch deals with; answers an error text if this fails. -/
def deleteStale (s : Services) (paths : List String) : Procedure (Option String) := do
  if paths.isEmpty then return none
  match ← ask (.deletePoints (paths.map (Path.relativeTo s.root))) with
  | .ok () => return none
  | .error e => return some s!"delete failed: {e.message}"

end Change

/-- Work through a batch of changes. -/
def processChanges (s : Services) (changes : Changes) : Procedure (List ChangeResult) := do
  let total := changes.length
  ask (.tellBatch (.start (Path.sort (changes.map (·.1)))))
  let deleted := Path.sort ((changes.filter (·.2 = .deleted)).map (·.1))
  let present := Path.sort ((changes.filter (·.2 ≠ .deleted)).map (·.1))
  let groups := segmentsOf (max s.tuning.watcherConcurrency 1) present
  let tally ← Change.processGroups s total {} groups
  let deleteError ← Change.deleteStale s (deleted ++ tally.ready.map (·.path))
  let tally ← Change.settleDeleted total deleteError.isSome tally deleted
  let (results, error) ← match deleteError with
    | some e =>
      let failed := tally.ready.map fun file =>
        ChangeResult.mk file.path (.failed "failed to delete old points")
      pure (tally.results ++ failed, some e)
    | none => do
      let (stored, error) ← Change.upsertReady s tally.ready
      pure (tally.results ++ stored, error)
  Change.tellProgress total total none
  ask (.tellBatch (.finish results error))
  return results

end SourceIndex
