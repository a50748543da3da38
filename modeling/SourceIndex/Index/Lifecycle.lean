import SourceIndex.Index.Change
import SourceIndex.Index.Scan
/-!
# The life of an index

Starting an index scans the workspace and then watches it; stopping ends the watching; clearing
drops the collection and the cache. The published state tells where the index stands. A start that
fails leaves nothing behind: the collection and the cache are emptied and the state is `error`.

While a scan is running it owns the published state, so batches of changes that end meanwhile are not
shown (`showBatchEvent`).
-/

namespace SourceIndex

/-- Whether a scan came to enough to count as done: something was indexed if anything was found, and
at most a tenth of the blocks failed. -/
def ScanResult.check (r : ScanResult) : Except IndexError Unit :=
  if 0 < r.total && r.indexed == 0 then
    let reason := match r.batchErrors with
      | e :: _ => s!": {e}"
      | [] => ""
    .error (.scanFailed s!"none of {r.total} blocks were indexed{reason}")
  else if !r.batchErrors.isEmpty && r.total < r.failed * 10 then
    .error (.scanFailed s!"{r.failed} of {r.total} blocks failed to index")
  else .ok ()

/-- The message that a scan ends with. -/
def ScanResult.message (r : ScanResult) : String :=
  if r.processed == 0 then "Index up-to-date. File watcher started."
  else s!"Indexed {r.indexed} blocks from {r.processed} files. File watcher started."

/-- How the published status takes part in a batch of changes; it does not during a scan. -/
def Status.showBatchEvent (s : Status) (scanning : Bool) (event : BatchEvent) : Status :=
  if scanning then s
  else
    match event with
    | .start paths => s.reportFiles 0 paths.length none
    | .progress processed total current => s.reportFiles processed total current
    | .finish results _ =>
      if s.state = .error then s
      else s.setState .indexed s!"Processed {results.length} changed files."

namespace Lifecycle

/-- Show the progress of a scan in the published status. -/
def showScan : ScanEvent → Procedure Unit
  | .parsed _ _ indexed found => ask (.reportBlocks indexed found)
  | .indexed indexed found => ask (.reportBlocks indexed found)
  | .error _ => return ()

/-- Delete the points of files that the cache does not know. If that fails they stay. -/
def removeOrphans (s : Services) : Procedure Unit := do
  let stored ← ask .storedPaths
  if stored.isEmpty then return ()
  let known := (← ask .hashes).map fun entry => Path.relativeTo s.root entry.1
  let orphans := stored.filter fun path => !known.contains path
  if orphans.isEmpty then return ()
  let _ ← ask (.deletePoints orphans)

/-- Bring the collection and the cache together: a new collection starts with an empty cache, in an old
one what the cache does not know is removed. -/
def reconcile (s : Services) : Procedure (Except IndexError Unit) := do
  match ← ask .prepareStore with
  | .error e => return .error (.service e)
  | .ok true => ask .clearCache
  | .ok false =>
    removeOrphans s
    return .ok ()

/-- Scan the workspace, write the cache and start watching. -/
def scanAndWatch (s : Services) : Procedure (Except IndexError Unit) := do
  ask (.setState .indexing "Services ready. Starting workspace scan...")
  let result ← scan s { tell := showScan }
  match result.check with
  | .error e => return .error e
  | .ok () =>
    let _ ← ask .flushCache
    match ← ask .startWatcher with
    | .error e => return .error e
    | .ok () =>
      ask (.setState .indexed result.message)
      return .ok ()

/-- A whole run. -/
def fullIndex (s : Services) : Procedure (Except IndexError Unit) := do
  match ← reconcile s with
  | .error e => return .error e
  | .ok () => scanAndWatch s

/-- What is done when a run fails. -/
def giveUp (e : IndexError) : Procedure Unit := do
  let _ ← ask .clearStore
  let _ ← ask .clearCache
  ask .stopWatcher
  ask (.setState .error s!"Failed during initial scan: {e.message}")

/-- Start indexing. Does nothing while a scan runs or a batch of changes is being worked through. -/
def start (s : Services) : Procedure (Except IndexError Unit) := do
  let running : Bool ← ask .beginScan
  if running then return .ok ()
  let state : IndexState ← ask .state
  if state = .indexing then
    ask .endScan
    return .ok ()
  ask (.setState .indexing "Initializing services...")
  let outcome ← fullIndex s
  ask .endScan
  match outcome with
  | .ok () => return .ok ()
  | .error e =>
    giveUp e
    return .error e

/-- Stop watching. An error stays published. -/
def stop : Procedure Unit := do
  ask .stopWatcher
  let state : IndexState ← ask .state
  if state ≠ .error then ask (.setState .standby "File watcher stopped.")

/-- Drop the collection and empty the cache. Both are tried, and the first error counts. -/
def clear : Procedure (Except IndexError Unit) := do
  ask .stopWatcher
  let dropped ← ask .dropStore
  let cleared ← ask .clearCache
  let outcome : Except IndexError Unit := match dropped with
    | .ok () => cleared
    | .error e => .error (.service e)
  match outcome with
  | .ok () => ask (.setState .standby "Index data cleared successfully.")
  | .error e => ask (.setState .error s!"Failed to clear index data: {e.message}")
  return outcome

/-- Stop watching and write the cache. -/
def dispose : Procedure Unit := do
  ask .stopWatcher
  let _ ← ask .flushCache

end Lifecycle

end SourceIndex
