import SourceIndex.Disk.Edit
import SourceIndex.Index.Lifecycle
import SourceIndex.Scenario.Script
import SourceIndex.Store.Memory
/-!
# A world for indexing

Everything that indexing reaches, as one state: the disk, the clock, the cache, a store, the published
status, and the watcher with the changes it has gathered. `World.answer` answers one request.

Time passes when a request takes some, and while it does batches of changes go on: one that waits for an
answer is a `Flight`, which is resumed at the moment when its answer comes.

The providers are either scripted, with a store in memory, or given as functions.
-/

namespace SourceIndex.Scenario

/-- A watcher at work. -/
structure Watch where
  services : Services
  pending : Pending := {}

/-- A batch of changes that is being worked through and waits for an answer. -/
structure Flight where
  /-- When the answer comes. -/
  wake : Nat
  /-- What is left to do behind it. -/
  rest : Procedure (List ChangeResult)
  /-- Whether the watcher that began it is still at work, so that the status shows the batch. -/
  shown : Bool := true

/-- The state of a world. Times are in nanoseconds. -/
structure World where
  disk : Disk := {}
  now : Nat := 0
  cache : HashCache
  store : MemoryStore := {}
  script : Script := {}
  /-- Takes the place of the script and the store in memory. -/
  remote : Option Providers := none
  status : Status := {}
  /-- Whether a scan is running. -/
  scanning : Bool := false
  watch : Option Watch := none
  /-- Batches of changes under way. A watcher begins one behind the other; one whose watcher was stopped
  goes on. -/
  flights : List Flight := []
  /-- What a watcher that is started works with. -/
  services : Services
  /-- Texts sent to the embedding service, call by call, the last one first. -/
  embedded : List (List String) := []
  /-- Calls of the store, the last one first. -/
  journal : List Entry := []
  /-- What scans told, with the time, the last one first. -/
  scanEvents : List (ScanEvent × Nat) := []
  /-- What batches of changes told, the last one first. -/
  batchEvents : List BatchEvent := []

namespace World

/-- A wait that would end behind the last moment that can be expressed lasts thirty years. -/
def boundedWait (duration : Nat) : Nat :=
  if duration < Nat.pow 2 63 * 1000000000 then duration else 86400 * 365 * 30 * 1000000000

/-- Let time pass. What is due to be written to the cache file meanwhile is written. -/
def elapse (w : World) (duration : Nat) : World :=
  let now := w.now + duration
  let (cache, disk) := w.cache.tick now w.disk
  { w with now, cache, disk }

/-- A call of the store: it is entered in the journal, and has an effect only if it succeeds. -/
def callStore {α : Type} (w : World) (call : StoreCall) (entry : Entry) (refused : Bool)
    (value : α) (effect : MemoryStore → MemoryStore) : Except ServiceError α × World :=
  let (ok, script) := if refused then (false, w.script) else w.script.nextStore call
  if ok then
    (.ok value, { w with script, store := effect w.store, journal := entry :: w.journal })
  else (.error (Script.refusal call), { w with script, journal := .failed entry :: w.journal })

/-- A call of the scripted embedding service. -/
def callEmbedder (w : World) (texts : List String) :
    Except ServiceError Embed.Embeddings × World :=
  let w := { w with embedded := texts :: w.embedded }
  let (outcome, script) := w.script.nextEmbed
  let outcome := if Script.hits w.script.failText texts then .fail else outcome
  (Script.answer outcome texts, { w with script })

/-- Upsert into the scripted store. -/
def callUpsert (w : World) (points : List Point) : Except ServiceError Unit × World :=
  let paths := points.map (·.payload.filePath)
  let refused := Script.hits w.script.failPath paths
  let entry := Entry.upsert (Text.sortDistinct paths) (Text.sortDistinct (points.map (·.id)))
  w.callStore .upsert entry refused () fun m => m.upsert points

/-- Start watching, unless a watcher is at work. Only a directory can be watched. -/
def startWatcher (w : World) : Except IndexError Unit × World :=
  if w.watch.isSome then (.ok (), w)
  else if w.disk.isDir w.services.root then
    (.ok (), { w with watch := some { services := w.services } })
  else (.error (.other s!"failed to watch {w.services.root}: No path was found."), w)

/-- Stop watching. A batch under way goes on, but the status no longer shows it. -/
def stopWatcher (w : World) : World :=
  { w with watch := none, flights := w.flights.map fun f => { f with shown := false } }

/-- How long a request takes to be answered. -/
def span (w : World) : Action → Nat
  | .embed texts =>
    if w.remote.isNone && Script.hits w.script.slowText texts then w.script.slowSpan else 0
  | .pause duration => boundedWait duration
  | _ => 0

/-- Answer a request in no time. -/
def respond : Program.Handler indexing World
  | .embed texts, w =>
    match w.remote with
    | some r => (r.embed texts, w)
    | none => w.callEmbedder texts
  | .prepareStore, w =>
    match w.remote with
    | some r => (r.prepare, w)
    | none => w.callStore .prepare .prepare false (!w.store.isThere) MemoryStore.prepare
  | .upsert points, w =>
    match w.remote with
    | some r => (r.upsert points, w)
    | none => w.callUpsert points
  | .deletePoints paths, w =>
    match w.remote with
    | some r => (r.deletePoints paths, w)
    | none =>
      w.callStore .delete (.delete (Text.sort paths)) false () fun m => m.deletePaths paths
  | .clearStore, w =>
    match w.remote with
    | some r => (r.clear, w)
    | none => w.callStore .clear .clear false () MemoryStore.clear
  | .dropStore, w =>
    match w.remote with
    | some r => (r.drop, w)
    | none => w.callStore .drop .drop false () MemoryStore.drop
  | .storedPaths, w =>
    match w.remote with
    | some r => (r.storedPaths, w)
    | none => (w.store.paths, w)
  | .nearest vector directory minScore limit, w =>
    match w.remote with
    | some r => (r.nearest vector directory minScore limit, w)
    | none =>
      w.callStore .search (.search vector directory minScore limit) false
        (w.store.nearest directory limit) id
  | .listFiles rules limit, w => (rules.listFiles w.disk limit, w)
  | .fileSize path, w =>
    ((w.disk.stat path).map fun
      | .file bytes => bytes.size
      | .dir _ => 4096, w)
  | .readFile path, w => (w.disk.readText path, w)
  | .hashes, w => (w.cache.hashes, w)
  | .recordHash path hash, w => ((), { w with cache := w.cache.record w.now path hash })
  | .forgetHashes paths, w => ((), { w with cache := w.cache.forget w.now paths })
  | .clearCache, w =>
    let (result, cache, disk) := w.cache.clear w.disk
    (result, { w with cache, disk })
  | .flushCache, w =>
    let (result, cache, disk) := w.cache.flush w.disk
    (result, { w with cache, disk })
  | .pause _, w => ((), w)
  | .tellScan event, w => ((), { w with scanEvents := (event, w.now) :: w.scanEvents })
  | .tellBatch event, w =>
    let status := if w.watch.isSome then w.status.showBatchEvent w.scanning event else w.status
    ((), { w with status, batchEvents := event :: w.batchEvents })
  | .state, w => (w.status.state, w)
  | .setState state message, w => ((), { w with status := w.status.setState state message })
  | .reportBlocks indexed found, w =>
    ((), { w with status := w.status.reportBlocks indexed found })
  | .beginScan, w => (w.scanning, { w with scanning := true })
  | .endScan, w => ((), { w with scanning := false })
  | .startWatcher, w => w.startWatcher
  | .stopWatcher, w => ((), w.stopWatcher)
  | .loadRules root patterns, w => (IgnoreRules.load w.disk root patterns, w)
  | .install services cacheDir providers, w =>
    let debounce := millis services.tuning.cacheDebounce
    let cache := (HashCache.new services.root cacheDir debounce).load w.disk
    ((), { w.stopWatcher with services, cache, remote := providers, scanning := false })

/-- Answer a request in the time that it takes. -/
def answer : Program.Handler indexing World := fun r w =>
  let (x, after) := respond r w
  (x, after.elapse (w.span r))

/-- Run a procedure with nothing going on beside it. -/
def run {α : Type} (p : Procedure α) (w : World) : α × World :=
  Program.run answer p w

/-- Go on with a batch of changes until it ends, or asks for something that is not answered before
`limit`. What a batch does to the published status counts only if it is `shown`. -/
def proceed (limit : Option Nat) (shown : Bool) :
    Procedure (List ChangeResult) → World → Option Flight × World
  | .done _, w => (none, w)
  | .call r next, w =>
    let (x, after) := respond r w
    let after := if shown then after else { after with status := w.status }
    let wake := w.now + w.span r
    if w.span r == 0 || limit.all (wake < ·) then
      proceed limit shown (next x) (after.elapse (w.span r))
    else (some { wake, rest := next x, shown }, after)

/-- Put off the gathered changes to one debounce after now: a watcher hears of what came during a batch
when the batch has ended. -/
def postpone (w : World) : World :=
  match w.watch with
  | some watch =>
    let due := watch.pending.due.map fun _ => w.now + millis watch.services.tuning.watcherDebounce
    { w with watch := some { watch with pending := { watch.pending with due } } }
  | none => w

/-- Go on with batches under way. -/
def resume (limit : Option Nat) : List Flight → World → World
  | [], w => w
  | f :: rest, w =>
    if limit.all (f.wake < ·) then
      let (flight, w) := proceed limit f.shown f.rest (w.elapse (f.wake - w.now))
      let w := match flight with
        | some flight => { w with flights := w.flights ++ [flight] }
        | none => if f.shown then w.postpone else w
      resume limit rest w
    else resume limit rest { w with flights := w.flights ++ [f] }

/-- Begin with the gathered changes if their time lies before `limit`, unless the watcher is busy. -/
def begin (limit : Option Nat) (w : World) : World :=
  match w.watch with
  | some watch =>
    match watch.pending.due with
    | some due =>
      if limit.all (due < ·) && !w.flights.any (·.shown) then
        let (changes, pending) := watch.pending.take
        let w := { w with watch := some { watch with pending } }
        let (flight, w) :=
          proceed limit true (processChanges watch.services changes) (w.elapse (due - w.now))
        { w with flights := w.flights ++ flight.toList }
      else w
    | none => w
  | none => w

/-- Let time pass beside the watcher: batches of changes go on, and begin when their time comes. -/
def pass (w : World) (duration : Nat) : World :=
  let limit := w.now + duration
  let w := begin (some limit) (resume (some limit) w.flights { w with flights := [] })
  w.elapse (limit - w.now)

/-- Run a procedure beside the watcher, which goes on while a request takes time. -/
def runWatched {α : Type} : Procedure α → World → α × World
  | .done a, w => (a, w)
  | .call r next, w =>
    let (x, after) := respond r w
    runWatched (next x) (after.pass (w.span r))

/-- Bring a notification to the watcher, if one is at work. -/
def notice (w : World) (n : Notice) : World :=
  match w.watch with
  | some watch =>
    let pending := watch.pending.add (millis watch.services.tuning.watcherDebounce) w.now n
    { w with watch := some { watch with pending } }
  | none => w

/-- What a watcher hears of a change that was made to `before`. -/
def noticesOf (before : Disk) : FileEdit → List Notice
  | .write path _ => [⟨.create, [(path, true)]⟩, ⟨.modify, [(path, true)]⟩]
  | .makeDir path => [⟨.create, [(path, true)]⟩]
  | .remove path =>
    (FileEdit.allPaths before path).map fun gone => ⟨.remove, [(gone, false)]⟩
  | .rename source target =>
    [⟨.rename, [(source, false)]⟩, ⟨.rename, [(target, true)]⟩]

/-- Make a change to the disk, of which a watcher at work hears. -/
def edit (w : World) (e : FileEdit) : World :=
  let notices := noticesOf w.disk e
  notices.foldl notice { w with disk := e.apply w.disk }

/-- Let time pass until the gathered changes have been worked through. -/
def settle (w : World) : World :=
  match w.watch with
  | some watch =>
    let w := w.pass (millis watch.services.tuning.watcherDebounce + 1)
    resume none w.flights { w with flights := [] }
  | none => w

end World

end SourceIndex.Scenario
