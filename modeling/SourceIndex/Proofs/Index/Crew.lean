import SourceIndex.Index.Scan
import SourceIndex.Proofs.Cache.Hashes
import SourceIndex.Proofs.Program.Crews
/-!
# A scan by a crew

Files are scanned and batches worked through beside each other, each as a job of its own (`Scan.Job`).
What they share are the buffer and the counters of the scan; they reach them by requests, each of which is
answered at once (`Scan.Shared.serve`). A batch is taken out of the buffer by the file that fills it, or
at the end by the flush, and becomes a job when it is submitted.

A `ConcurrentScan` is a whole run: the files, until each of them has been worked on; then the flush and
all batches to their end; then the closing, which takes the files with failed blocks out of the cache and
removes those that are no longer listed. How many files and batches may be worked on at one time is left
open, so that these are the runs under any limits.
-/

namespace SourceIndex

open Program (Crew Ends Exchange Rules Thread)

/-- A file that was read and parsed. -/
structure ParsedFile where
  path : String
  hash : String
  /-- Whether the cache had a hash of older content. -/
  cached : Bool
  blocks : List Block

/-- The blocks as they wait for a batch. -/
def ParsedFile.items (f : ParsedFile) : List PendingBlock :=
  f.blocks.map fun block => ⟨block, f.cached⟩

/-- The file has blocks. -/
def ParsedFile.hasBlocks (f : ParsedFile) : Bool :=
  !f.blocks.isEmpty

namespace Scan

/-! ## Looking at a file -/

/-- What looking at a file came to. -/
inductive Finding where
  | failed (e : IndexError)
  | skipped
  | parsed (file : ParsedFile)

/-- Read a file, and parse it if it is new or changed. -/
def look (s : Services) (path : String) : Procedure Finding := do
  match ← ask (.fileSize path) with
  | .error e => return .failed (.io e)
  | .ok size =>
    if s.tuning.maxFileSize < size then return .skipped
    match ← ask (.readFile path) with
    | .error e => return .failed (.io e)
    | .ok content =>
      let hash := contentHash content
      let cached := (← ask .hashes).get? path
      if cached == some hash then return .skipped
      return .parsed
        { path, hash, cached := cached.isSome
          blocks := Chunk.parse s.trees s.tuning.chunk path content hash }

/-- Scanning a file is looking at it and dealing with what was found. -/
theorem scanFile_eq (s : Services) (mode : ScanMode) (state : ScanState) (path : String) :
    scanFile s mode state path = look s path >>= fun
      | .failed e => pure (state, some e)
      | .skipped => pure ({ state with skipped := state.skipped + 1 }, none)
      | .parsed f => takeBlocks s mode state f.path f.hash f.cached f.blocks := by
  unfold scanFile look
  refine congrArg (Program.call (I := indexing) (.fileSize path)) (funext fun size => ?_)
  cases size with
  | error e => rfl
  | ok size =>
    dsimp only [Program.bind]
    split
    · rfl
    refine congrArg (Program.call (I := indexing) (.readFile path)) (funext fun content => ?_)
    cases content with
    | error e => rfl
    | ok content =>
      refine congrArg (Program.call (I := indexing) .hashes) (funext fun hashes => ?_)
      dsimp only [Program.bind]
      split
      · rfl
      · rfl

/-! ## What the jobs share -/

/-- A request to what the jobs of a scan share. -/
inductive Shared where
  /-- Count a file that is skipped. -/
  | skip
  /-- Count a parsed file and its blocks; answers how many blocks are indexed and how many found. -/
  | count (file : ParsedFile)
  /-- Put blocks into the buffer, and take out all that is in it if there are enough. -/
  | gather (items : List PendingBlock)
  /-- Take out what is in the buffer, if anything is. -/
  | take
  /-- Have a batch worked through. -/
  | submit (batch : List PendingBlock)
  /-- Count blocks that went through a batch; answers as `count` does. -/
  | advance (size : Nat)

/-- The type of each answer. -/
def Shared.Answer : Shared → Type
  | .skip => Unit
  | .count _ => Nat × Nat
  | .gather _ => Option (List PendingBlock)
  | .take => Option (List PendingBlock)
  | .submit _ => Unit
  | .advance _ => Nat × Nat

/-- Answer a request; `threshold` blocks in the buffer are enough for a batch. -/
def Shared.serve (threshold : Nat) : (c : Shared) → ScanState → c.Answer × ScanState
  | .skip, state => ((), { state with skipped := state.skipped + 1 })
  | .count f, state =>
    ((state.indexed, state.found + f.blocks.length),
      { state with processed := state.processed + 1, found := state.found + f.blocks.length })
  | .gather items, state =>
    let buffer := state.buffer ++ items
    if threshold ≤ buffer.length then (some buffer, { state with buffer := [] })
    else (none, { state with buffer })
  | .take, state =>
    if state.buffer.isEmpty then (none, state) else (some state.buffer, { state with buffer := [] })
  | .submit _, state => ((), state)
  | .advance size, state =>
    ((state.indexed + size, state.found), { state with indexed := state.indexed + size })

/-- A request of a job. -/
inductive Request where
  | action (a : Action)
  | shared (c : Shared)

/-- The requests of the jobs of a scan and their answers. -/
def jobs : Interface where
  Request := Request
  Answer
    | .action a => a.Answer
    | .shared c => c.Answer

/-- The answers that requests of jobs may get: actions as `rules` say, the others from what the jobs
share. -/
def jobRules {σ : Type} (threshold : Nat) (rules : Rules indexing σ) : Rules jobs (σ × ScanState)
  | .action a, (s, state), x, (s', state') => rules a s x s' ∧ state' = state
  | .shared c, (s, state), x, (s', state') => s' = s ∧ (x, state') = c.serve threshold state

/-- Make the requests of a procedure. -/
def perform {α : Type} (p : Procedure α) : Program jobs α :=
  p.translate fun a => Program.ask (I := jobs) (.action a)

/-- Make a request to what the jobs share. -/
def share (c : Shared) : Program jobs c.Answer :=
  Program.ask (I := jobs) (.shared c)

/-! ## The jobs -/

/-- What a crew that scans works on. -/
inductive Job where
  | file (path : String)
  /-- Sending off what is left in the buffer. -/
  | flush
  | batch (items : List PendingBlock)
  /-- What is done last, with the files that were listed and what the batches did. -/
  | close (listed : List String) (batches : BatchResult)

/-- Have a batch worked through, if there is one. -/
def submitAny : Option (List PendingBlock) → Program jobs Unit
  | some batch => share (.submit batch)
  | none => pure ()

/-- Enter the hash of a file without blocks, if its old points are gone. -/
def enterEmpty (f : ParsedFile) : Except ServiceError Unit → Procedure (Option IndexError)
  | .ok () => do
    ask (.recordHash f.path f.hash)
    return none
  | .error e => return some (.service e)

/-- Delete the old points of a file that has no blocks any more, and enter its hash. -/
def takeEmpty (s : Services) (f : ParsedFile) : Procedure (Option IndexError) := do
  if f.cached then enterEmpty f (← ask (.deletePoints [Path.relativeTo s.root f.path]))
  else enterEmpty f (.ok ())

/-- Count a file and put its blocks into the buffer. -/
def takeFile (s : Services) (mode : ScanMode) (f : ParsedFile) : Program jobs (Option IndexError) := do
  let (indexed, found) ← share (.count f)
  perform (mode.tell (.parsed f.path f.blocks.length indexed found))
  if f.blocks.isEmpty then perform (takeEmpty s f)
  else
    submitAny (← share (.gather f.items))
    return none

/-- Deal with what looking at a file came to; answers what went wrong, if anything did. -/
def deal (s : Services) (mode : ScanMode) : Finding → Program jobs (Option IndexError)
  | .failed e => return some e
  | .skipped => do
    share .skip
    return none
  | .parsed f => takeFile s mode f

/-- Tell what went wrong with a file. -/
def tellFailure (mode : ScanMode) (path : String) : Option IndexError → Procedure Unit
  | some e => mode.tell (.error s!"Error processing {path}: {e.message}")
  | none => return ()

/-- Scan one file. -/
def workOn (s : Services) (mode : ScanMode) (path : String) : Program jobs Unit := do
  let error ← deal s mode (← perform (look s path))
  perform (tellFailure mode path error)

/-- Count the blocks of a segment, and tell about them. -/
def relay (mode : ScanMode) : (a : Action) → Program jobs a.Answer
  | .tellScan (.indexed _ size) => do
    let (indexed, found) ← share (.advance size)
    perform (mode.tell (.indexed indexed found))
  | a => Program.ask (I := jobs) (.action a)

/-- Tell how many items were done before a segment and how many it has. -/
def tellSegment (before size : Nat) : Procedure Unit :=
  ask (.tellScan (.indexed before size))

/-- A batch that tells of every segment. -/
def reporting (s : Services) (items : List PendingBlock) : Procedure BatchResult :=
  Batch.process (blockStrategy s.root) (.ofTuning s.tuning) tellSegment items

/-- What is done for a job. Only a batch has a result. -/
def Job.program (s : Services) (mode : ScanMode) : Job → Program jobs BatchResult
  | .file path => do
    workOn s mode path
    return {}
  | .flush => do
    submitAny (← share .take)
    return {}
  | .batch items => (reporting s items).translate (relay mode)
  | .close listed batches => do
    perform (settle mode batches)
    perform (removeVanished s mode listed)
    return {}

/-- The crew of a scan: a batch becomes a job when it is submitted. -/
def crew (s : Services) (mode : ScanMode) : Crew jobs Job BatchResult where
  program := Job.program s mode
  spawns
    | .shared (.submit batch) => [.batch batch]
    | _ => []

/-- The files that a scan goes through. -/
def listing (s : Services) : Procedure (List String) := do
  return (← ask (.listFiles s.rules s.tuning.maxListedFiles)).filter s.rules.accepts

/-- What becomes of the cache while requests are answered, whatever the answers are: it changes only by what
it is asked for. A file is listed once. -/
def ledger : Rules indexing Hashes
  | .listFiles _ _, h, (x : List String), h' => h' = h ∧ x.Nodup
  | .hashes, h, x, h' => h' = h ∧ x = h
  | .recordHash path hash, h, _, h' => h' = h.put path hash
  | .forgetHashes paths, h, _, h' => h' = paths.foldl Hashes.erase h
  | .clearCache, _, _, h' => h' = []
  | _, h, _, h' => h' = h

/-- What a scan reports in the end. -/
def resultOf (state : ScanState) (batches : BatchResult) : ScanResult where
  blocks := state.collected
  processed := state.processed
  skipped := state.skipped
  total := state.found
  indexed := batches.processed
  failed := batches.failed
  batchErrors := batches.errors

end Scan

open Scan in
/-- A run of a scan that indexes by a crew, which finds the cache at `before` and leaves it at `after`. -/
structure ConcurrentScan (s : Services) (mode : ScanMode) (before : Hashes) (result : ScanResult)
    (after : Hashes) where
  indexes : mode.indexes = true
  listed : List String
  lists : Ends ledger (listing s) before listed before
  /-- What is done until all files have been worked on. -/
  working : List (Nat × Exchange jobs)
  worked : List (Thread jobs Job BatchResult)
  halfway : Hashes × ScanState
  works : Crew.Runs (jobRules s.tuning.batchThreshold ledger) (crew s mode)
    (listed.map fun path => (crew s mode).start (.file path)) (before, {}) working worked halfway
  filesDone : ∀ i < listed.length, ∃ t, worked[i]? = some t ∧ t.rest = .done {}
  /-- What is done until all batches have ended. -/
  ending : List (Nat × Exchange jobs)
  ended : List (Thread jobs Job BatchResult)
  settled : Hashes × ScanState
  ends : Crew.Runs (jobRules s.tuning.batchThreshold ledger) (crew s mode)
    (worked ++ [(crew s mode).start .flush]) halfway ending ended settled
  /-- What the threads ended with, in the order in which they were begun. -/
  results : List BatchResult
  allDone : ended.map (·.rest) = results.map .done
  closing : List (Nat × Exchange jobs)
  closed : List (Thread jobs Job BatchResult)
  last : Hashes × ScanState
  closes : Crew.Runs (jobRules s.tuning.batchThreshold ledger) (crew s mode)
    [(crew s mode).start (.close listed (results.foldl .merge {}))] settled closing closed last
  closeDone : ∀ t ∈ closed, t.rest = .done {}
  cache : last.1 = after
  reports : result = resultOf last.2 (results.foldl .merge {})

end SourceIndex
