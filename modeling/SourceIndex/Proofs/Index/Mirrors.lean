import SourceIndex.Proofs.Index.Concurrency
/-!
# Jobs that mirror procedures

A scan that goes through the files one after the other and the jobs of a crew do the same, with another
place to keep what they come to: the first hands a `ScanState` on, the others share one. A job `Mirrors` a
procedure if it can ask for whatever the procedure asks for, in the same order; what it asks for of the shared
state is answered at once and takes no part in this. The relation is followed along the procedure
(`mirrors_perform_bind`, `mirrors_share_bind`).

A file is scanned up to where its blocks are sent off (`sift`), and then its batch is sent off (`send`), if it
fills one (`scanFiles_cons`). The first is what the job of the file does (`mirrors_file`), and of a flush the
same is said by `mirrors_flush`; the second is what the job of the batch does (`mirrors_submit`), which counts
segments where the first counts from what it was handed.
-/

namespace SourceIndex

open Program (Exchange Follows Rules Trail)

/-- How far a scan has come, but for what the batches did. -/
def ScanState.shared (state : ScanState) : ScanState :=
  { state with batches := {} }

namespace Scan

variable {s : Services} {mode : ScanMode} {path : String} {α β γ σ : Type} {rules : Rules indexing σ}

/-! ## The relation -/

/-- What a job asks for that is not shared. -/
def actionOf : Exchange jobs → Option (Exchange indexing)
  | ⟨.action a, x⟩ => some ⟨a, x⟩
  | ⟨.shared _, _⟩ => none

theorem actionOf_performed (exchanges : List (Exchange indexing)) :
    (exchanges.map performed).filterMap actionOf = exchanges := by
  rw [List.filterMap_map]
  exact List.filterMap_some

/-- Whatever `p` exchanges, `q` may exchange as well when what is shared stands at `state`, with requests to what
is shared between. In the end `post` holds of both values, of the jobs that `q` gave rise to and of what is shared
then. -/
def Mirrors (s : Services) (mode : ScanMode) (rules : Rules indexing σ) (p : Procedure α)
    (state : ScanState) (q : Program jobs β) (post : α → β → List Job → ScanState → Prop) : Prop :=
  ∀ a trace w w', Follows p trace (.done a) → Trail rules w trace w' →
    ∃ b whole state', Follows q whole (.done b) ∧
      Trail (jobRules s.tuning.batchThreshold rules) (w, state) whole (w', state') ∧
      whole.filterMap actionOf = trace ∧
      post a b (whole.flatMap fun e => (crew s mode).spawns e.request) state'

section Mirrors
variable {p : Procedure α} {state : ScanState} {q : Program jobs β}
  {post post' : α → β → List Job → ScanState → Prop}

theorem Mirrors.mono (h : Mirrors s mode rules p state q post)
    (hw : ∀ a b spawned state', post a b spawned state' → post' a b spawned state') :
    Mirrors s mode rules p state q post' := by
  intro a trace w w' hfollows htrail
  obtain ⟨b, whole, state', hwhole, hjob, hactions, hpost⟩ := h a trace w w' hfollows htrail
  exact ⟨b, whole, state', hwhole, hjob, hactions, hw _ _ _ _ hpost⟩

/-- What a procedure makes of its value in the end takes no request. -/
theorem Mirrors.map {post' : γ → β → List Job → ScanState → Prop} (h : Mirrors s mode rules p state q post)
    (f : α → γ) (hf : ∀ a b spawned state', post a b spawned state' → post' (f a) b spawned state') :
    Mirrors s mode rules (p >>= fun a => pure (f a)) state q post' := by
  intro c trace w w' hfollows htrail
  obtain ⟨a, first, second, rfl, hfirst, hsecond⟩ := Program.follows_bind_iff.1 hfollows
  obtain ⟨rfl, rfl⟩ := Program.follows_done_iff.1 hsecond
  rw [List.append_nil] at htrail ⊢
  obtain ⟨b, whole, state', hwhole, hjob, hactions, hpost⟩ := h a first w w' hfirst htrail
  exact ⟨b, whole, state', hwhole, hjob, hactions, hf _ _ _ _ hpost⟩

theorem mirrors_pure {a : α} {b : β} (h : post a b [] state) :
    Mirrors s mode rules (pure a) state (pure b) post := by
  intro a' trace w w' hfollows htrail
  obtain ⟨rfl, rfl⟩ := Program.follows_done_iff.1 hfollows
  cases htrail
  exact ⟨b, [], state, .nil _, .nil _, rfl, h⟩

theorem trail_performed {threshold : Nat} {trace : List (Exchange indexing)} {w w' : σ}
    (h : Trail rules w trace w') :
    Trail (jobRules threshold rules) (w, state) (trace.map performed) (w', state) := by
  induction h with
  | nil w => exact .nil _
  | @cons e trace w w₁ w' answer rest ih =>
    have hperformed : jobRules threshold rules (performed e).request (w, state) (performed e).answer
        (w₁, state) := ⟨answer, rfl⟩
    exact .cons hperformed ih

theorem flatMap_spawns_performed (trace : List (Exchange indexing)) :
    ((trace.map performed).flatMap fun e => (crew s mode).spawns e.request) = [] := by
  rw [List.flatMap_map, List.flatMap_eq_nil_iff]
  exact fun _ _ => rfl

/-- A job may begin with what it performs of the procedure. -/
theorem mirrors_perform_bind {f : α → Procedure β} {g : α → Program jobs γ}
    {post : β → γ → List Job → ScanState → Prop}
    (h : ∀ a first, Follows p first (.done a) → Mirrors s mode rules (f a) state (g a) post) :
    Mirrors s mode rules (p >>= f) state (perform p >>= g) post := by
  intro b trace w w' hfollows htrail
  obtain ⟨a, first, second, rfl, hfirst, hsecond⟩ := Program.follows_bind_iff.1 hfollows
  obtain ⟨w₁, htrail₁, htrail₂⟩ := Program.trail_append_iff.1 htrail
  obtain ⟨c, whole, state', hwhole, hjob, hactions, hpost⟩ := h a first hfirst b second w₁ w' hsecond htrail₂
  refine ⟨c, first.map performed ++ whole, state', ?_, ?_, ?_, ?_⟩
  · exact Program.follows_bind_iff.2 ⟨a, _, _, rfl, follows_perform_iff.2 ⟨first, hfirst, rfl⟩, hwhole⟩
  · exact Program.trail_append_iff.2 ⟨_, trail_performed htrail₁, hjob⟩
  · rw [List.filterMap_append, actionOf_performed, hactions]
  · rwa [List.flatMap_append, flatMap_spawns_performed, List.nil_append]

theorem mirrors_perform_bind_bind {δ : Type} {f : α → Procedure β} {g : α → Program jobs γ}
    {next : γ → Program jobs δ} {post : β → δ → List Job → ScanState → Prop}
    (h : ∀ a first, Follows p first (.done a) → Mirrors s mode rules (f a) state (g a >>= next) post) :
    Mirrors s mode rules (p >>= f) state (perform p >>= g >>= next) post := by
  rw [Program.bind_assoc]
  exact mirrors_perform_bind h

/-- A job may begin with a request to what is shared; the procedure has nothing to do with it. -/
theorem mirrors_share_bind {c : Shared} {g : c.Answer → Program jobs β}
    (h : Mirrors s mode rules p (c.serve s.tuning.batchThreshold state).2
      (g (c.serve s.tuning.batchThreshold state).1)
      fun a b spawned => post a b ((crew s mode).spawns (Request.shared c) ++ spawned)) :
    Mirrors s mode rules p state (share c >>= g) post := by
  intro a trace w w' hfollows htrail
  obtain ⟨b, whole, state', hwhole, hjob, hactions, hpost⟩ := h a trace w w' hfollows htrail
  let x := (c.serve s.tuning.batchThreshold state).1
  have hask : Follows (share c) [⟨Request.shared c, x⟩] (.done x) :=
    @Follows.cons jobs _ (.shared c) .done _ _ x (.nil _)
  exact ⟨b, ⟨Request.shared c, x⟩ :: whole, state',
    Program.follows_bind_iff.2 ⟨x, _, whole, rfl, hask, hwhole⟩, .cons ⟨rfl, rfl⟩ hjob, hactions, hpost⟩

end Mirrors

/-! ## Files up to where their blocks are sent off -/

/-- Send a batch off, if there is one. -/
def send (s : Services) (mode : ScanMode) : Option (List PendingBlock) × ScanState → Procedure ScanState
  | (some batch, state) => submit s mode state batch
  | (none, state) => return state

/-- Take in the blocks of a file; answers the batch that they fill, if they do, and how far the scan has come. -/
def takeIn (s : Services) (mode : ScanMode) (path : String) (state : ScanState) (f : ParsedFile) :
    Procedure (Option (List PendingBlock) × ScanState) := do
  let state := { state with
    processed := state.processed + 1
    found := state.found + f.blocks.length }
  mode.tell (.parsed f.path f.blocks.length state.indexed state.found)
  if f.blocks.isEmpty then
    tellFailure mode path (← takeEmpty s f)
    return (none, state)
  else return (Shared.gather f.items).serve s.tuning.batchThreshold state

/-- Scan a file up to where its blocks are sent off. -/
def sift (s : Services) (mode : ScanMode) (state : ScanState) (path : String) :
    Procedure (Option (List PendingBlock) × ScanState) := do
  match ← look s path with
  | .failed e =>
    tellFailure mode path (some e)
    return (none, state)
  | .skipped => return (none, { state with skipped := state.skipped + 1 })
  | .parsed f => takeIn s mode path state f

theorem gather_eq_send (s : Services) (mode : ScanMode) (state : ScanState) (items : List PendingBlock) :
    gather s mode state items =
      send s mode ((Shared.gather items).serve s.tuning.batchThreshold state) := by
  unfold gather Shared.serve
  dsimp only
  split
  · rfl
  · rfl

/-- What is left in the buffer is sent off like any other batch. -/
theorem flush_bind (s : Services) (mode : ScanMode) (state : ScanState) (next : ScanState → Procedure α) :
    (if state.buffer.isEmpty then next state
      else submit s mode { state with buffer := [] } state.buffer >>= next) =
      send s mode (Shared.take.serve s.tuning.batchThreshold state) >>= next := by
  unfold Shared.serve
  dsimp only
  split
  · rfl
  · rfl

/-- Behind a failure there is nothing to send off. -/
theorem tellFailure_bind (error : Option IndexError) (state : ScanState) (next : ScanState → Procedure α) :
    (tellFailure mode path error >>= fun _ => next state) =
      (tellFailure mode path error >>= fun _ => pure (none, state)) >>= fun out =>
        send s mode out >>= next :=
  (Program.bind_assoc (tellFailure mode path error) (fun _ => pure (none, state))
    fun out => send s mode out >>= next).symm

/-- Telling what went wrong may come in front of the batch: where there is one, nothing went wrong. -/
theorem takeBlocks_bind (indexes : mode.indexes = true) (state : ScanState) (f : ParsedFile)
    (next : ScanState → Procedure α) :
    (takeBlocks s mode state f.path f.hash f.cached f.blocks >>= fun r =>
      tellFailure mode path r.2 >>= fun _ => next r.1) =
      takeIn s mode path state f >>= fun out => send s mode out >>= next := by
  unfold takeBlocks takeIn
  refine (Program.bind_assoc _ _ _).trans (Eq.trans ?_ (Program.bind_assoc _ _ _).symm)
  refine congrArg (mode.tell _ >>= ·) (funext fun _ => ?_)
  rw [indexes]
  unfold takeEmpty
  generalize f.blocks.isEmpty = empty
  cases empty with
  | false =>
    refine (congrArg (· >>= _) (congrArg (· >>= _) (gather_eq_send s mode _ f.items))).trans ?_
    exact Program.bind_assoc _ _ _
  | true =>
    generalize f.cached = cached
    cases cached with
    | false => rfl
    | true =>
      refine congrArg (Program.call (I := indexing) _) (funext fun deleted => ?_)
      cases deleted with
      | ok => rfl
      | error e => exact tellFailure_bind (some (.service e)) _ next

/-- Of files one after the other, each is scanned up to where its blocks are sent off, and then its batch is. -/
theorem scanFiles_cons (indexes : mode.indexes = true) (state : ScanState) (path : String)
    (rest : List String) : scanFiles s mode state (path :: rest) =
      sift s mode state path >>= fun out => send s mode out >>= fun state => scanFiles s mode state rest := by
  have hcons : scanFiles s mode state (path :: rest) = scanFile s mode state path >>= fun r =>
      tellFailure mode path r.2 >>= fun _ => scanFiles s mode r.1 rest := by
    refine congrArg (scanFile s mode state path >>= ·) (funext fun r => ?_)
    obtain ⟨state, error⟩ := r
    cases error with
    | none => rfl
    | some e => rfl
  unfold sift
  rw [hcons, scanFile_eq, Program.bind_assoc, Program.bind_assoc]
  refine congrArg (look s path >>= ·) (funext fun finding => ?_)
  cases finding with
  | failed e => exact tellFailure_bind (some e) state fun state => scanFiles s mode state rest
  | skipped => rfl
  | parsed f => exact takeBlocks_bind indexes state f fun state => scanFiles s mode state rest

/-! ## The jobs of files and of the flush -/

/-- A job ends without a result and gives rise to the batch that is to be sent off, where `before` is what the
batches did so far. -/
structure Sends (before : BatchResult) (out : Option (List PendingBlock) × ScanState) (r : BatchResult)
    (spawned : List Job) (state' : ScanState) : Prop where
  result : r = {}
  spawned : spawned = out.1.toList.map .batch
  shared : state' = out.2.shared
  batches : out.2.batches = before

/-- What is shared is answered for without regard to what the batches did. -/
theorem serve_shared (threshold : Nat) (c : Shared) (state : ScanState) :
    c.serve threshold state.shared =
      ((c.serve threshold state).1, (c.serve threshold state).2.shared) := by
  cases c with
  | gather items =>
    unfold Shared.serve ScanState.shared
    dsimp only
    split
    · rfl
    · rfl
  | take =>
    unfold Shared.serve ScanState.shared
    dsimp only
    split
    · rfl
    · rfl
  | _ => rfl

theorem batches_serve (threshold : Nat) (c : Shared) (state : ScanState) :
    (c.serve threshold state).2.batches = state.batches := by
  cases c with
  | gather items =>
    unfold Shared.serve
    dsimp only
    split
    · rfl
    · rfl
  | take =>
    unfold Shared.serve
    dsimp only
    split
    · rfl
    · rfl
  | _ => rfl

/-- A batch that was taken out becomes a job. -/
theorem mirrors_submitAny {before : BatchResult} {state : ScanState} (batch : Option (List PendingBlock))
    (h : state.batches = before) :
    Mirrors s mode rules (pure (batch, state)) state.shared
      (submitAny batch >>= fun _ => pure ({} : BatchResult)) (Sends before) := by
  cases batch with
  | none => exact mirrors_pure ⟨rfl, rfl, rfl, h⟩
  | some batch => exact mirrors_share_bind (mirrors_pure ⟨rfl, rfl, rfl, h⟩)

theorem mirrors_flush {state : ScanState} :
    Mirrors s mode rules (pure (Shared.take.serve s.tuning.batchThreshold state)) state.shared
      (Job.program s mode .flush) (Sends state.batches) := by
  have h := batches_serve s.tuning.batchThreshold .take state
  refine mirrors_share_bind ?_
  rw [serve_shared]
  exact mirrors_submitAny (Shared.take.serve s.tuning.batchThreshold state).1 h

theorem mirrors_gather {state : ScanState} {items : List PendingBlock} :
    Mirrors s mode rules (pure ((Shared.gather items).serve s.tuning.batchThreshold state)) state.shared
      ((share (.gather items) >>= fun batch => submitAny batch >>= fun _ => pure none) >>= fun error =>
        perform (tellFailure mode path error) >>= fun _ => pure ({} : BatchResult))
      (Sends state.batches) := by
  have h := batches_serve s.tuning.batchThreshold (.gather items) state
  simp only [Program.bind_assoc]
  refine mirrors_share_bind ?_
  rw [serve_shared]
  exact mirrors_submitAny ((Shared.gather items).serve s.tuning.batchThreshold state).1 h

theorem mirrors_takeIn {state : ScanState} {f : ParsedFile} :
    Mirrors s mode rules (takeIn s mode path state f) state.shared
      (takeFile s mode f >>= fun error => perform (tellFailure mode path error) >>= fun _ => pure {})
      (Sends state.batches) := by
  unfold takeIn takeFile
  refine mirrors_share_bind (mirrors_perform_bind_bind fun _ _ _ => ?_)
  generalize f.blocks.isEmpty = empty
  cases empty with
  | true =>
    refine mirrors_perform_bind fun error _ _ => ?_
    refine mirrors_perform_bind fun _ _ _ => ?_
    exact mirrors_pure ⟨rfl, rfl, rfl, rfl⟩
  | false => exact mirrors_gather

/-- The job of a file does what is done for it before its batch. -/
theorem mirrors_file {state : ScanState} : Mirrors s mode rules (sift s mode state path) state.shared
    (Job.program s mode (.file path)) (Sends state.batches) := by
  change Mirrors s mode rules _ _ (workOn s mode path >>= fun _ => pure ({} : BatchResult)) _
  unfold sift workOn
  rw [Program.bind_assoc]
  refine mirrors_perform_bind fun finding _ _ => ?_
  rw [Program.bind_assoc]
  cases finding with
  | failed e =>
    refine mirrors_perform_bind fun _ _ _ => ?_
    exact mirrors_pure ⟨rfl, rfl, rfl, rfl⟩
  | skipped =>
    refine mirrors_share_bind ?_
    exact mirrors_pure ⟨rfl, rfl, rfl, rfl⟩
  | parsed f => exact mirrors_takeIn

/-! ## The jobs of batches -/

/-- What does not tell of segments is asked for as it is. -/
theorem translate_relay {p : Procedure α} (h : p.Never Batch.Tells) :
    p.translate (relay mode) = perform p := by
  induction p with
  | done a => rfl
  | call r next ih =>
    have hrest : (fun x => (next x).translate (relay mode)) = fun x => perform (next x) :=
      funext fun x => ih x ((h.2 x).resolve_left id)
    have hfirst : relay mode r = Program.ask (I := jobs) (.action r) := by
      cases r with
      | tellScan event => exact absurd trivial h.1
      | _ => rfl
    show (relay mode r).bind _ = (Program.ask (I := jobs) (.action r)).bind _
    exact congr (congrArg Program.bind hfirst) hrest

theorem mirrors_translate_bind {p : Procedure α} (silent : p.Never Batch.Tells) {f g : α → Procedure β}
    {state : ScanState} {post : β → β → List Job → ScanState → Prop}
    (h : ∀ a first, Follows p first (.done a) →
      Mirrors s mode rules (f a) state ((g a).translate (relay mode)) post) :
    Mirrors s mode rules (p >>= f) state ((p >>= g).translate (relay mode)) post := by
  have hsame : (p >>= g).translate (relay mode) =
      perform p >>= fun a => (g a).translate (relay mode) :=
    (Program.translate_bind (relay mode) p g).trans (congrArg (· >>= _) (translate_relay silent))
  rw [hsame]
  exact mirrors_perform_bind h

/-- More blocks went through a batch. -/
def passed (size : Nat) (state : ScanState) : ScanState :=
  { state with indexed := state.indexed + size }

variable {strategy : BatchStrategy PendingBlock} {limits : BatchLimits}

/-- The job finds counted what was indexed in front of the batch and what the batch did of it so far; the procedure
is handed both. -/
theorem mirrors_runSegments (state : ScanState) (segments : List (List PendingBlock)) (r : BatchResult) :
    Mirrors s mode rules
      (Batch.runSegments strategy limits
        (fun before size => mode.tell (.indexed (state.indexed + before + size) state.found)) r segments)
      (passed (r.processed + r.failed) state)
      ((Batch.runSegments strategy limits tellSegment r segments).translate (relay mode))
      fun r₁ r₂ spawned state' => r₂ = r₁ ∧ spawned = [] ∧
        state' = passed (r.processed + r.failed + segments.flatten.length) state := by
  induction segments generalizing r with
  | nil => exact mirrors_pure ⟨rfl, rfl, rfl⟩
  | cons segment segments ih =>
    have hspares : Batch.Spares strategy Batch.Tells [segment] :=
      ⟨fun _ _ => id, fun _ => id, fun _ _ _ => id, fun _ _ _ _ => id⟩
    refine mirrors_translate_bind (Batch.never_runSegment hspares List.mem_cons_self) fun r₁ first hfirst => ?_
    have hcount : r₁.processed + r₁.failed = segment.length := Batch.yields_runSegment r₁ first hfirst
    have htotal : (r.merge r₁).processed + (r.merge r₁).failed =
        r.processed + r.failed + segment.length := by
      simp only [BatchResult.merge]
      omega
    have hrest := ih (r.merge r₁)
    rw [htotal] at hrest
    have hserved : ((Shared.advance segment.length).serve s.tuning.batchThreshold
        (passed (r.processed + r.failed) state)).2 =
          passed (r.processed + r.failed + segment.length) state := by
      simp only [Shared.serve, passed, Nat.add_assoc]
    refine mirrors_share_bind (c := .advance segment.length)
      (g := fun x => perform (mode.tell (.indexed x.1 x.2)) >>= fun _ =>
        (Batch.runSegments strategy limits tellSegment (r.merge r₁) segments).translate (relay mode)) ?_
    refine mirrors_perform_bind fun _ _ _ => ?_
    rw [hserved]
    refine hrest.mono ?_
    rintro r' r'' spawned state' ⟨rfl, rfl, rfl⟩
    exact ⟨rfl, rfl, by rw [List.flatten_cons, List.length_append, Nat.add_assoc]⟩

theorem mirrors_process (state : ScanState) (items : List PendingBlock) :
    Mirrors s mode rules
      (Batch.process strategy limits
        (fun before size => mode.tell (.indexed (state.indexed + before + size) state.found)) items) state
      ((Batch.process strategy limits tellSegment items).translate (relay mode))
      fun r₁ r₂ spawned state' => r₂ = r₁ ∧ spawned = [] ∧ state' = passed items.length state := by
  cases items with
  | nil => exact mirrors_pure ⟨rfl, rfl, rfl⟩
  | cons item items =>
    refine mirrors_translate_bind (Batch.never_deleteStale id) fun errors _ _ => ?_
    refine (mirrors_runSegments state (segmentsOf limits.segmentSize (item :: items)) { errors }).mono ?_
    rintro r₁ r₂ spawned state' ⟨rfl, rfl, rfl⟩
    exact ⟨rfl, rfl, by rw [flatten_segmentsOf, Nat.zero_add, Nat.zero_add]⟩

/-- The job of a batch does what is done to send it off. -/
theorem mirrors_submit (state : ScanState) (batch : List PendingBlock) :
    Mirrors s mode rules (submit s mode state batch) state.shared (Job.program s mode (.batch batch))
      fun state₁ r spawned state' => spawned = [] ∧ state' = state₁.shared ∧
        state₁.batches = state.batches.merge r := by
  refine (mirrors_process state.shared batch).map _ ?_
  rintro r₁ r₂ spawned state' ⟨rfl, rfl, rfl⟩
  exact ⟨rfl, rfl, rfl⟩

end Scan

end SourceIndex
