import SourceIndex.Proofs.Index.Crew
import SourceIndex.Proofs.Index.Segments
import SourceIndex.Proofs.Program.Approaches
/-!
# Which requests are made, and what they do

`Action.effects` is what one request with its answer does to store and cache, so that the exchanges of a
run tell its log (`Premises.emits_effects`), and the cache as well (`Scan.get?_ledger`).

Of a batch, `Batch.never_process` says which requests it does not make, `Batch.yields_process` that it
tells of and counts each of its items once, and `Batch.yields_process_delete` that the old points of
replaced files are deleted first. The lemmas of `Change` say which requests the parts of a batch of changes
do not make.
-/

namespace SourceIndex

open Program (Exchange Follows Guarded)

/-! ## What requests do -/

/-- What a request does to store and cache, as its answer tells. A call that failed is put down with all
points that it was to store. -/
def Action.effects : (a : Action) → a.Answer → List Effect
  | .prepareStore, x =>
    match x with
    | .ok true => [.cleared]
    | _ => []
  | .upsert points, x =>
    match x with
    | .ok _ => [.stored points]
    | .error _ => [.strayed points]
  | .deletePoints files, x =>
    match x with
    | .ok _ => [.deleted files]
    | .error _ => [.refused files]
  | .clearStore, x =>
    match x with
    | .ok _ => [.cleared]
    | .error _ => []
  | .dropStore, x =>
    match x with
    | .ok _ => [.cleared]
    | .error _ => []
  | .recordHash path hash, _ => [.recorded path hash]
  | .forgetHashes paths, _ => [.forgot paths]
  | .clearCache, _ => [.emptied]
  | _, _ => []

/-- Whether a request upserts points. -/
def Action.upserts : Action → Bool
  | .upsert _ => true
  | _ => false

/-- With some answer a request has an effect of a kind. -/
def Action.May (kind : Effect → Prop) (a : Action) : Prop :=
  ∃ x, ∃ effect ∈ a.effects x, kind effect

/-- Telling does nothing to store and cache. -/
def ScanMode.OnlyTells (mode : ScanMode) : Prop :=
  ∀ event, (mode.tell event).Never (Action.May fun _ => True)

section
variable {a : Action} {kind : Effect → Prop} {hashes hashes' : Hashes} {path : String}

/-- A procedure that is about to upsert. -/
theorem exists_eq_call_upsert {α : Type} {p : Procedure α}
    (h : p.upcoming.map Action.upserts = some true) : ∃ points next, p = .call (.upsert points) next := by
  obtain ⟨a, ha, hupserts⟩ := Option.map_eq_some_iff.1 h
  obtain ⟨next, hnext⟩ := Program.exists_of_upcoming ha
  cases a with
  | upsert points => exact ⟨points, next, hnext⟩
  | _ => cases hupserts

theorem Action.not_may (h : ∀ x, a.effects x = []) : ¬a.May kind := by
  rintro ⟨x, effect, hmem, -⟩
  rw [h x] at hmem
  cases hmem

/-- If any request may fail, this is what requests may do with their answers. -/
theorem Premises.emits_effects {e : Premises} (fails : ∀ a, e.fails a) (a : Action) (x : a.Answer) :
    e.emits a x (a.effects x) := by
  cases a with
  | embed texts => exact ⟨rfl, Or.inr (fails _)⟩
  | prepareStore =>
    cases x with
    | error failure => exact Or.inr (Or.inr ⟨fails _, ⟨failure, rfl⟩, rfl⟩)
    | ok new =>
      cases new with
      | true => exact Or.inl ⟨rfl, rfl⟩
      | false => exact Or.inr (Or.inl ⟨rfl, rfl⟩)
  | upsert points =>
    cases x with
    | error failure => exact Or.inr ⟨fails _, ⟨failure, rfl⟩, points, List.Subset.refl _, rfl⟩
    | ok => exact Or.inl ⟨rfl, rfl⟩
  | deletePoints files =>
    cases x with
    | error failure => exact Or.inr ⟨fails _, ⟨failure, rfl⟩, rfl⟩
    | ok => exact Or.inl ⟨rfl, rfl⟩
  | clearStore =>
    cases x with
    | error failure => exact Or.inr ⟨fails _, ⟨failure, rfl⟩, rfl⟩
    | ok => exact Or.inl ⟨rfl, rfl⟩
  | dropStore =>
    cases x with
    | error failure => exact Or.inr ⟨fails _, ⟨failure, rfl⟩, rfl⟩
    | ok => exact Or.inl ⟨rfl, rfl⟩
  | _ => rfl

/-- The cache changes by what requests do. -/
theorem Scan.get?_ledger {x : a.Answer} (h : ledger a hashes x hashes') :
    hashes'.get? path = (a.effects x).foldl (Effect.onHash path) (hashes.get? path) := by
  cases a with
  | listFiles rules limit => exact congrArg (Hashes.get? · path) h.1
  | hashes => exact congrArg (Hashes.get? · path) h.1
  | recordHash other hash =>
    rw [show hashes' = hashes.put other hash from h, Hashes.get?_put]
    rfl
  | forgetHashes paths =>
    rw [show hashes' = paths.foldl Hashes.erase hashes from h, Hashes.get?_foldl_erase]
    rfl
  | clearCache =>
    rw [show hashes' = [] from h]
    rfl
  | prepareStore =>
    rw [show hashes' = hashes from h]
    cases x with
    | error failure => rfl
    | ok new => cases new <;> rfl
  | upsert points =>
    rw [show hashes' = hashes from h]
    cases x <;> rfl
  | deletePoints files =>
    rw [show hashes' = hashes from h]
    cases x <;> rfl
  | clearStore =>
    rw [show hashes' = hashes from h]
    cases x <;> rfl
  | dropStore =>
    rw [show hashes' = hashes from h]
    cases x <;> rfl
  | _ => exact congrArg (Hashes.get? · path) h

end

/-! ## Batches -/

section Batches
variable {α ε β : Type} {strategy : BatchStrategy α} {limits : BatchLimits} {segment items : List α}
  {segments : List (List α)} {kind : Action → Prop} {progress : Nat → Nat → Procedure Unit}

/-- Trying again makes the same requests again. -/
theorem RetryPolicy.never_run {policy : RetryPolicy} {operation : Procedure (Except ε β)}
    (pauses : ∀ d, ¬kind (.pause d)) (h : operation.Never kind) :
    (policy.run pause operation).Never kind := by
  have go : ∀ more attempt, (policy.runFrom pause operation attempt more).Never kind := by
    intro more
    induction more with
    | zero => exact fun _ => h
    | succ more ih =>
      intro attempt
      refine Guarded.bind h fun x => ?_
      cases x with
      | ok b => trivial
      | error failure =>
        exact Program.guarded_ask_bind (pauses _) fun _ => Or.inr (ih _)
  exact go _ _

/-- What the requests for some segments are not. -/
structure Batch.Spares (strategy : BatchStrategy α) (kind : Action → Prop) (segments : List (List α)) :
    Prop where
  embed : ∀ segment ∈ segments, ¬kind (.embed (segment.map strategy.text))
  pause : ∀ d, ¬kind (.pause d)
  upsert : ∀ segment ∈ segments, ∀ vectors, ¬kind (.upsert (segment.zipWith strategy.point vectors))
  record : ∀ segment ∈ segments, ∀ item ∈ segment,
    ¬kind (.recordHash (strategy.filePath item) (strategy.fileHash item))

namespace Batch

theorem never_embedAndUpsert (embed : ¬kind (.embed (segment.map strategy.text)))
    (upsert : ∀ vectors, ¬kind (.upsert (segment.zipWith strategy.point vectors))) :
    (embedAndUpsert strategy segment).Never kind := by
  unfold embedAndUpsert
  refine Program.guarded_ask_bind embed fun x => Or.inr ?_
  cases x with
  | error e => trivial
  | ok embeddings =>
    refine Program.guarded_ite (fun _ => trivial) fun _ => ?_
    refine Program.guarded_ask_bind (upsert _) fun y => Or.inr ?_
    cases y with
    | ok => trivial
    | error e => trivial

theorem never_recordHashes
    (record : ∀ item ∈ items, ¬kind (.recordHash (strategy.filePath item) (strategy.fileHash item))) :
    (recordHashes strategy items).Never kind := by
  induction items with
  | nil => trivial
  | cons item items ih =>
    refine Program.guarded_ask_bind (record item List.mem_cons_self) fun _ => Or.inr ?_
    exact ih fun other hmem => record other (List.mem_cons_of_mem _ hmem)

theorem never_runSegment (spares : Spares strategy kind segments) (hin : segment ∈ segments) :
    (runSegment strategy limits segment).Never kind := by
  unfold runSegment
  refine Guarded.bind (RetryPolicy.never_run spares.pause
    (never_embedAndUpsert (spares.embed segment hin) (spares.upsert segment hin))) fun x => ?_
  cases x with
  | ok =>
    exact Guarded.bind (never_recordHashes (spares.record segment hin)) fun _ => trivial
  | error e => trivial

theorem never_runSegments (spares : Spares strategy kind segments)
    (quiet : ∀ before size, (progress before size).Never kind) (r : BatchResult) :
    (runSegments strategy limits progress r segments).Never kind := by
  induction segments generalizing r with
  | nil => trivial
  | cons segment segments ih =>
    refine Guarded.bind (never_runSegment spares List.mem_cons_self) fun r₁ => ?_
    refine Guarded.bind (quiet _ _) fun _ => ih ⟨?_, spares.pause, ?_, ?_⟩ _
    · exact fun other hmem => spares.embed other (List.mem_cons_of_mem _ hmem)
    · exact fun other hmem => spares.upsert other (List.mem_cons_of_mem _ hmem)
    · exact fun other hmem => spares.record other (List.mem_cons_of_mem _ hmem)

theorem never_deleteStale {paths : List String} (delete : ¬kind (.deletePoints paths)) :
    (deleteStale paths).Never kind := by
  unfold deleteStale
  refine Program.guarded_ite (fun _ => trivial) fun _ => ?_
  refine Program.guarded_ask_bind delete fun x => Or.inr ?_
  cases x with
  | ok => trivial
  | error e => trivial

theorem never_process (spares : Spares strategy kind (segmentsOf limits.segmentSize items))
    (delete : ¬kind (.deletePoints (strategy.staleFiles items)))
    (quiet : ∀ before size, (progress before size).Never kind) :
    (process strategy limits progress items).Never kind := by
  unfold process
  refine Program.guarded_ite (fun _ => trivial) fun _ => ?_
  exact Guarded.bind (never_deleteStale delete) fun _ => never_runSegments spares quiet _

/-! ### Counts -/

/-- A segment counts each of its items once, as processed or as failed. -/
theorem yields_runSegment : (runSegment strategy limits segment).Yields fun r _ =>
    r.processed + r.failed = segment.length := by
  unfold runSegment
  refine Program.Yields.bind (fun _ _ _ => trivial) fun x _ _ => ?_
  cases x with
  | ok =>
    refine Program.Yields.bind (fun _ _ _ => trivial) fun _ _ _ => Program.yields_pure ?_
    exact Nat.add_zero _
  | error e => exact Program.yields_pure (Nat.zero_add _)

/-- The size of a segment, where it is told. -/
def told : Exchange indexing → Option Nat
  | ⟨.tellScan (.indexed _ size), _⟩ => some size
  | _ => none

/-- A request that does not tell anything about a scan. -/
def Tells : Action → Prop
  | .tellScan _ => True
  | _ => False

theorem told_eq_none {e : Exchange indexing} (h : ¬Tells e.request) : told e = none := by
  obtain ⟨a, x⟩ := e
  cases a with
  | tellScan event => exact absurd trivial h
  | _ => rfl

/-- Segments tell of as many items as they have, and count as many. -/
theorem yields_runSegments (r : BatchResult) :
    (runSegments strategy limits Scan.tellSegment r segments).Yields fun r' trace =>
      (trace.filterMap told).sum = segments.flatten.length ∧
        r'.processed + r'.failed = r.processed + r.failed + segments.flatten.length := by
  induction segments generalizing r with
  | nil => exact Program.yields_pure ⟨rfl, rfl⟩
  | cons segment segments ih =>
    have hspares : Spares strategy Tells [segment] :=
      ⟨fun _ _ => id, fun _ => id, fun _ _ _ => id, fun _ _ _ _ => id⟩
    have hsilent : (runSegment strategy limits segment).Never Tells :=
      never_runSegment hspares List.mem_cons_self
    refine Program.Yields.bind (yields_runSegment.and hsilent.yields) fun r₁ first ⟨hcount, hfirst⟩ => ?_
    refine Program.yields_ask_bind fun _ => (ih (r.merge r₁)).mono fun r' rest ⟨hsum, htotal⟩ => ?_
    have hnone : first.filterMap told = [] :=
      List.filterMap_eq_nil_iff.2 fun e hmem => told_eq_none (hfirst e hmem)
    constructor
    · rw [List.filterMap_append, hnone, List.nil_append]
      change segment.length + (rest.filterMap told).sum = _
      rw [hsum, List.flatten_cons, List.length_append]
    · rw [htotal, List.flatten_cons, List.length_append]
      simp only [BatchResult.merge]
      omega

/-- A batch tells of as many items as it has, and counts as many. -/
theorem yields_process : (process strategy limits Scan.tellSegment items).Yields fun r trace =>
    (trace.filterMap told).sum = items.length ∧ r.processed + r.failed = items.length := by
  unfold process
  split
  · rename_i hempty
    rw [List.isEmpty_iff.1 hempty]
    exact Program.yields_pure ⟨rfl, rfl⟩
  have hsilent : (deleteStale (strategy.staleFiles items)).Never Tells := never_deleteStale id
  refine Program.Yields.bind hsilent.yields fun errors first hfirst => ?_
  refine (yields_runSegments _).mono fun r rest ⟨hsum, htotal⟩ => ?_
  have hnone : first.filterMap told = [] :=
    List.filterMap_eq_nil_iff.2 fun e hmem => told_eq_none (hfirst e hmem)
  rw [List.filterMap_append, hnone, List.nil_append, hsum, htotal, flatten_segmentsOf]
  exact ⟨rfl, by simp only; omega⟩

/-- A batch with old points to delete first asks for that, and never again. -/
theorem yields_process_delete (hstale : strategy.staleFiles items ≠ []) (hitems : items ≠ [])
    (spares : Spares strategy kind (segmentsOf limits.segmentSize items))
    (quiet : ∀ before size, (progress before size).Never kind) :
    (process strategy limits progress items).Yields fun _ trace => ∃ x rest,
      trace = ⟨.deletePoints (strategy.staleFiles items), x⟩ :: rest ∧
        ∀ e ∈ rest, ¬kind e.request := by
  unfold process deleteStale
  rw [if_neg (by simpa using hitems), if_neg (by simpa using hstale)]
  intro r trace h
  obtain ⟨errors, first, second, rfl, hfirst, hsecond⟩ := Program.follows_bind_iff.1 h
  obtain ⟨x, rest, rfl, hrest⟩ := Program.follows_call_iff.1 hfirst
  have hnil : rest = [] := by
    cases x with
    | ok => exact (Program.follows_done_iff.1 hrest).1
    | error e => exact (Program.follows_done_iff.1 hrest).1
  subst hnil
  exact ⟨x, second, rfl, hsecond.never (never_runSegments spares quiet _)⟩

end Batch

end Batches

/-! ## Batches of changes -/

namespace Change

variable {s : Services} {kind : Action → Prop}

/-- What the requests for reading and embedding files are not. -/
structure Spares (kind : Action → Prop) : Prop where
  size : ∀ path, ¬kind (.fileSize path)
  read : ∀ path, ¬kind (.readFile path)
  hashes : ¬kind .hashes
  embed : ∀ texts, ¬kind (.embed texts)

theorem never_embedSegments {segments : List (List Block)}
    (embed : ∀ segment ∈ segments, ¬kind (.embed (segment.map fun b => Text.trim b.content)))
    (points : List Point) : (embedSegments s segments points).Never kind := by
  induction segments generalizing points with
  | nil => trivial
  | cons segment segments ih =>
    obtain ⟨hsegment, hrest⟩ := List.forall_mem_cons.1 embed
    refine Program.guarded_ask_bind hsegment fun x => Or.inr ?_
    cases x with
    | error e => trivial
    | ok embeddings => exact Program.guarded_ite (fun _ => trivial) fun _ => ih hrest _

theorem never_processFile (spares : Spares kind) (path : String) : (processFile s path).Never kind := by
  refine Program.guarded_ite (fun _ => trivial) fun _ => ?_
  refine Program.guarded_ask_bind (spares.size _) fun size => Or.inr ?_
  cases size with
  | error e => trivial
  | ok size =>
    refine Program.guarded_ite (fun _ => trivial) fun _ => ?_
    refine Program.guarded_ask_bind (spares.read _) fun content => Or.inr ?_
    cases content with
    | error e => trivial
    | ok content =>
      refine Program.guarded_ask_bind spares.hashes fun hashes => Or.inr ?_
      refine Program.guarded_ite (fun _ => trivial) fun _ => ?_
      refine Guarded.bind (never_embedSegments (fun _ _ => spares.embed _) _) fun x => ?_
      cases x with
      | error message => trivial
      | ok points => trivial

theorem never_processAll (spares : Spares kind) (paths : List String) :
    (processAll s paths).Never kind := by
  induction paths with
  | nil => trivial
  | cons path paths ih =>
    exact Guarded.bind (never_processFile spares path) fun _ => Guarded.bind ih fun _ => trivial

theorem never_count (tell : ∀ event, ¬kind (.tellBatch event)) (total : Nat) (t : Tally)
    (outcomes : List FileOutcome) : (count total t outcomes).Never kind := by
  induction outcomes generalizing t with
  | nil => trivial
  | cons outcome outcomes ih => exact Program.guarded_ask_bind (tell _) fun _ => Or.inr (ih _)

theorem never_processGroups (spares : Spares kind) (tell : ∀ event, ¬kind (.tellBatch event))
    (total : Nat) (t : Tally) (groups : List (List String)) :
    (processGroups s total t groups).Never kind := by
  induction groups generalizing t with
  | nil => trivial
  | cons group groups ih =>
    refine Guarded.bind (never_processAll spares group) fun _ => ?_
    exact Guarded.bind (never_count tell _ _ _) fun _ => ih _

theorem never_deleteStale (delete : ∀ names, ¬kind (.deletePoints names)) (paths : List String) :
    (deleteStale s paths).Never kind := by
  refine Program.guarded_ite (fun _ => trivial) fun _ => ?_
  refine Program.guarded_ask_bind (delete _) fun x => Or.inr ?_
  cases x with
  | error e => trivial
  | ok => trivial

theorem never_settleDeleted (tell : ∀ event, ¬kind (.tellBatch event))
    (forget : ∀ paths, ¬kind (.forgetHashes paths)) (total : Nat) (failed : Bool) (t : Tally)
    (paths : List String) : (settleDeleted total failed t paths).Never kind := by
  induction paths generalizing t with
  | nil => trivial
  | cons path paths ih =>
    refine Program.guarded_ask_bind (tell _) fun _ => Or.inr ?_
    refine Program.guarded_ite (fun _ => ?_) fun _ => ih _
    exact Program.guarded_ask_bind (forget _) fun _ => Or.inr (ih _)

theorem never_upsertSegments {retry : RetryPolicy} (pauses : ∀ d, ¬kind (.pause d))
    (upsert : ∀ points, ¬kind (.upsert points)) (failures : UpsertFailures)
    (segments : List (List (Nat × Point))) : (upsertSegments retry failures segments).Never kind := by
  induction segments generalizing failures with
  | nil => trivial
  | cons segment segments ih =>
    refine Guarded.bind (RetryPolicy.never_run pauses (Program.guarded_ask (upsert _))) fun x => ?_
    cases x with
    | error e => exact ih _
    | ok => exact ih _

theorem never_settleReady (record : ∀ path hash, ¬kind (.recordHash path hash))
    (forget : ∀ paths, ¬kind (.forgetHashes paths)) (failures : List (Nat × String)) (i : Nat)
    (ready : List ReadyFile) : (settleReady failures i ready).Never kind := by
  induction ready generalizing i with
  | nil => trivial
  | cons file ready ih =>
    have hrest : ∀ result : ChangeResult,
        (settleReady failures (i + 1) ready >>= fun rest => pure (result :: rest)).Never kind :=
      fun _ => Guarded.bind (ih _) fun _ => trivial
    unfold settleReady
    split
    · exact Program.guarded_ask_bind (forget _) fun _ => Or.inr (hrest _)
    · exact Program.guarded_ask_bind (record _ _) fun _ => Or.inr (hrest _)

/-- The last that a batch tells, whatever came of it. -/
def finishing (total : Nat) (results : List ChangeResult) (error : Option String) :
    Procedure (List ChangeResult) := do
  tellProgress total total none
  ask (.tellBatch (.finish results error))
  return results

theorem never_finishing (tell : ∀ event, ¬kind (.tellBatch event)) (total : Nat)
    (results : List ChangeResult) (error : Option String) : (finishing total results error).Never kind :=
  Program.guarded_ask_bind (tell _) fun _ => Or.inr (Program.guarded_ask_bind (tell _) fun _ => Or.inr trivial)

theorem never_upsertReady (pauses : ∀ d, ¬kind (.pause d)) (upsert : ∀ points, ¬kind (.upsert points))
    (record : ∀ path hash, ¬kind (.recordHash path hash))
    (forget : ∀ paths, ¬kind (.forgetHashes paths)) (ready : List ReadyFile) :
    (upsertReady s ready).Never kind :=
  Guarded.bind (never_upsertSegments pauses upsert _ _) fun _ =>
    Guarded.bind (never_settleReady record forget _ _ _) fun _ => trivial

end Change

end SourceIndex
