import SourceIndex.Proofs.Index.Jobs
import SourceIndex.Scenario.World
/-!
# Where an index stands

`Standing` is what the state machine of an index goes by: whether a scan is running, the published
status, whether a watcher is at work, and the cache. `Standing.rules` say what requests do to it and
leave open how services, files and the making of a watcher answer; a world follows them
(`Scenario.World.rules_answer`).

Of the requests that may be made, few `Steer` it. `never_steers_scan` and `never_steers_reconcile`: none of
those that a scan makes do. A batch of changes does not even show progress as a scan does
(`never_governs_processChanges`).
-/

namespace SourceIndex

open Program (Rules Guarded)

/-- What the state machine of an index goes by. -/
structure Standing where
  /-- Whether a scan is running. -/
  scanning : Bool := false
  status : Status := {}
  /-- Whether a watcher is at work. -/
  watching : Bool := false
  hashes : Hashes := []
deriving DecidableEq

namespace Standing

/-- The published state. -/
abbrev state (d : Standing) : IndexState :=
  d.status.state

/-- What requests do to the state machine, and what they answer of it. All else is answered in any way. -/
def rules : Rules indexing Standing
  | .hashes, d, x, d' => x = d.hashes ∧ d' = d
  | .recordHash path hash, d, _, d' => d' = { d with hashes := d.hashes.put path hash }
  | .forgetHashes paths, d, _, d' => d' = { d with hashes := paths.foldl Hashes.erase d.hashes }
  | .clearCache, d, _, d' => d' = { d with hashes := [] }
  | .tellBatch event, d, _, d' =>
    d' = if d.watching then { d with status := d.status.showBatchEvent d.scanning event } else d
  | .state, d, x, d' => x = d.state ∧ d' = d
  | .setState state message, d, _, d' => d' = { d with status := d.status.setState state message }
  | .reportBlocks indexed found, d, _, d' =>
    d' = { d with status := d.status.reportBlocks indexed found }
  | .beginScan, d, x, d' => x = d.scanning ∧ d' = { d with scanning := true }
  | .endScan, d, _, d' => d' = { d with scanning := false }
  | .startWatcher, d, x, d' =>
    x = .ok () ∧ d' = { d with watching := true } ∨
      d.watching = false ∧ (∃ failure, x = .error failure) ∧ d' = d
  | .stopWatcher, d, _, d' => d' = { d with watching := false }
  | .install .., d, _, d' => ∃ hashes, d' = { d with scanning := false, watching := false, hashes }
  | _, d, _, d' => d' = d

end Standing

/-- Taking out what is not there changes nothing. -/
theorem Hashes.foldl_erase_eq_self {hashes : Hashes} {paths : List String}
    (h : paths.any hashes.contains = false) : paths.foldl erase hashes = hashes := by
  induction paths with
  | nil => rfl
  | cons path paths ih =>
    rw [List.any_cons, Bool.or_eq_false_iff] at h
    have hsame : hashes.erase path = hashes := by
      refine List.filter_eq_self.2 fun e he => ?_
      have hne := List.any_eq_false.1 h.1 e he
      simpa using hne
    rw [List.foldl_cons, hsame, ih h.2]

theorem HashCache.hashes_forget {c : HashCache} {now : Nat} {paths : List String} :
    (c.forget now paths).hashes = paths.foldl Hashes.erase c.hashes := by
  unfold forget
  split
  · rfl
  · rename_i hnone
    exact (Hashes.foldl_erase_eq_self (Bool.eq_false_iff.2 hnone)).symm

namespace Scenario.World

/-- What the state machine goes by in a world. -/
def standing (w : World) : Standing where
  scanning := w.scanning
  status := w.status
  watching := w.watch.isSome
  hashes := w.cache.hashes

section
variable {w : World}

/-- Time that passes changes nothing but what the cache file holds. -/
@[simp] theorem standing_elapse (duration : Nat) : (w.elapse duration).standing = w.standing := by
  have htick : ∀ (c : HashCache) now disk, (c.tick now disk).1.hashes = c.hashes := by
    intro c now disk
    unfold HashCache.tick
    split
    · split
      · rfl
      · rfl
    · rfl
  unfold elapse standing
  rw [htick]

@[simp] theorem standing_callStore {β : Type} (call : StoreCall) (entry : Entry) (refused : Bool)
    (value : β) (effect : MemoryStore → MemoryStore) :
    (w.callStore call entry refused value effect).2.standing = w.standing := by
  unfold callStore
  generalize (if refused then (false, w.script) else w.script.nextStore call) = outcome
  obtain ⟨ok, script⟩ := outcome
  cases ok with
  | true => rfl
  | false => rfl

/-- However a service is reached, its answer changes nothing. -/
theorem standing_serve {β : Type} (remote : Providers → β) {scripted : β × World}
    (h : scripted.2.standing = w.standing) :
    (match w.remote with | some r => (remote r, w) | none => scripted).2.standing = w.standing := by
  split
  · rfl
  · exact h

theorem rules_startWatcher :
    Standing.rules .startWatcher w.standing w.startWatcher.1 w.startWatcher.2.standing := by
  unfold startWatcher
  split
  · rename_i hwatching
    refine Or.inl ⟨rfl, ?_⟩
    change w.standing = { w.standing with watching := true }
    rw [← hwatching]
    rfl
  · rename_i hnot
    split
    · exact Or.inl ⟨rfl, rfl⟩
    · exact Or.inr ⟨Bool.eq_false_iff.2 hnot, ⟨_, rfl⟩, rfl⟩

theorem rules_tellBatch (event : BatchEvent) : Standing.rules (.tellBatch event) w.standing
    (respond (.tellBatch event) w).1 (respond (.tellBatch event) w).2.standing := by
  change _ = if w.watch.isSome then _ else _
  unfold respond
  dsimp only
  split
  · rfl
  · rfl

/-- A world answers by the rules of the state machine. -/
theorem rules_respond (a : Action) (w : World) :
    Standing.rules a w.standing (respond a w).1 (respond a w).2.standing := by
  cases a with
  | forgetHashes paths =>
    change Standing.mk _ _ _ (w.cache.forget w.now paths).hashes = _
    rw [HashCache.hashes_forget]
    rfl
  | startWatcher => exact rules_startWatcher
  | tellBatch event => exact rules_tellBatch event
  | hashes => exact ⟨rfl, rfl⟩
  | state => exact ⟨rfl, rfl⟩
  | beginScan => exact ⟨rfl, rfl⟩
  | install services cacheDir providers => exact ⟨_, rfl⟩
  | embed texts => exact standing_serve _ rfl
  | prepareStore => exact standing_serve _ (standing_callStore ..)
  | upsert points => exact standing_serve _ (standing_callStore ..)
  | deletePoints paths => exact standing_serve _ (standing_callStore ..)
  | clearStore => exact standing_serve _ (standing_callStore ..)
  | dropStore => exact standing_serve _ (standing_callStore ..)
  | storedPaths => exact standing_serve _ rfl
  | nearest vector directory minScore limit => exact standing_serve _ (standing_callStore ..)
  | _ => rfl

theorem rules_answer (a : Action) (w : World) :
    Standing.rules a w.standing (answer a w).1 (answer a w).2.standing := by
  change Standing.rules a w.standing (respond a w).1 ((respond a w).2.elapse (w.span a)).standing
  rw [standing_elapse]
  exact rules_respond a w

/-- The same world with its index standing elsewhere. -/
def place (w : World) (d : Standing) : World :=
  { w with
    scanning := d.scanning
    status := d.status
    watch := if d.watching then some { services := w.services } else none
    cache := { w.cache with hashes := d.hashes } }

@[simp] theorem standing_place (d : Standing) : (w.place d).standing = d := by
  obtain ⟨scanning, status, watching, hashes⟩ := d
  cases watching with
  | true => rfl
  | false => rfl

end

end Scenario.World

/-! ## What does not steer -/

/-- The requests that steer the state machine. Batches of changes only tell it of themselves, and scans
report their progress. -/
def Action.Steers : Action → Prop
  | .setState .. => True
  | .beginScan => True
  | .endScan => True
  | .startWatcher => True
  | .stopWatcher => True
  | .install .. => True
  | _ => False

/-- Beside the requests that steer, those by which a scan shows its progress. -/
def Action.Governs : Action → Prop
  | .reportBlocks .. => True
  | a => a.Steers

theorem Action.Steers.governs {a : Action} (h : a.Steers) : a.Governs := by
  cases a with
  | reportBlocks => trivial
  | _ => exact h

/-- A request that does not steer leaves flag and watcher alone, and shows in the published status only as
the progress of a scan or as what a watcher tells of a batch. -/
theorem Standing.frame_of_not_steers {d d' : Standing} {a : Action} {x : a.Answer} (h : ¬a.Steers)
    (hrules : rules a d x d') :
    d'.scanning = d.scanning ∧ d'.watching = d.watching ∧
      (d'.status = d.status ∨ (∃ indexed found, d'.status = d.status.reportBlocks indexed found) ∨
        d.watching = true ∧ ∃ event, d'.status = d.status.showBatchEvent d.scanning event) := by
  cases a with
  | setState | beginScan | endScan | startWatcher | stopWatcher | install => exact absurd trivial h
  | recordHash | forgetHashes | clearCache =>
    cases hrules
    exact ⟨rfl, rfl, Or.inl rfl⟩
  | hashes | state =>
    cases hrules.2
    exact ⟨rfl, rfl, Or.inl rfl⟩
  | reportBlocks indexed found =>
    cases hrules
    exact ⟨rfl, rfl, Or.inr (Or.inl ⟨indexed, found, rfl⟩)⟩
  | tellBatch event =>
    change d' = if d.watching = true then _ else _ at hrules
    split at hrules
    · rename_i hwatching
      cases hrules
      exact ⟨rfl, rfl, Or.inr (Or.inr ⟨hwatching, event, rfl⟩)⟩
    · cases hrules
      exact ⟨rfl, rfl, Or.inl rfl⟩
  | _ =>
    cases hrules
    exact ⟨rfl, rfl, Or.inl rfl⟩

section
variable {s : Services} {mode : ScanMode} {state : ScanState}

/-- What a scan tells does not steer. -/
def ScanMode.Observes (mode : ScanMode) : Prop :=
  ∀ event, (mode.tell event).Never Action.Steers

theorem ScanMode.observes_showScan : ScanMode.Observes { tell := Lifecycle.showScan } := by
  intro event
  cases event with
  | error message => trivial
  | _ => exact Program.guarded_ask id

namespace Scan

theorem never_steers_submit (observes : mode.Observes) (batch : List PendingBlock) :
    (submit s mode state batch).Never Action.Steers := by
  refine Guarded.bind (Batch.never_process ?_ id fun _ _ => observes _) fun _ => trivial
  exact ⟨fun _ _ => id, fun _ => id, fun _ _ _ => id, fun _ _ _ _ => id⟩

theorem never_steers_gather (observes : mode.Observes) (blocks : List PendingBlock) :
    (gather s mode state blocks).Never Action.Steers :=
  Program.guarded_ite (fun _ => never_steers_submit observes _) fun _ => trivial

theorem never_steers_takeBlocks (observes : mode.Observes) {path hash : String} {cached : Bool}
    {blocks : List Block} :
    (takeBlocks s mode state path hash cached blocks).Never Action.Steers := by
  refine Guarded.bind (observes _) fun _ => ?_
  refine Program.guarded_ite (fun _ => Program.guarded_ask_bind id fun _ => Or.inr trivial) fun _ => ?_
  refine Program.guarded_ite (fun _ => ?_) fun _ =>
    Guarded.bind (never_steers_gather observes _) fun _ => trivial
  refine Program.guarded_ite (fun _ => ?_) fun _ => Program.guarded_ask_bind id fun _ => Or.inr trivial
  refine Program.guarded_ask_bind id fun deleted => Or.inr ?_
  cases deleted with
  | error e => trivial
  | ok => exact Program.guarded_ask_bind id fun _ => Or.inr trivial

theorem never_steers_scanFile (observes : mode.Observes) (path : String) :
    (scanFile s mode state path).Never Action.Steers := by
  refine Program.guarded_ask_bind id fun size => Or.inr ?_
  cases size with
  | error e => trivial
  | ok size =>
    refine Program.guarded_ite (fun _ => trivial) fun _ => ?_
    refine Program.guarded_ask_bind id fun content => Or.inr ?_
    cases content with
    | error e => trivial
    | ok content =>
      refine Program.guarded_ask_bind id fun hashes => Or.inr ?_
      exact Program.guarded_ite (fun _ => trivial) fun _ => never_steers_takeBlocks observes

theorem never_steers_scanFiles (observes : mode.Observes) (paths : List String) :
    (scanFiles s mode state paths).Never Action.Steers := by
  induction paths generalizing state with
  | nil => trivial
  | cons path paths ih =>
    refine Guarded.bind (never_steers_scanFile observes path) fun ⟨state, error⟩ => ?_
    cases error with
    | none => exact Guarded.bind (p := pure ()) trivial fun _ => ih
    | some e => exact Guarded.bind (observes _) fun _ => ih

theorem never_steers_tellErrors (observes : mode.Observes) (messages : List String) :
    (tellErrors mode messages).Never Action.Steers := by
  induction messages with
  | nil => trivial
  | cons message messages ih => exact Guarded.bind (observes _) fun _ => ih

theorem never_steers_settle (observes : mode.Observes) (batches : BatchResult) :
    (settle mode batches).Never Action.Steers := by
  refine Guarded.bind (never_steers_tellErrors observes _) fun _ => ?_
  exact Program.guarded_ite (fun _ => Program.guarded_ask id) fun _ => trivial

theorem never_steers_removeVanished (observes : mode.Observes) (listed : List String) :
    (removeVanished s mode listed).Never Action.Steers := by
  refine Program.guarded_ask_bind id fun hashes => Or.inr ?_
  refine Program.guarded_ite (fun _ => trivial) fun _ => ?_
  refine Program.guarded_ite (fun _ => ?_) fun _ => Program.guarded_ask id
  refine Program.guarded_ask_bind id fun deleted => Or.inr ?_
  cases deleted with
  | error e => exact observes _
  | ok => exact Program.guarded_ask id

end Scan

open Scan in
/-- A scan does not steer. -/
theorem never_steers_scan (observes : mode.Observes) : (scan s mode).Never Action.Steers := by
  refine Program.guarded_ask_bind id fun listed => Or.inr ?_
  refine Guarded.bind (never_steers_scanFiles observes _) fun state => ?_
  have hclose : ∀ state : ScanState, (do
      settle mode state.batches
      removeVanished s mode (listed.filter s.rules.accepts)
      return resultOf state state.batches).Never Action.Steers := fun _ =>
    Guarded.bind (never_steers_settle observes _) fun _ =>
      Guarded.bind (never_steers_removeVanished observes _) fun _ => trivial
  refine Program.guarded_ite (fun _ => hclose _) fun _ => ?_
  exact Guarded.bind (never_steers_submit observes _) fun _ => hclose _

/-- Bringing the collection and the cache together does not steer. -/
theorem Lifecycle.never_steers_reconcile : (reconcile s).Never Action.Steers := by
  refine Program.guarded_ask_bind id fun prepared => Or.inr ?_
  rcases prepared with e | new
  · trivial
  cases new with
  | true => exact Program.guarded_ask id
  | false =>
    refine Guarded.bind ?_ fun _ => trivial
    refine Program.guarded_ask_bind id fun stored => Or.inr ?_
    refine Program.guarded_ite (fun _ => trivial) fun _ => ?_
    refine Program.guarded_ask_bind id fun hashes => Or.inr ?_
    refine Program.guarded_ite (fun _ => trivial) fun _ => ?_
    exact Program.guarded_ask_bind id fun _ => Or.inr trivial

namespace Change

theorem never_governs_processGroups (total : Nat) (t : Tally) (groups : List (List String)) :
    (processGroups s total t groups).Never Action.Governs :=
  never_processGroups ⟨fun _ => id, fun _ => id, id, fun _ => id⟩ (fun _ => id) _ _ _

theorem never_governs_deleteStale (paths : List String) : (deleteStale s paths).Never Action.Governs :=
  never_deleteStale (fun _ => id) _

theorem never_governs_settleDeleted (total : Nat) (failed : Bool) (t : Tally) (paths : List String) :
    (settleDeleted total failed t paths).Never Action.Governs :=
  never_settleDeleted (fun _ => id) (fun _ => id) _ _ _ _

theorem never_governs_upsertReady (ready : List ReadyFile) :
    (upsertReady s ready).Never Action.Governs :=
  never_upsertReady (fun _ => id) (fun _ => id) (fun _ _ => id) (fun _ => id) _

end Change

open Change in
/-- A batch of changes governs nothing. -/
theorem never_governs_processChanges (changes : Changes) :
    (processChanges s changes).Never Action.Governs := by
  refine Program.guarded_ask_bind id fun _ => Or.inr ?_
  refine Guarded.bind (never_governs_processGroups _ _ _) fun tally => ?_
  refine Guarded.bind (never_governs_deleteStale _) fun deleteError => ?_
  refine Guarded.bind (never_governs_settleDeleted _ _ _ _) fun tally => ?_
  have hfinish : ∀ results error, (finishing changes.length results error).Never Action.Governs :=
    never_finishing (fun _ => id) _
  cases deleteError with
  | some e => exact hfinish _ _
  | none => exact Guarded.bind (never_governs_upsertReady _) fun _ => hfinish _ _

end

end SourceIndex
