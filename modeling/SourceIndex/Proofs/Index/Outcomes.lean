import SourceIndex.Proofs.Index.Provenance
import SourceIndex.Proofs.Index.Storing
import SourceIndex.Proofs.Program.Abreast
/-!
# The course of a batch of changes

The files of a group are read and embedded beside each other, and only when all of them are done does the
batch count them and go on to the next group. `processChangesAbreast` is a batch whose groups interleave by
given turns; in order it is `processChanges`.

A `Course` takes the trace of a whole batch apart: each file comes to what its own exchanges lead
`Change.processFile` to, whatever was exchanged for the others in between, and what is stored and told goes by
these outcomes alone (`Change.Tally.foldl_add`). Behind them old points are
deleted, deleted files are counted, and the ready ones are filled in (`Change.exists_of_follows_storing`).
-/

namespace SourceIndex

open Program (Exchange Follows Guarded Reaches Yields)

/-! ## What is told -/

/-- What exchanges asked for of some kind, in order. -/
def asked {β : Type} (kind : Action → Option β) (trace : List (Exchange indexing)) : List β :=
  trace.filterMap fun e => kind e.request

@[simp] theorem asked_append {β : Type} {kind : Action → Option β} {trace more : List (Exchange indexing)} :
    asked kind (trace ++ more) = asked kind trace ++ asked kind more :=
  List.filterMap_append

/-- What a procedure never asks for is not in its trace. -/
theorem yields_asked_nil {α β : Type} {kind : Action → Option β} {p : Procedure α}
    (hp : p.Never fun (a : Action) => (kind a).isSome = true) :
    p.Yields fun _ trace => asked kind trace = [] := by
  refine hp.yields.mono fun _ trace h => ?_
  rw [asked, List.filterMap_eq_nil_iff]
  exact fun e he => Option.not_isSome_iff_eq_none.1 (h e he)

/-- What a request tells of a batch of changes. -/
def Action.batchEvent? : Action → Option BatchEvent
  | .tellBatch event => some event
  | _ => none

/-- What is told of files, of which the first makes `first` that are done. -/
def progressEvents (total first : Nat) (paths : List String) : List BatchEvent :=
  (paths.zipIdx first).map fun (path, n) => .progress n total (some path)

theorem progressEvents_append (total first : Nat) (paths more : List String) :
    progressEvents total first (paths ++ more) =
      progressEvents total first paths ++ progressEvents total (first + paths.length) more := by
  rw [progressEvents, List.zipIdx_append, List.map_append]
  rfl

/-! ## Files beside each other -/

namespace Changes

/-- The deleted files, in the order in which they are dealt with. -/
def deletedPaths (changes : Changes) : List String :=
  Path.sort ((changes.filter (·.2 = .deleted)).map (·.1))

/-- The other files, in the order in which they are cut into groups. -/
def presentPaths (changes : Changes) : List String :=
  Path.sort ((changes.filter (·.2 ≠ .deleted)).map (·.1))

/-- Every changed path is one or the other. -/
theorem perm_paths (changes : Changes) :
    (changes.presentPaths ++ changes.deletedPaths).Perm (changes.map (·.1)) := by
  have hsort : ∀ paths : List String, (Path.sort paths).Perm paths := fun paths => List.mergeSort_perm ..
  have hsplit : (changes.filter (·.2 ≠ .deleted) ++ changes.filter (·.2 = .deleted)).Perm changes := by
    have hnot : changes.filter (·.2 = .deleted) = changes.filter fun c => !decide (c.2 ≠ .deleted) :=
      List.filter_congr fun c _ => by simp
    rw [hnot]
    exact List.filter_append_perm ..
  refine ((hsort _).append (hsort _)).trans ?_
  rw [← List.map_append]
  exact hsplit.map _

end Changes

namespace Change

variable {s : Services} {total : Nat} {paths : List String} {outcomes : List FileOutcome} {t : Tally}
  {turns : List String → List Nat} {trace : List (Exchange indexing)}

/-- Process files group by group, those of a group beside each other. -/
def processGroupsAbreast (s : Services) (turns : List String → List Nat) (total : Nat) :
    Tally → List (List String) → Procedure Tally
  | t, [] => return t
  | t, group :: rest => do
    let outcomes ← Program.abreast (turns group) (group.map (processFile s))
    processGroupsAbreast s turns total (← count total t outcomes) rest

theorem inOrder_processFile (s : Services) (paths : List String) :
    Program.inOrder (paths.map (processFile s)) = processAll s paths := by
  induction paths with
  | nil => rfl
  | cons path paths ih =>
    rw [List.map_cons, Program.inOrder, ih]
    rfl

/-- Without turns the files of a group are processed one after the other. -/
theorem processGroupsAbreast_inOrder (t : Tally) (groups : List (List String)) :
    processGroupsAbreast s (fun _ => []) total t groups = processGroups s total t groups := by
  induction groups generalizing t with
  | nil => rfl
  | cons group groups ih =>
    rw [processGroupsAbreast, Program.abreast, inOrder_processFile]
    simp only [ih]
    rfl

end Change

/-- Work through a batch of changes, the files of a group beside each other. -/
def processChangesAbreast (s : Services) (turns : List String → List Nat) (changes : Changes) :
    Procedure (List ChangeResult) := do
  ask (.tellBatch (.start (Path.sort (changes.map (·.1)))))
  let tally ← Change.processGroupsAbreast s turns changes.length {}
    (segmentsOf (max s.tuning.watcherConcurrency 1) changes.presentPaths)
  Change.storing s changes.length changes.deletedPaths tally

/-- In order a batch is worked through as `processChanges` says. -/
theorem processChangesAbreast_inOrder (s : Services) (changes : Changes) :
    processChangesAbreast s (fun _ => []) changes = processChanges s changes := by
  rw [processChangesAbreast, processChanges_eq]
  simp only [Change.processGroupsAbreast_inOrder]
  rfl

/-! ## Outcomes -/

namespace Change

variable {s : Services} {total : Nat} {paths : List String} {outcomes : List FileOutcome} {t : Tally}
  {trace : List (Exchange indexing)}

/-- The outcome of a file is about that file. -/
theorem yields_processFile_path (path : String) :
    (processFile s path).Yields fun outcome _ => outcome.path = path := by
  unfold processFile
  refine Program.yields_ite (fun _ => Program.yields_pure rfl) fun _ => ?_
  refine Program.yields_ask_bind fun size => ?_
  cases size with
  | error e => exact Program.yields_pure rfl
  | ok size =>
    refine Program.yields_ite (fun _ => Program.yields_pure rfl) fun _ => ?_
    refine Program.yields_ask_bind fun content => ?_
    cases content with
    | error e => exact Program.yields_pure rfl
    | ok content =>
      refine Program.yields_ask_bind fun hashes => ?_
      refine Program.yields_ite (fun _ => Program.yields_pure rfl) fun _ => ?_
      refine Yields.bind (fun _ _ _ => trivial) fun x _ _ => ?_
      cases x with
      | error message => exact Program.yields_pure rfl
      | ok points => exact Program.yields_pure rfl

theorem map_path_of_reaches (h : Reaches trace (paths.map (processFile s)) outcomes) :
    outcomes.map (·.path) = paths := by
  refine List.forall₂_eq_eq_eq ▸ ?_
  rw [List.forall₂_map_left_iff]
  refine (List.forall₂_map_left_iff.1 h).flip.imp ?_
  rintro outcome path ⟨part, -, hfollows⟩
  exact yields_processFile_path path outcome part hfollows

/-- The results of outcomes that are known already. -/
def resultsOf (outcomes : List FileOutcome) : List ChangeResult :=
  outcomes.filterMap fun
    | .result r => some r
    | .ready _ => none

/-- A tally counts all outcomes, and keeps the results apart from the files that are ready. -/
theorem Tally.foldl_add (t : Tally) (outcomes : List FileOutcome) : outcomes.foldl Tally.add t =
    { processed := t.processed + outcomes.length
      results := t.results ++ resultsOf outcomes
      ready := t.ready ++ readyOf outcomes } := by
  induction outcomes generalizing t with
  | nil => simp [resultsOf, readyOf]
  | cons outcome outcomes ih =>
    rw [List.foldl_cons, ih]
    cases outcome with
    | result r => simp [Tally.add, resultsOf, readyOf, Nat.add_comm, Nat.add_left_comm]
    | ready file => simp [Tally.add, resultsOf, readyOf, Nat.add_comm, Nat.add_left_comm]

/-- Each file has a result or is ready. -/
theorem perm_outcomes (outcomes : List FileOutcome) :
    ((resultsOf outcomes).map (·.path) ++ (readyOf outcomes).map (·.path)).Perm
      (outcomes.map (·.path)) := by
  induction outcomes with
  | nil => exact .refl _
  | cons outcome outcomes ih =>
    cases outcome with
    | result r => exact ih.cons r.path
    | ready file => exact List.perm_middle.trans (ih.cons file.path)

/-- Counting adds the outcomes to the tally and tells of each file. -/
theorem yields_count_told (total : Nat) (t : Tally) (outcomes : List FileOutcome) :
    (count total t outcomes).Yields fun t' trace => t' = outcomes.foldl Tally.add t ∧
      asked Action.batchEvent? trace = progressEvents total (t.processed + 1) (outcomes.map (·.path)) := by
  induction outcomes generalizing t with
  | nil => exact Program.yields_pure ⟨rfl, rfl⟩
  | cons outcome outcomes ih =>
    refine Program.yields_ask_bind fun _ => (ih _).mono fun t' trace ⟨ht', htold⟩ => ⟨ht', ?_⟩
    have hadd : (t.add outcome).processed = t.processed + 1 := by
      cases outcome with
      | result r => rfl
      | ready file => rfl
    change _ :: asked Action.batchEvent? trace = _
    rw [htold, hadd]
    rfl

/-- Nothing is told while files are processed. -/
theorem spares_telling : Spares fun a => a.batchEvent?.isSome = true where
  size _ := nofun
  read _ := nofun
  hashes := nofun
  embed _ := nofun

/-- The files of all groups come to what each of them comes to on its own, and are told of in order. -/
theorem yields_processGroupsAbreast (turns : List String → List Nat) (t : Tally)
    (groups : List (List String)) :
    (processGroupsAbreast s turns total t groups).Yields fun t' trace =>
      ∃ outcomes, Reaches trace (groups.flatten.map (processFile s)) outcomes ∧
        t' = outcomes.foldl Tally.add t ∧
        asked Action.batchEvent? trace = progressEvents total (t.processed + 1) groups.flatten := by
  induction groups generalizing t with
  | nil => exact Program.yields_pure ⟨[], .nil, rfl, rfl⟩
  | cons group groups ih =>
    have hsilent : (Program.abreast (turns group) (group.map (processFile s))).Yields fun _ trace =>
        asked Action.batchEvent? trace = [] :=
      yields_asked_nil (Program.guarded_abreast
        (List.forall_mem_map.2 fun path _ => never_processFile spares_telling path))
    refine ((Program.yields_abreast _ _).and hsilent).bind fun outcomes first ⟨hreaches, hnone⟩ => ?_
    refine (yields_count_told total t outcomes).bind fun t₁ second ⟨ht₁, htold⟩ => ?_
    refine (ih t₁).mono fun t' rest ⟨others, hothers, ht', hrest⟩ => ?_
    have hpaths := map_path_of_reaches hreaches
    refine ⟨outcomes ++ others, ?_, ?_, ?_⟩
    · rw [List.flatten_cons, List.map_append]
      exact List.rel_append (hreaches.mono (List.sublist_append_left ..))
        (hothers.mono ((List.sublist_append_right ..).trans (List.sublist_append_right ..)))
    · rw [List.foldl_append, ← ht₁, ht']
    · have hcount : t₁.processed + 1 = t.processed + 1 + group.length := by
        rw [ht₁, Tally.foldl_add, ← hpaths, List.length_map, Nat.add_right_comm]
      rw [asked_append, asked_append, hnone, htold, hrest, hpaths, hcount,
        List.flatten_cons, progressEvents_append]
      rfl

/-- Processing files group by group makes the requests of processing each of them, and tells. -/
theorem guarded_processGroupsAbreast {opens : Exchange indexing → Prop} {kind : Action → Prop}
    (files : ∀ path, (processFile s path).Guarded opens kind) (tell : ∀ event, ¬kind (.tellBatch event))
    (turns : List String → List Nat) (t : Tally) (groups : List (List String)) :
    (processGroupsAbreast s turns total t groups).Guarded opens kind := by
  induction groups generalizing t with
  | nil => trivial
  | cons group groups ih =>
    refine Guarded.bind (Program.guarded_abreast (List.forall_mem_map.2 fun path _ => files path)) fun _ => ?_
    exact Guarded.bind (Program.guarded_of_never (never_count tell _ _ _)) fun _ => ih _

/-! ## What follows the outcomes -/

/-- The old points of files are deleted by one call, if there are any files. -/
theorem yields_deleteStale_call (paths : List String) : (deleteStale s paths).Yields fun refusal trace =>
    paths = [] ∧ trace = [] ∧ refusal = none ∨
      paths ≠ [] ∧ ∃ x : Except ServiceError Unit,
        trace = [⟨.deletePoints (paths.map (Path.relativeTo s.root)), x⟩] ∧
          (refusal = none ↔ x = .ok ()) := by
  unfold deleteStale
  refine Program.yields_ite (fun hempty => ?_) fun hsome => ?_
  · exact Program.yields_pure (Or.inl ⟨List.isEmpty_iff.1 hempty, rfl, rfl⟩)
  · have hne : paths ≠ [] := fun h => hsome (List.isEmpty_iff.2 h)
    refine Program.yields_ask_bind fun x => ?_
    cases x with
    | ok => exact Program.yields_pure (Or.inr ⟨hne, _, rfl, iff_of_true rfl rfl⟩)
    | error e => exact Program.yields_pure (Or.inr ⟨hne, _, rfl, iff_of_false nofun nofun⟩)

/-- How a deleted file ends. -/
def deletionOutcome (failed : Bool) : ChangeOutcome :=
  if failed then .failed "failed to delete points" else .stored

/-- Deleted files are counted like the others, and told of in order. -/
theorem yields_settleDeleted_told (total : Nat) (failed : Bool) (t : Tally) (paths : List String) :
    (settleDeleted total failed t paths).Yields fun t' trace =>
      t' = (paths.map (FileOutcome.of · (deletionOutcome failed))).foldl Tally.add t ∧
        asked Action.batchEvent? trace = progressEvents total (t.processed + 1) paths := by
  induction paths generalizing t with
  | nil => exact Program.yields_pure ⟨rfl, rfl⟩
  | cons path paths ih =>
    have hrest : ∀ x : Unit, (settleDeleted total failed
        (t.add (.of path (deletionOutcome failed))) paths).Yields fun t' rest =>
          t' = ((path :: paths).map (FileOutcome.of · (deletionOutcome failed))).foldl Tally.add t ∧
            asked Action.batchEvent? (⟨.tellBatch (.progress (t.processed + 1) total (some path)), x⟩ :: rest) =
              progressEvents total (t.processed + 1) (path :: paths) := by
      refine fun x => (ih _).mono fun t' rest ⟨ht', htold⟩ => ⟨ht', ?_⟩
      change _ :: asked Action.batchEvent? rest = _
      rw [htold]
      rfl
    unfold settleDeleted
    refine Program.yields_ask_bind fun x => ?_
    refine Program.yields_ite (fun _ => ?_) fun _ => hrest x
    exact Program.yields_ask_bind fun _ => hrest x

/-- What is done for the files that are ready: if old points could not be deleted they are refused, otherwise
they are stored. -/
def fill (s : Services) (refusal : Option String) (ready : List ReadyFile) :
    Procedure (List ChangeResult × Option String) :=
  match refusal with
  | some e => return (ready.map fun file => ⟨file.path, .failed "failed to delete old points"⟩, some e)
  | none => upsertReady s ready

/-- Filling in makes the requests of upserting and of settling hashes only. -/
theorem never_fill {kind : Action → Prop} (pauses : ∀ d, ¬kind (.pause d))
    (upsert : ∀ points, ¬kind (.upsert points)) (record : ∀ path hash, ¬kind (.recordHash path hash))
    (forget : ∀ paths, ¬kind (.forgetHashes paths)) (refusal : Option String) (ready : List ReadyFile) :
    (fill s refusal ready).Never kind := by
  cases refusal with
  | some e => trivial
  | none => exact never_upsertReady pauses upsert record forget ready

/-- What a batch does once its files were read and embedded, part by part. -/
theorem exists_of_follows_storing {deleted : List String} {results : List ChangeResult}
    (h : Follows (storing s total deleted t) trace (.done results)) :
    ∃ refusal t' stored error deletion settling filling,
      trace = deletion ++ (settling ++ (filling ++
        [⟨.tellBatch (.progress total total none), ()⟩, ⟨.tellBatch (.finish results error), ()⟩])) ∧
      Follows (deleteStale s (deleted ++ t.ready.map (·.path))) deletion (.done refusal) ∧
      Follows (settleDeleted total refusal.isSome t deleted) settling (.done t') ∧
      Follows (fill s refusal t'.ready) filling (.done (stored, error)) ∧
      results = t'.results ++ stored := by
  obtain ⟨refusal, deletion, rest₁, rfl, hdeletion, h₁⟩ := Program.follows_bind_iff.1 h
  obtain ⟨t', settling, rest₂, rfl, hsettling, h₂⟩ := Program.follows_bind_iff.1 h₁
  have hlast : ∀ {results' error last}, Follows (finishing total results' error) last (.done results) →
      results = results' ∧
        last = [⟨.tellBatch (.progress total total none), ()⟩, ⟨.tellBatch (.finish results error), ()⟩] := by
    intro results' error last h
    obtain ⟨_, last₁, rfl, h₁⟩ := Program.follows_ask_bind_iff.1 h
    obtain ⟨_, last₂, rfl, h₂⟩ := Program.follows_ask_bind_iff.1 h₁
    obtain ⟨rfl, rfl⟩ := Program.follows_done_iff.1 h₂
    exact ⟨rfl, rfl⟩
  cases refusal with
  | some e =>
    obtain ⟨rfl, rfl⟩ := hlast h₂
    exact ⟨some e, t', _, _, deletion, settling, [], rfl, hdeletion, hsettling, .nil _, rfl⟩
  | none =>
    obtain ⟨⟨stored, error⟩, filling, last, rfl, hfilling, h₃⟩ := Program.follows_bind_iff.1 h₂
    obtain ⟨rfl, rfl⟩ := hlast h₃
    exact ⟨none, t', _, _, deletion, settling, filling, rfl, hdeletion, hsettling, hfilling, rfl⟩

theorem resultsOf_map_of (paths : List String) (outcome : ChangeOutcome) :
    resultsOf (paths.map (FileOutcome.of · outcome)) = paths.map (⟨·, outcome⟩) := by
  rw [resultsOf, List.filterMap_map]
  change paths.filterMap (fun path => some (ChangeResult.mk path outcome)) = _
  rw [List.filterMap_eq_map']

theorem readyOf_map_of (paths : List String) (outcome : ChangeOutcome) :
    readyOf (paths.map (FileOutcome.of · outcome)) = [] := by
  rw [readyOf, List.filterMap_map, List.filterMap_eq_nil_iff]
  exact fun _ _ => rfl

end Change

/-! ## A whole batch -/

/-- The course of a whole batch of changes: what its files came to, whether old points could not be deleted,
what was stored, and what was exchanged for each of these. -/
structure Course (s : Services) (turns : List String → List Nat) (changes : Changes)
    (trace : List (Exchange indexing)) (results : List ChangeResult) where
  outcomes : List FileOutcome
  refusal : Option String
  stored : List ChangeResult
  error : Option String
  working : List (Exchange indexing)
  deletion : List (Exchange indexing)
  settling : List (Exchange indexing)
  filling : List (Exchange indexing)
  trace_eq : trace = ⟨.tellBatch (.start (Path.sort (changes.map (·.1)))), ()⟩ ::
    (working ++ (deletion ++ (settling ++ (filling ++
      [⟨.tellBatch (.progress changes.length changes.length none), ()⟩,
        ⟨.tellBatch (.finish results error), ()⟩]))))
  works : Follows (Change.processGroupsAbreast s turns changes.length {}
    (segmentsOf (max s.tuning.watcherConcurrency 1) changes.presentPaths)) working
    (.done (outcomes.foldl Change.Tally.add {}))
  reaches : Reaches working (changes.presentPaths.map (Change.processFile s)) outcomes
  works_told : asked Action.batchEvent? working = progressEvents changes.length 1 changes.presentPaths
  deletes : Follows (Change.deleteStale s
    (changes.deletedPaths ++ (Change.readyOf outcomes).map (·.path))) deletion (.done refusal)
  settles : ∃ t', Follows (Change.settleDeleted changes.length refusal.isSome
    (outcomes.foldl Change.Tally.add {}) changes.deletedPaths) settling (.done t')
  settles_told : asked Action.batchEvent? settling =
    progressEvents changes.length (1 + changes.presentPaths.length) changes.deletedPaths
  fills : Follows (Change.fill s refusal (Change.readyOf outcomes)) filling (.done (stored, error))
  results_eq : results = Change.resultsOf outcomes ++
    changes.deletedPaths.map (⟨·, Change.deletionOutcome refusal.isSome⟩) ++ stored

open Change in
/-- Every whole batch has a course. -/
theorem nonempty_course {s : Services} {turns : List String → List Nat} {changes : Changes}
    {trace : List (Exchange indexing)} {results : List ChangeResult}
    (h : Follows (processChangesAbreast s turns changes) trace (.done results)) :
    Nonempty (Course s turns changes trace results) := by
  obtain ⟨_, rest, rfl, h₁⟩ := Program.follows_ask_bind_iff.1 h
  obtain ⟨t, working, rest, rfl, hworks, h₂⟩ := Program.follows_bind_iff.1 h₁
  obtain ⟨outcomes, hreaches, rfl, htold⟩ := yields_processGroupsAbreast turns {} _ t working hworks
  obtain ⟨refusal, t', stored, error, deletion, settling, filling, rfl, hdeletes, hsettles, hfills, hresults⟩ :=
    exists_of_follows_storing h₂
  obtain ⟨rfl, hsettled⟩ := yields_settleDeleted_told _ _ _ _ t' settling hsettles
  rw [flatten_segmentsOf] at hreaches htold
  have hlength : outcomes.length = changes.presentPaths.length := by
    rw [← map_path_of_reaches hreaches, List.length_map]
  refine ⟨{
    outcomes, refusal, stored, error, working, deletion, settling, filling
    trace_eq := rfl
    works := hworks
    reaches := hreaches
    works_told := htold
    deletes := ?_
    settles := ⟨_, hsettles⟩
    settles_told := ?_
    fills := ?_
    results_eq := ?_ }⟩
  · simpa only [Tally.foldl_add, List.nil_append] using hdeletes
  · rw [hsettled, Tally.foldl_add, hlength, Nat.zero_add, Nat.add_comm]
  · simpa only [Tally.foldl_add, readyOf_map_of, List.append_nil, List.nil_append] using hfills
  · rw [hresults, Tally.foldl_add, Tally.foldl_add, resultsOf_map_of, List.nil_append]

end SourceIndex
