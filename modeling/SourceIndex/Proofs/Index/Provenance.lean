import SourceIndex.Proofs.Index.Requests
/-!
# Where stored vectors come from

A segment is embedded as a whole, and its points are put together from its items and the vectors of the
answer, position by position. So every point that is handed to the store carries the vector that an answer
gave for the text of its own block (`Carries`), however often a segment was tried before and whatever
lengths the answers had: an answer with another number of vectors than texts was asked for is refused.

`Batch.heeds_process` says this of batches and `heeds_processChanges` of a watcher, which cuts the points of
its files into segments anew before it stores them.
-/

namespace SourceIndex

open Program (Exchange Follows Heeds Yields recording)

/-- The point of a block carries the vector that an answer gave for the text of the block. -/
def Carries (root : String) (trace : List (Exchange indexing)) (block : Block) (point : Point) : Prop :=
  ∃ (texts : List String) (embeddings : Embed.Embeddings) (j : Nat) (vector : Vector32),
    (⟨.embed texts, .ok embeddings⟩ : Exchange indexing) ∈ trace ∧
    embeddings.vectors.length = texts.length ∧ texts[j]? = some (Text.trim block.content) ∧
    embeddings.vectors[j]? = some vector ∧ point = Point.ofBlock root block vector

/-- The block was cut from what was read of a file. -/
def Cut (s : Services) (trace : List (Exchange indexing)) (block : Block) : Prop :=
  ∃ path content, (⟨.readFile path, .ok content⟩ : Exchange indexing) ∈ trace ∧
    block ∈ Chunk.parse s.trees s.tuning.chunk path content (contentHash content)

section
variable {root : String} {log log' : List (Exchange indexing)} {block : Block} {point : Point}
  {s : Services}

theorem Carries.mono (h : Carries root log block point) (hsub : log ⊆ log') :
    Carries root log' block point := by
  obtain ⟨texts, embeddings, j, vector, hmem, hrest⟩ := h
  exact ⟨texts, embeddings, j, vector, hsub hmem, hrest⟩

theorem Cut.mono (h : Cut s log block) (hsub : log ⊆ log') : Cut s log' block := by
  obtain ⟨path, content, hmem, hblock⟩ := h
  exact ⟨path, content, hsub hmem, hblock⟩

/-- The points of blocks carry, position by position, the vectors of an answer that has one for each of them. -/
theorem carries_zipWith {blocks : List Block} {embeddings : Embed.Embeddings} {i : Nat}
    (hmem : (⟨.embed (blocks.map fun b => Text.trim b.content), .ok embeddings⟩ : Exchange indexing) ∈ log)
    (hlength : embeddings.vectors.length = blocks.length) (hblock : blocks[i]? = some block)
    (hpoint : (blocks.zipWith (Point.ofBlock root) embeddings.vectors)[i]? = some point) :
    Carries root log block point := by
  obtain ⟨block', vector, hblock', hvector, rfl⟩ := List.getElem?_zipWith_eq_some.1 hpoint
  obtain rfl : block = block' := Option.some_inj.1 (hblock.symm.trans hblock')
  refine ⟨_, embeddings, i, vector, hmem, ?_, ?_, hvector, rfl⟩
  · rw [hlength, List.length_map]
  · rw [List.getElem?_map, hblock, Option.map_some]

theorem carries_of_mem_zipWith {blocks : List Block} {embeddings : Embed.Embeddings}
    (hmem : (⟨.embed (blocks.map fun b => Text.trim b.content), .ok embeddings⟩ : Exchange indexing) ∈ log)
    (hlength : embeddings.vectors.length = blocks.length)
    (h : point ∈ blocks.zipWith (Point.ofBlock root) embeddings.vectors) :
    ∃ block ∈ blocks, Carries root log block point := by
  obtain ⟨i, hpoint⟩ := List.mem_iff_getElem?.1 h
  obtain ⟨block, -, hblock, -, -⟩ := List.getElem?_zipWith_eq_some.1 hpoint
  exact ⟨block, List.mem_of_getElem? hblock, carries_zipWith hmem hlength hblock hpoint⟩

end

/-! ## Batches -/

namespace Batch

variable {α : Type} {strategy : BatchStrategy α} {limits : BatchLimits} {items segment : List α}
  {segments : List (List α)} {progress : Nat → Nat → Procedure Unit} {log : List (Exchange indexing)}

/-- An upsert stores one of the segments, with the vectors that were just given for its texts. -/
def Fresh (strategy : BatchStrategy α) (segments : List (List α)) (a : Action)
    (log : List (Exchange indexing)) : Prop :=
  ∀ points, a = .upsert points → ∃ segment ∈ segments, ∃ before embeddings,
    log = before ++ [⟨.embed (segment.map strategy.text), .ok embeddings⟩] ∧
      embeddings.vectors.length = segment.length ∧
      points = segment.zipWith strategy.point embeddings.vectors

theorem fresh_of_not_upserts {a : Action} (h : ¬a.upserts = true) : Fresh strategy segments a log := by
  rintro points rfl
  exact absurd rfl h

/-- What never upserts heeds the segments. -/
theorem heeds_never {β : Type} {p : Procedure β} (hp : p.Never fun (a : Action) => a.upserts = true) :
    p.Heeds recording (Fresh strategy segments) log fun _ _ => True :=
  hp.heeds (fun _ _ h _ => fresh_of_not_upserts h) (fun _ _ _ _ _ _ _ => trivial) trivial

theorem heeds_embedAndUpsert (hin : segment ∈ segments) :
    (embedAndUpsert strategy segment).Heeds recording (Fresh strategy segments) log fun _ _ => True := by
  unfold embedAndUpsert
  refine Program.heeds_ask_bind (fresh_of_not_upserts nofun) fun x log₁ h₁ => ?_
  cases x with
  | error e => exact Program.heeds_pure trivial
  | ok embeddings =>
    refine Program.heeds_ite (fun _ => Program.heeds_pure trivial) fun hlength => ?_
    have hlength : embeddings.vectors.length = segment.length := by simpa using hlength
    refine Program.heeds_ask_bind ?_ fun y log₂ _ => ?_
    · rintro _ ⟨⟩
      exact ⟨segment, hin, log, embeddings, h₁, hlength, rfl⟩
    · cases y with
      | ok => exact Program.heeds_pure trivial
      | error e => exact Program.heeds_pure trivial

theorem heeds_runSegment (hin : segment ∈ segments) : (runSegment strategy limits segment).Heeds recording
    (Fresh strategy segments) log fun _ _ => True := by
  unfold runSegment
  refine (Program.heeds_retry (fun _ => True) (fun _ _ => True)
    (fun d _ _ => heeds_never (Program.guarded_ask nofun))
    (fun _ _ => (heeds_embedAndUpsert hin).mono fun _ _ _ => ⟨trivial, fun _ _ => trivial⟩)
    trivial).bind fun x log₁ _ => ?_
  cases x with
  | ok => exact heeds_never (Program.Guarded.bind (never_recordHashes fun _ _ => nofun) fun _ => trivial)
  | error e => exact Program.heeds_pure trivial

theorem heeds_runSegments (quiet : ∀ before size, (progress before size).Never
      fun (a : Action) => a.upserts = true)
    {rest : List (List α)} (hsub : rest ⊆ segments) (r : BatchResult) :
    (runSegments strategy limits progress r rest).Heeds recording (Fresh strategy segments) log
      fun _ _ => True := by
  induction rest generalizing r log with
  | nil => exact Program.heeds_pure trivial
  | cons segment rest ih =>
    obtain ⟨hin, hrest⟩ := List.cons_subset.1 hsub
    refine (heeds_runSegment hin).bind fun r₁ log₁ _ => ?_
    exact (heeds_never (quiet _ _)).bind fun _ log₂ _ => ih hrest _

/-- Whatever a batch upserts is one of its segments, with the vectors that were just given for its texts. -/
theorem heeds_process (quiet : ∀ before size, (progress before size).Never
      fun (a : Action) => a.upserts = true) :
    (process strategy limits progress items).Heeds recording
      (Fresh strategy (segmentsOf limits.segmentSize items)) log fun _ _ => True := by
  unfold process
  refine Program.heeds_ite (fun _ => Program.heeds_pure trivial) fun _ => ?_
  exact (heeds_never (never_deleteStale nofun)).bind fun errors log₁ _ =>
    heeds_runSegments quiet (List.Subset.refl _) _

/-- The results of a batch are those of its items, in their order. -/
theorem yields_runSegments_items (r : BatchResult) :
    (runSegments strategy limits progress r segments).Yields fun r' _ =>
      r'.items.map (·.filePath) = r.items.map (·.filePath) ++ segments.flatten.map strategy.filePath := by
  induction segments generalizing r with
  | nil => exact Program.yields_pure (List.append_nil _).symm
  | cons segment segments ih =>
    have hsegment : (runSegment strategy limits segment).Yields fun r' _ =>
        r'.items.map (·.filePath) = segment.map strategy.filePath := by
      unfold runSegment
      refine Yields.bind (fun _ _ _ => trivial) fun x _ _ => ?_
      cases x with
      | ok =>
        refine Yields.bind (fun _ _ _ => trivial) fun _ _ _ => ?_
        exact Program.yields_pure (List.map_map ..)
      | error e => exact Program.yields_pure (List.map_map ..)
    refine hsegment.bind fun r₁ _ h₁ => ?_
    refine Yields.bind (fun _ _ _ => trivial) fun _ _ _ => ?_
    refine (ih _).mono fun r' _ h' => ?_
    rw [h', BatchResult.merge, List.map_append, h₁, List.flatten_cons, List.map_append, List.append_assoc]

theorem yields_process_items : (process strategy limits progress items).Yields fun r _ =>
    r.items.map (·.filePath) = items.map strategy.filePath := by
  unfold process
  refine Program.yields_ite (fun hempty => ?_) fun _ => ?_
  · rw [List.isEmpty_iff.1 hempty]
    exact Program.yields_pure rfl
  · refine Yields.bind (fun _ _ _ => trivial) fun errors _ _ => ?_
    refine (yields_runSegments_items _).mono fun r _ h => ?_
    rw [h, flatten_segmentsOf]
    rfl

end Batch

/-! ## Batches of changes -/

namespace Change

variable {s : Services} {log log' : List (Exchange indexing)} {point : Point} {ready : List ReadyFile}

/-- The point was made of a block that was cut from what was read of a file, and carries the vector that was
given for its text. -/
def Sourced (s : Services) (log : List (Exchange indexing)) (point : Point) : Prop :=
  ∃ block, Cut s log block ∧ Carries s.root log block point

/-- Whatever is upserted was made of what was read. -/
def Sources (s : Services) (a : Action) (log : List (Exchange indexing)) : Prop :=
  ∀ points, a = .upsert points → ∀ point ∈ points, Sourced s log point

/-- The points of files that wait to be stored were made of what was read. -/
def Prepares (s : Services) (ready : List ReadyFile) (log : List (Exchange indexing)) : Prop :=
  ∀ file ∈ ready, ∀ point ∈ file.points, Sourced s log point

theorem Sourced.mono (h : Sourced s log point) (hsub : log ⊆ log') : Sourced s log' point := by
  obtain ⟨block, hcut, hcarries⟩ := h
  exact ⟨block, hcut.mono hsub, hcarries.mono hsub⟩

theorem Prepares.mono (h : Prepares s ready log) (hsub : log ⊆ log') : Prepares s ready log' :=
  fun file hfile point hpoint => (h file hfile point hpoint).mono hsub

theorem sources_of_not_upserts {a : Action} (h : ¬a.upserts = true) : Sources s a log := by
  rintro points rfl
  exact absurd rfl h

/-- What never upserts stores nothing of unknown origin. -/
theorem heeds_silent {α : Type} {p : Procedure α} (hp : p.Never fun (a : Action) => a.upserts = true) :
    p.Heeds recording (Sources s) log fun _ log' => log ⊆ log' := by
  have h : p.Heeds recording (Sources s) log fun _ _ => True :=
    hp.heeds (fun _ _ h _ => sources_of_not_upserts h) (fun _ _ _ _ _ _ _ => trivial) trivial
  exact h.grows.mono fun _ _ h => h.2

/-- Behind a request that is no upsert the log has its exchange. -/
theorem heeds_ask_bind {α : Type} {a : Action} {f : a.Answer → Procedure α}
    {post : α → List (Exchange indexing) → Prop} (ha : ¬a.upserts = true)
    (h : ∀ x, (f x).Heeds recording (Sources s) (log ++ [⟨a, x⟩]) post) :
    (ask a >>= f).Heeds recording (Sources s) log post :=
  Program.heeds_ask_bind (sources_of_not_upserts ha) fun x _ hlog => hlog ▸ h x

theorem heeds_embedSegments {segments : List (List Block)} {points : List Point}
    (hcut : ∀ segment ∈ segments, ∀ block ∈ segment, Cut s log block)
    (hpoints : ∀ point ∈ points, Sourced s log point) :
    (embedSegments s segments points).Heeds recording (Sources s) log fun x log' =>
      ∀ points', x = .ok points' → ∀ point ∈ points', Sourced s log' point := by
  induction segments generalizing points log with
  | nil =>
    refine Program.heeds_pure ?_
    rintro _ ⟨⟩
    exact hpoints
  | cons segment segments ih =>
    refine heeds_ask_bind nofun fun x => ?_
    cases x with
    | error e => exact Program.heeds_pure nofun
    | ok embeddings =>
      refine Program.heeds_ite (fun _ => Program.heeds_pure nofun) fun hlength => ?_
      have hlength : embeddings.vectors.length = segment.length := by simpa using hlength
      have hsub : log ⊆ log ++ [(⟨.embed (segment.map fun b => Text.trim b.content), .ok embeddings⟩ :
          Exchange indexing)] := List.subset_append_left _ _
      refine ih (fun other hother block hblock => ?_) fun point hpoint => ?_
      · exact (hcut other (List.mem_cons_of_mem _ hother) block hblock).mono hsub
      · rcases List.mem_append.1 hpoint with hpoint | hpoint
        · exact (hpoints point hpoint).mono hsub
        · obtain ⟨block, hblock, hcarries⟩ :=
            carries_of_mem_zipWith (List.mem_append_right _ List.mem_cons_self) hlength hpoint
          exact ⟨block, (hcut segment List.mem_cons_self block hblock).mono hsub, hcarries⟩

theorem heeds_processFile (path : String) : (processFile s path).Heeds recording (Sources s) log
    fun outcome log' => ∀ file, outcome = .ready file → ∀ point ∈ file.points, Sourced s log' point := by
  unfold processFile
  refine Program.heeds_ite (fun _ => Program.heeds_pure nofun) fun _ => ?_
  refine heeds_ask_bind nofun fun size => ?_
  cases size with
  | error e => exact Program.heeds_pure nofun
  | ok size =>
    refine Program.heeds_ite (fun _ => Program.heeds_pure nofun) fun _ => ?_
    refine heeds_ask_bind nofun fun content => ?_
    cases content with
    | error e => exact Program.heeds_pure nofun
    | ok content =>
      refine heeds_ask_bind nofun fun hashes => ?_
      refine Program.heeds_ite (fun _ => Program.heeds_pure nofun) fun _ => ?_
      refine (heeds_embedSegments (fun segment hsegment block hblock => ?_)
        (List.forall_mem_nil _)).bind fun x log₁ h₁ => ?_
      · refine ⟨path, content, by simp, ?_⟩
        rw [← flatten_segmentsOf (max s.tuning.batchThreshold 1)
          (Chunk.parse s.trees s.tuning.chunk path content (contentHash content))]
        exact List.mem_flatten_of_mem hsegment hblock
      · cases x with
        | error message => exact Program.heeds_pure nofun
        | ok points =>
          refine Program.heeds_pure ?_
          rintro _ ⟨⟩
          exact h₁ points rfl

/-- The outcomes of files that wait to be stored. -/
def readyOf (outcomes : List FileOutcome) : List ReadyFile :=
  outcomes.filterMap fun
    | .ready file => some file
    | .result _ => none

theorem heeds_processAll (paths : List String) : (processAll s paths).Heeds recording (Sources s) log
    fun outcomes log' => Prepares s (readyOf outcomes) log' := by
  induction paths generalizing log with
  | nil => exact Program.heeds_pure nofun
  | cons path paths ih =>
    refine (heeds_processFile path).bind fun outcome log₁ h₁ => ?_
    refine (Heeds.grows ih).bind fun outcomes log₂ ⟨h₂, hsub⟩ => Program.heeds_pure ?_
    cases outcome with
    | result r => exact h₂
    | ready file =>
      refine List.forall_mem_cons.2 ⟨fun point hpoint => ?_, h₂⟩
      exact (h₁ file rfl point hpoint).mono hsub

theorem yields_count (total : Nat) (t : Tally) (outcomes : List FileOutcome) :
    (count total t outcomes).Yields fun t' _ => t'.ready = t.ready ++ readyOf outcomes := by
  induction outcomes generalizing t with
  | nil => exact Program.yields_pure (List.append_nil _).symm
  | cons outcome outcomes ih =>
    refine Program.yields_ask_bind fun _ => (ih _).mono fun t' _ h => ?_
    rw [h]
    cases outcome with
    | result r => rfl
    | ready file => exact List.append_assoc ..

theorem heeds_processGroups (total : Nat) {t : Tally} {groups : List (List String)}
    (ht : Prepares s t.ready log) : (processGroups s total t groups).Heeds recording (Sources s) log
      fun t' log' => Prepares s t'.ready log' := by
  induction groups generalizing t log with
  | nil => exact Program.heeds_pure ht
  | cons group groups ih =>
    refine (Heeds.grows (heeds_processAll group)).bind fun outcomes log₁ ⟨h₁, hsub₁⟩ => ?_
    have hcount : (count total t outcomes).Never fun (a : Action) => a.upserts = true :=
      never_count (fun _ => nofun) _ _ _
    refine ((heeds_silent hcount).and_yields (yields_count _ _ _)).bind fun t₁ log₂ ⟨hsub₂, ht₁⟩ => ih ?_
    rw [ht₁]
    intro file hfile
    rcases List.mem_append.1 hfile with hfile | hfile
    · exact (ht.mono (List.Subset.trans hsub₁ hsub₂)) file hfile
    · exact (h₁.mono hsub₂) file hfile

theorem yields_settleDeleted (total : Nat) (failed : Bool) (t : Tally) (paths : List String) :
    (settleDeleted total failed t paths).Yields fun t' _ => t'.ready = t.ready := by
  induction paths generalizing t with
  | nil => exact Program.yields_pure rfl
  | cons path paths ih =>
    refine Program.yields_ask_bind fun _ => ?_
    refine Program.yields_ite (fun _ => ?_) fun _ => ih _
    exact Program.yields_ask_bind fun _ => ih _

theorem heeds_upsertSegments {retry : RetryPolicy} {failures : UpsertFailures}
    {segments : List (List (Nat × Point))}
    (hsegments : ∀ segment ∈ segments, ∀ q ∈ segment, Sourced s log q.2) :
    (upsertSegments retry failures segments).Heeds recording (Sources s) log fun _ _ => True := by
  induction segments generalizing failures log with
  | nil => exact Program.heeds_pure trivial
  | cons segment segments ih =>
    have hsegment := hsegments segment List.mem_cons_self
    refine (Heeds.grows (Program.heeds_retry (fun log => ∀ q ∈ segment, Sourced s log q.2)
      (fun _ _ => True) ?_ ?_ hsegment)).bind fun x log₁ ⟨_, hsub⟩ => ?_
    · intro d log hlog
      have hwait : (pause d).Never fun (a : Action) => a.upserts = true := Program.guarded_ask nofun
      exact (heeds_silent hwait).mono fun _ _ hsub q hq => (hlog q hq).mono hsub
    · intro log hlog
      refine Program.heeds_ask ?_ fun x log' hlog' => ⟨trivial, fun _ _ q hq => ?_⟩
      · rintro _ ⟨⟩ point hpoint
        obtain ⟨q, hq, rfl⟩ := List.mem_map.1 hpoint
        exact hlog q hq
      · exact (hlog q hq).mono (hlog' ▸ List.subset_append_left _ _)
    · have hrest : ∀ other ∈ segments, ∀ q ∈ other, Sourced s log₁ q.2 := fun other hother q hq =>
        (hsegments other (List.mem_cons_of_mem _ hother) q hq).mono hsub
      cases x with
      | ok => exact ih hrest
      | error e => exact ih hrest

theorem heeds_upsertReady (h : Prepares s ready log) :
    (upsertReady s ready).Heeds recording (Sources s) log fun _ _ => True := by
  refine (heeds_upsertSegments fun segment hsegment q hq => ?_).bind fun failures log₁ _ => ?_
  · have hmem : q ∈ tagged ready := by
      rw [← flatten_segmentsOf (max s.tuning.batchThreshold 1) (tagged ready)]
      exact List.mem_flatten_of_mem hsegment hq
    obtain ⟨file, hfile, hpoint⟩ := Premises.mem_tagged.1 hmem
    exact h file (List.fst_mem_of_mem_zipIdx hfile) q.2 hpoint
  · refine (heeds_silent ?_).mono fun _ _ _ => trivial
    exact Program.Guarded.bind (never_settleReady (fun _ _ => nofun) (fun _ => nofun) _ _ _) fun _ =>
      trivial

end Change

open Change in
/-- Whatever a batch of changes upserts was made of what was read, with the vectors of its texts. -/
theorem heeds_processChanges {s : Services} (changes : Changes) {log : List (Exchange indexing)} :
    (processChanges s changes).Heeds recording (Sources s) log fun _ _ => True := by
  refine Change.heeds_ask_bind nofun fun _ => ?_
  refine (heeds_processGroups _ (t := {}) nofun).bind fun tally log₁ h₁ => ?_
  refine (heeds_silent (never_deleteStale (fun _ => nofun) _)).bind fun deleteError log₂ hsub₂ => ?_
  refine ((heeds_silent (never_settleDeleted (fun _ => nofun) (fun _ => nofun) _ _ _ _)).and_yields
    (yields_settleDeleted _ _ _ _)).bind fun tally' log₃ ⟨hsub₃, hready⟩ => ?_
  have hfinish : ∀ results error {log : List (Exchange indexing)},
      (finishing changes.length results error).Heeds recording (Sources s) log fun _ _ => True :=
    fun results error log =>
      (heeds_silent (never_finishing (fun _ => nofun) _ _ _)).mono fun _ _ _ => trivial
  cases deleteError with
  | some e => exact hfinish _ _
  | none =>
    have hprepares : Prepares s tally'.ready log₃ := by
      rw [hready]
      exact h₁.mono (List.Subset.trans hsub₂ hsub₃)
    exact (heeds_upsertReady hprepares).bind fun _ _ _ => hfinish _ _

/-! ## Both kinds of batches -/

/-- The points of one upsert are those of one segment, and each carries the vector of its own item. -/
theorem Batch.Fresh.carries {root : String} {size : Nat} {items : List PendingBlock}
    {log : List (Exchange indexing)} {points : List Point}
    (h : Fresh (blockStrategy root) (segmentsOf size items) (.upsert points) log) :
    ∃ segment ∈ segmentsOf size items, points.length = segment.length ∧
      ∀ (i : Nat) item point, segment[i]? = some item → points[i]? = some point →
        Carries root log item.block point := by
  obtain ⟨segment, hsegment, before, embeddings, hlog, hlength, rfl⟩ := h points rfl
  have hpoints : segment.zipWith (blockStrategy root).point embeddings.vectors =
      (segment.map (·.block)).zipWith (Point.ofBlock root) embeddings.vectors := by
    rw [List.zipWith_map_left]
    rfl
  have hmem : (⟨.embed ((segment.map (·.block)).map fun b => Text.trim b.content), .ok embeddings⟩ :
      Exchange indexing) ∈ log := by
    rw [hlog, List.map_map]
    exact List.mem_append_right _ List.mem_cons_self
  rw [hpoints]
  refine ⟨segment, hsegment, ?_, fun i item point hitem hpoint => ?_⟩
  · rw [List.length_zipWith, List.length_map, hlength, Nat.min_self]
  · refine carries_zipWith hmem (hlength.trans (List.length_map _).symm) ?_ hpoint
    rw [List.getElem?_map, hitem, Option.map_some]

/-- Every point that a batch hands to the store, or a watcher's batch of changes, carries the vector that an
answer gave for the text of the block that it was made of. A batch cuts its items into segments, counts
and reports each of them once, in order, and tells of as many as it has. -/
theorem upserted_with_own_vectors :
    (∀ (root : String) (limits : BatchLimits) (progress : Nat → Nat → Procedure Unit)
      (items : List PendingBlock) trace points next,
      (∀ before size, (progress before size).Never fun (a : Action) => a.upserts = true) →
      Follows (Batch.process (blockStrategy root) limits progress items) trace
        (.call (.upsert points) next) →
      ∃ segment ∈ segmentsOf limits.segmentSize items, points.length = segment.length ∧
        ∀ (i : Nat) item point, segment[i]? = some item → points[i]? = some point →
          Carries root trace item.block point) ∧
    (∀ (s : Services) (changes : Changes) trace points next,
      Follows (processChanges s changes) trace (.call (.upsert points) next) →
      ∀ point ∈ points, ∃ block, Cut s trace block ∧ Carries s.root trace block point) ∧
    ∀ (root : String) (limits : BatchLimits) (items : List PendingBlock) trace r,
      Follows (Batch.process (blockStrategy root) limits Scan.tellSegment items) trace (.done r) →
      (segmentsOf limits.segmentSize items).flatten = items ∧
        r.items.map (·.filePath) = items.map (·.block.filePath) ∧
        r.processed + r.failed = items.length ∧ (trace.filterMap Batch.told).sum = items.length := by
  refine ⟨fun root limits progress items trace points next quiet follows => ?_,
    fun s changes trace points next follows => ?_, fun root limits items trace r follows => ?_⟩
  · have hheeds : (Batch.process (blockStrategy root) limits progress items).Heeds recording
        (Batch.Fresh (blockStrategy root) (segmentsOf limits.segmentSize items)) [] fun _ _ => True :=
      Batch.heeds_process quiet
    have hfresh := hheeds.of_follows follows (Program.trail_recording [] trace)
    exact hfresh.carries
  · have hheeds : (processChanges s changes).Heeds recording (Change.Sources s) [] fun _ _ => True :=
      heeds_processChanges changes
    exact hheeds.of_follows follows (Program.trail_recording [] trace) points rfl
  · obtain ⟨htold, hcount⟩ := Batch.yields_process r trace follows
    exact ⟨flatten_segmentsOf _ _, Batch.yields_process_items r trace follows, hcount, htold⟩

/-- A file of the small workspace, waiting for a batch. -/
def pendingFirst : List PendingBlock :=
  (Premises.small.blocks "/w/a.rs" (Premises.smallText "/w/a.rs")).map fun block => ⟨block, false⟩

/-- The limits of the small workspace. -/
def smallLimits : BatchLimits :=
  .ofTuning Premises.smallServices.tuning

/-- A scene with the files of the small workspace. -/
def smallScene : Scene where
  files path := some (Premises.smallText path)

/-- A batch of the file up to its upsert. -/
def batchHalfway :=
  Program.advance (Premises.respond [] fun _ => false) 1
    (Batch.process (blockStrategy "/w") smallLimits Scan.tellSegment pendingFirst) smallScene

/-- A watcher's batch of the file up to its upsert. -/
def changesHalfway :=
  Program.advance (Premises.respond [] fun _ => false) 7
    (processChanges Premises.smallServices [("/w/a.rs", .changed)]) smallScene

theorem upserted_with_own_vectors_small :
    (∃ points, batchHalfway.2.1.upcoming = some (.upsert points) ∧
      ∃ segment ∈ segmentsOf smallLimits.segmentSize pendingFirst, points.length = segment.length ∧
        ∀ (i : Nat) item point, segment[i]? = some item → points[i]? = some point →
          Carries "/w" batchHalfway.1 item.block point) ∧
    (∃ points, changesHalfway.2.1.upcoming = some (.upsert points) ∧
      ∀ point ∈ points, ∃ block, Cut Premises.smallServices changesHalfway.1 block ∧
        Carries "/w" changesHalfway.1 block point) ∧
    ∃ trace r, Follows (Batch.process (blockStrategy "/w") smallLimits Scan.tellSegment pendingFirst) trace
        (.done r) ∧
      r.items.map (·.filePath) = pendingFirst.map (·.block.filePath) ∧
      r.processed + r.failed = pendingFirst.length ∧
      (trace.filterMap Batch.told).sum = pendingFirst.length := by
  refine ⟨?_, ?_, ?_⟩
  · obtain ⟨points, next, hnext⟩ := exists_eq_call_upsert (p := batchHalfway.2.1) (by decide +kernel)
    have hfollows : Follows _ batchHalfway.1 batchHalfway.2.1 := Program.follows_advance
    refine ⟨points, by rw [hnext]; rfl, ?_⟩
    exact upserted_with_own_vectors.1 "/w" smallLimits Scan.tellSegment pendingFirst _ points next
      (fun _ _ => Program.guarded_ask nofun) (hnext ▸ hfollows)
  · obtain ⟨points, next, hnext⟩ := exists_eq_call_upsert (p := changesHalfway.2.1) (by decide +kernel)
    have hfollows : Follows _ changesHalfway.1 changesHalfway.2.1 := Program.follows_advance
    refine ⟨points, by rw [hnext]; rfl, ?_⟩
    exact upserted_with_own_vectors.2.1 Premises.smallServices [("/w/a.rs", .changed)] _ points next
      (hnext ▸ hfollows)
  · obtain ⟨trace, hfollows, -⟩ := (Premises.ends_respond (e := Premises.small) [] (fun _ => false)
      List.nodup_nil nofun (fun _ h => absurd h Bool.false_ne_true)
      (Batch.process (blockStrategy "/w") smallLimits Scan.tellSegment pendingFirst)
      smallScene).exists_follows
    exact ⟨trace, _, hfollows,
      (upserted_with_own_vectors.2.2 "/w" smallLimits pendingFirst trace _ hfollows).2⟩

end SourceIndex
